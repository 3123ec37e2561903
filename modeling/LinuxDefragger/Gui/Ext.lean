import LinuxDefragger.Gui.Ranges

/-!
# The map of an ext filesystem

In every cell, `map` goes through the block groups and counts the set bits of their bitmaps. A round
of the loop counts one stretch of a group, and what it counts is a state of every single block
(`ExtVolume.state`).
-/

open Except List Storage

namespace LinuxDefragger.Gui

/-- What `map` has read before it draws the cells. A group without a valid descriptor has no
bitmap. -/
structure ExtVolume where
  totalBlocks : ℕ
  firstData : ℕ
  blocksPerGroup : ℕ
  blockSize : ℕ
  size : ℕ
  blockBitmaps : List (Option (List UInt8))
  totalBlocks_pos : 0 < totalBlocks
  blocksPerGroup_pos : 0 < blocksPerGroup
  length_blockBitmaps :
    blockBitmaps.length = (totalBlocks - firstData + blocksPerGroup - 1) / blocksPerGroup
  length_bitmap : ∀ bitmap, some bitmap ∈ blockBitmaps → bitmap.length = blockSize
  /-- The groups are covered by their bitmaps. -/
  covered : blocksPerGroup ≤ 8 * blockSize

/-- The four counters of a cell that are not zero. -/
inductive ExtState
  | free
  | used
  | unknown
  | outside
  deriving DecidableEq

instance : Fintype ExtState where
  elems := {.free, .used, .unknown, .outside}
  complete s := by cases s <;> decide

/-- `counts[state] += n` -/
def addBlocks (counts : ExtState → ℕ) (state : ExtState) (n : ℕ) : ExtState → ℕ :=
  fun k ↦ if k = state then counts k + n else counts k

/-- A cell of the map: its first and last block and the blocks in each state. -/
structure ExtCell where
  start : ℕ
  last : ℕ
  counts : ExtState → ℕ

/-- The state that a bit of a bitmap stands for. -/
def ofBit (bit : Bool) : ExtState := if bit then .used else .free

namespace ExtVolume

variable (vol : ExtVolume)

/-- `physical_blocks`: the filesystem, and what the device has behind it. -/
def physicalBlocks : ℕ := max vol.totalBlocks (vol.size / vol.blockSize)

/-- `group_start` -/
def groupStart (group : ℕ) : ℕ := vol.firstData + group * vol.blocksPerGroup

/-- `group_lengths[group]` -/
def groupLength (group : ℕ) : ℕ := min vol.blocksPerGroup (vol.totalBlocks - vol.groupStart group)

/-- The loop over the groups. Every round takes a block, so that there are enough rounds. -/
def countGroups (filesystemEnd : ℕ) : ℕ → ℕ → (ExtState → ℕ) → Except MapError (ℕ × (ExtState → ℕ))
  | 0, position, counts => pure (position, counts)
  | rounds + 1, position, counts =>
    if position < filesystemEnd then
      let group := (position - vol.firstData) / vol.blocksPerGroup
      let inGroup := (position - vol.firstData) % vol.blocksPerGroup
      let take := min (filesystemEnd - position) (vol.groupLength group - inGroup)
      match vol.blockBitmaps[group]? with
      | none => throw .indexError
      | some none => countGroups filesystemEnd rounds (position + take)
        (addBlocks counts .unknown take)
      | some (some bitmap) => do
        let setBits ← countSetBits bitmap inGroup (inGroup + take)
        countGroups filesystemEnd rounds (position + take)
          (addBlocks (addBlocks counts .used setBits) .free (take - setBits))
    else pure (position, counts)

/-- A cell of the map. -/
def cell (start endEx : ℕ) : Except MapError ExtCell := do
  let count := if start < vol.firstData then min endEx vol.firstData - start else 0
  let filesystemEnd := min endEx vol.totalBlocks
  let groups ← vol.countGroups filesystemEnd filesystemEnd (start + count)
    (addBlocks 0 .unknown count)
  return ⟨start, endEx - 1, addBlocks groups.2 .outside (endEx - groups.1)⟩

/-- The cells that `map` draws. -/
def map (cells : ℤ) : Except MapError (List ExtCell) :=
  let cellCount := (max 1 (min cells vol.physicalBlocks)).toNat
  (List.range cellCount).mapM fun index ↦
    vol.cell (index * vol.physicalBlocks / cellCount) ((index + 1) * vol.physicalBlocks / cellCount)

/-! ### The states of the blocks -/

/-- The bit of a block in the bitmap of its group, if there is one. -/
def bitmapBit (u : ℕ) : Option Bool :=
  if vol.firstData ≤ u ∧ u < vol.totalBlocks then
    vol.blockBitmaps[(u - vol.firstData) / vol.blocksPerGroup]?.join.map
      (bitAt · ((u - vol.firstData) % vol.blocksPerGroup))
  else none

/-- The state of a block. -/
def state (u : ℕ) : ExtState :=
  match vol.bitmapBit u with
  | some true => .used
  | some false => .free
  | none => if vol.firstData ≤ u ∧ vol.totalBlocks ≤ u then .outside else .unknown

variable {vol}

theorem tally_used (a b : ℕ) : tally vol.state a b .used = tally vol.bitmapBit a b (some true) := by
  refine countP_congr fun u _ ↦ ?_
  rw [decide_eq_true_iff, decide_eq_true_iff, state]
  rcases vol.bitmapBit u with _ | _ | _ <;> simp
  split_ifs <;> simp

theorem bitmapBit_group {group i : ℕ} (hi : i < vol.groupLength group) :
    vol.bitmapBit (i + vol.groupStart group) = vol.blockBitmaps[group]?.join.map (bitAt · i) := by
  rw [groupLength] at hi
  have hstart : vol.groupStart group = vol.firstData + group * vol.blocksPerGroup := rfl
  rw [bitmapBit, if_pos ⟨by omega, by omega⟩, show i + vol.groupStart group - vol.firstData =
    i + group * vol.blocksPerGroup by omega, Nat.add_mul_div_right _ _ vol.blocksPerGroup_pos,
    Nat.div_eq_of_lt (by omega), Nat.zero_add, Nat.add_mul_mod_self_right,
      Nat.mod_eq_of_lt (by omega)]

theorem addBlocks_of_const {a b n : ℕ} {state : ExtState} {counts : ExtState → ℕ} (hn : n = b - a)
    (h : ∀ u, a ≤ u → u < b → vol.state u = state) :
    addBlocks counts state n = counts + tally vol.state a b := by
  funext k
  rw [Pi.add_apply, tally_const h, addBlocks, hn]
  simp only [eq_comm]
  split_ifs <;> rfl

/-- A stretch of a group without a bitmap. -/
theorem addBlocks_unmapped {group i n : ℕ} (hn : i + n ≤ vol.groupLength group)
    (h : vol.blockBitmaps[group]? = some none) (counts : ExtState → ℕ) :
    addBlocks counts .unknown n =
      counts + tally vol.state (i + vol.groupStart group) (i + n + vol.groupStart group) := by
  refine addBlocks_of_const (by omega) fun u hle hlt ↦ ?_
  obtain ⟨j, rfl⟩ : ∃ j, u = j + vol.groupStart group := ⟨u - vol.groupStart group, by omega⟩
  have hj : j < vol.groupLength group := by omega
  rw [state, bitmapBit_group hj, h]
  rw [groupLength] at hj
  exact if_neg (by omega)

/-- A stretch of a group with a bitmap. -/
theorem addBlocks_mapped {group i n : ℕ} {bitmap : List UInt8} (hn : i + n ≤ vol.groupLength group)
    (h : vol.blockBitmaps[group]? = some (some bitmap)) (counts : ExtState → ℕ) :
    addBlocks (addBlocks counts .used (tally (bitAt bitmap) i (i + n) true)) .free
        (n - tally (bitAt bitmap) i (i + n) true) =
      counts + tally vol.state (i + vol.groupStart group) (i + n + vol.groupStart group) := by
  have hstate : ∀ k, tally vol.state (i + vol.groupStart group) (i + n + vol.groupStart group) k =
      tally (ofBit ∘ bitAt bitmap) i (i + n) k := by
    intro k
    rw [← tally_shift]
    refine tally_congr fun u hle hlt ↦ ?_
    rw [state, bitmapBit_group (by omega), h]
    cases hbit : bitAt bitmap u <;> simp [hbit, ofBit]
  have hbit : ∀ bit, tally (ofBit ∘ bitAt bitmap) i (i + n) (ofBit bit) =
      tally (bitAt bitmap) i (i + n) bit := fun bit ↦ tally_comp ofBit (by revert bit; decide)
  have hfalse := tally_false (bitAt bitmap) i (i + n)
  rw [Nat.add_sub_cancel_left, ← hbit] at hfalse
  funext k
  rw [Pi.add_apply, hstate]
  cases k with
  | free => exact congrArg (counts .free + ·) hfalse.symm
  | used => exact congrArg (counts .used + ·) (hbit true).symm
  | unknown => exact (congrArg (counts .unknown + ·)
      (tally_eq_zero fun u _ _ ↦ (by decide : ∀ bit, ofBit bit ≠ .unknown) _)).symm
  | outside => exact (congrArg (counts .outside + ·)
      (tally_eq_zero fun u _ _ ↦ (by decide : ∀ bit, ofBit bit ≠ .outside) _)).symm

/-! ### The loop -/

theorem countGroups_done {position e : ℕ} (hle : e ≤ position) (counts : ExtState → ℕ) :
    (position, counts) = (max position e, counts + tally vol.state position e) := by
  rw [max_eq_left hle, show tally vol.state position e = 0 from funext fun k ↦ tally_of_le hle,
    add_zero]

/-- **The loop counts the blocks up to its end.** -/
theorem countGroups_eq {rounds position e : ℕ} (hlow : position < e → vol.firstData ≤ position)
    (hend : e ≤ vol.totalBlocks) (hrounds : e - position ≤ rounds) (counts : ExtState → ℕ) :
    vol.countGroups e rounds position counts =
      .ok (max position e, counts + tally vol.state position e) := by
  induction rounds generalizing position counts with
  | zero => exact congrArg Except.ok (countGroups_done (by omega) counts)
  | succ rounds ih =>
    rw [countGroups]
    split_ifs with hlt
    swap
    · exact congrArg Except.ok (countGroups_done (by omega) counts)
    have hfirst := hlow hlt
    -- where the block is in its group
    have hmod := Nat.mod_lt (position - vol.firstData) vol.blocksPerGroup_pos
    have hdiv := Nat.div_add_mod' (position - vol.firstData) vol.blocksPerGroup
    have hgroup : (position - vol.firstData) / vol.blocksPerGroup < vol.blockBitmaps.length := by
      rw [vol.length_blockBitmaps, Nat.lt_div_iff_mul_lt vol.blocksPerGroup_pos]
      omega
    dsimp only
    generalize (position - vol.firstData) / vol.blocksPerGroup = group at *
    generalize (position - vol.firstData) % vol.blocksPerGroup = i at *
    have hstart : vol.groupStart group = vol.firstData + group * vol.blocksPerGroup := rfl
    have hlength : vol.groupLength group =
      min vol.blocksPerGroup (vol.totalBlocks - vol.groupStart group) := rfl
    obtain rfl : position = i + vol.groupStart group := by omega
    obtain ⟨n, hn⟩ : ∃ n, n = min (e - (i + vol.groupStart group)) (vol.groupLength group - i) :=
      ⟨_, rfl⟩
    rw [← hn, show i + vol.groupStart group + n = i + n + vol.groupStart group by omega]
    have hsum : tally vol.state (i + vol.groupStart group) e =
        tally vol.state (i + vol.groupStart group) (i + n + vol.groupStart group) +
          tally vol.state (i + n + vol.groupStart group) e :=
      funext fun k ↦ tally_append (by omega) (by omega)
    have hmax : max (i + n + vol.groupStart group) e = max (i + vol.groupStart group) e := by omega
    have hstretch : i + n ≤ vol.groupLength group := by omega
    rcases hbitmap : vol.blockBitmaps[group]? with _ | _ | bitmap
    · exact absurd (List.getElem?_eq_none_iff.1 hbitmap) (by omega)
    · dsimp only
      rw [ih (by omega) (by omega), addBlocks_unmapped hstretch hbitmap, hmax, hsum,
        add_assoc counts]
    · have hsize := vol.length_bitmap bitmap (mem_of_getElem? hbitmap)
      have hcovered := vol.covered
      dsimp only
      rw [countSetBits_eq (by omega), ok_bind, ih (by omega) (by omega),
        addBlocks_mapped hstretch hbitmap, hmax, hsum, add_assoc counts]

theorem cell_eq {a b : ℕ} (hab : a < b) : vol.cell a b = .ok ⟨a, b - 1, tally vol.state a b⟩ := by
  obtain ⟨p, hp⟩ : ∃ p, p = max a (min b vol.firstData) := ⟨_, rfl⟩
  obtain ⟨e, he⟩ : ∃ e, e = min b vol.totalBlocks := ⟨_, rfl⟩
  have hcount : (if a < vol.firstData then min b vol.firstData - a else 0) = p - a := by
    split_ifs <;> omega
  have hbefore : addBlocks 0 .unknown (p - a) = 0 + tally vol.state a p :=
    addBlocks_of_const rfl fun u hle hlt ↦ by
      rw [state, bitmapBit, if_neg (by omega)]
      exact if_neg (by omega)
  have hbehind : ∀ counts, addBlocks counts .outside (b - max p e) =
      counts + tally vol.state (max p e) b := fun counts ↦
    addBlocks_of_const rfl fun u hle hlt ↦ by
      rw [state, bitmapBit, if_neg (by omega)]
      exact if_pos (by omega)
  have hsum : tally vol.state a b = tally vol.state a p + tally vol.state p e +
      tally vol.state (max p e) b := by
    funext k
    rw [tally_append (by omega : a ≤ p) (by omega : p ≤ b),
      tally_append (le_max_left p e) (by omega : max p e ≤ b), Pi.add_apply, Pi.add_apply,
        add_assoc]
    rcases Nat.le_total p e with hle | hle
    · rw [max_eq_right hle]
    · rw [max_eq_left hle, tally_of_le le_rfl, tally_of_le hle]
  rw [cell, hcount, ← he, show a + (p - a) = p by omega, hbefore,
    countGroups_eq (by omega) (by omega) (by omega), ok_bind]
  dsimp only
  rw [hbehind, zero_add, ← hsum]
  rfl

end ExtVolume

/-- **The map of an ext filesystem is exact.** The cells tile the device, the counts of each add up
to its width, and it has as many used blocks as there are set bits for its blocks. -/
theorem ext_map_exact (vol : ExtVolume) (cells : ℤ) : ∃ out, vol.map cells = .ok out ∧
    Tiles 0 (out.map fun c ↦ (c.start, c.last + 1)) vol.physicalBlocks ∧
    ∀ c ∈ out, ∑ k, c.counts k = c.last + 1 - c.start ∧
      c.counts .used = tally vol.bitmapBit c.start (c.last + 1) (some true) := by
  have hblocks : 0 < vol.physicalBlocks := lt_max_of_lt_left vol.totalBlocks_pos
  obtain ⟨n, hn⟩ : ∃ n, n = (max 1 (min cells vol.physicalBlocks)).toNat := ⟨_, rfl⟩
  have htiles := tiles_proportional (by omega : 0 < n) (by omega : n ≤ vol.physicalBlocks)
  obtain ⟨bounds, hbounds⟩ : ∃ bounds, bounds = (range n).map fun i ↦
    (i * vol.physicalBlocks / n, (i + 1) * vol.physicalBlocks / n) := ⟨_, rfl⟩
  rw [← hbounds] at htiles
  have hmap : vol.map cells =
      .ok (bounds.map fun p ↦ ⟨p.1, p.2 - 1, tally vol.state p.1 p.2⟩) := by
    rw [ExtVolume.map, ← hn, hbounds, map_map]
    exact mapM_eq_ok.2 (forall₂_map_right_iff.2 (forall₂_same.2 fun i hi ↦
      ExtVolume.cell_eq (htiles.mem _ (hbounds ▸ mem_map_of_mem hi)).2.1))
  have hlast : ∀ p ∈ bounds, p.2 - 1 + 1 = p.2 :=
    fun p hp ↦ Nat.sub_add_cancel (Nat.zero_lt_of_lt (htiles.mem p hp).2.1)
  have hsame : bounds.map (fun p ↦ (p.1, p.2 - 1 + 1)) = bounds.map id :=
    map_congr_left fun p hp ↦ Prod.ext rfl (hlast p hp)
  refine ⟨_, hmap, ?_, forall_mem_map.2 fun p hp ↦ ?_⟩
  · rw [map_map]
    exact (hsame.trans (List.map_id _)).symm ▸ htiles
  · show ∑ k, tally vol.state p.1 p.2 k = p.2 - 1 + 1 - p.1 ∧
      tally vol.state p.1 p.2 .used = tally vol.bitmapBit p.1 (p.2 - 1 + 1) (some true)
    rw [hlast p hp]
    exact ⟨sum_tally _ _ _, ExtVolume.tally_used _ _⟩

/-- Three groups behind one block, the second without a bitmap and the last with three blocks, on a
device of two blocks more. -/
def shortGroupVolume : ExtVolume where
  totalBlocks := 20
  firstData := 1
  blocksPerGroup := 8
  blockSize := 1
  size := 22
  blockBitmaps := [some [0x0F], none, some [0x05]]
  totalBlocks_pos := by decide
  blocksPerGroup_pos := by decide
  length_blockBitmaps := rfl
  length_bitmap := by simp
  covered := le_rfl

/-- The map of that volume in four cells. -/
theorem ext_map_exact_shortGroup : ∃ out, shortGroupVolume.map 4 = .ok out ∧
    Tiles 0 (out.map fun c ↦ (c.start, c.last + 1)) 22 ∧
    ∀ c ∈ out, ∑ k, c.counts k = c.last + 1 - c.start ∧
      c.counts .used = tally shortGroupVolume.bitmapBit c.start (c.last + 1) (some true) :=
  ext_map_exact shortGroupVolume 4

end LinuxDefragger.Gui
