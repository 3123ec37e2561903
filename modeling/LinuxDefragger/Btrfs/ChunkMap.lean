import LinuxDefragger.Python
import Mathlib.Data.List.Sort

/-!
# The chunk map of a Btrfs volume

Btrfs addresses are logical; a chunk says where a range of them is stored, on one or on several
places of one device or of many. A `Mapper` is the table of chunks of one device, in the order of
their addresses. Chunks in which data is striped are refused, so each place holds the range in one
piece.
-/

open List Storage

namespace LinuxDefragger.Btrfs

/-- A stripe is a device and an offset on it. -/
structure Chunk where
  logical : ℕ
  length : ℕ
  chunkType : ℕ
  stripeLen : ℕ
  stripes : List (ℕ × ℕ)
  deriving DecidableEq, Repr

namespace Chunk

variable (c : Chunk)

/-- `_Chunk.end` -/
def stop : ℕ := c.logical + c.length

/-- The offsets of the stripes on a device. -/
def localStripes (devid : ℕ) : List ℕ := (c.stripes.filter fun s ↦ s.1 = devid).map Prod.snd

end Chunk

/-- RAID0, RAID10, RAID5 and RAID6. -/
def stripedProfiles : ℕ := 8 ||| 64 ||| 128 ||| 256

/-- What `_Mapper.__init__` requires of the chunks in the order of their addresses. -/
structure ValidChunks (devid deviceSize : ℕ) (chunks : List Chunk) : Prop where
  ordered : chunks.Pairwise fun a b ↦ a.stop ≤ b.logical
  unstriped : ∀ c ∈ chunks, c.chunkType &&& stripedProfiles = 0
  onDevice : ∀ c ∈ chunks, c.localStripes devid ≠ []
  inside : ∀ c ∈ chunks, ∀ p ∈ c.localStripes devid, p + c.length ≤ deviceSize

/-- `_Mapper` -/
structure Mapper where
  devid : ℕ
  deviceSize : ℕ
  chunks : List Chunk
  valid : ValidChunks devid deviceSize chunks

/-! ### Construction -/

/-- One chunk of the first loop of `_Mapper.__init__`. -/
def addChunk (byLogical : List Chunk) (c : Chunk) : Except PyError (List Chunk) :=
  match byLogical.find? fun d ↦ d.logical = c.logical with
  | none => pure (byLogical ++ [c])
  | some d => if d ≠ c then throw (.engine "conflicting Btrfs chunk mappings" [])
    else pure byLogical

/-- The second loop of `_Mapper.__init__`. -/
def checkChunks (devid deviceSize : ℕ) : ℕ → List Chunk → Except PyError Unit
  | _, [] => pure ()
  | previousEnd, c :: rest => do
    raiseIf (c.logical < previousEnd) "overlapping Btrfs chunks" []
    raiseIf (c.chunkType &&& stripedProfiles ≠ 0)
      "striped Btrfs profiles are not yet supported by the native analyser" []
    raiseIf (c.localStripes devid = []) "Btrfs chunk has no stripe on this device" []
    raiseIf (∃ p ∈ c.localStripes devid, deviceSize < p + c.length)
      "Btrfs chunk stripe points outside the device" []
    checkChunks devid deviceSize c.stop rest

theorem validChunks_of_check {devid deviceSize previousEnd : ℕ} {chunks : List Chunk}
    (h : checkChunks devid deviceSize previousEnd chunks = .ok ()) :
    ValidChunks devid deviceSize chunks ∧ ∀ c ∈ chunks, previousEnd ≤ c.logical := by
  induction chunks generalizing previousEnd with
  | nil => exact ⟨⟨.nil, nofun, nofun, nofun⟩, nofun⟩
  | cons c rest ih =>
    rw [checkChunks] at h
    obtain ⟨horder, h⟩ := raiseIf_bind_eq_ok.1 h
    obtain ⟨hstriped, h⟩ := raiseIf_bind_eq_ok.1 h
    obtain ⟨hlocal, h⟩ := raiseIf_bind_eq_ok.1 h
    obtain ⟨hinside, h⟩ := raiseIf_bind_eq_ok.1 h
    obtain ⟨hrest, hbehind⟩ := ih h
    have hinside' : ∀ p ∈ c.localStripes devid, p + c.length ≤ deviceSize :=
      fun p hp ↦ not_lt.1 fun hlt ↦ hinside ⟨p, hp, hlt⟩
    refine ⟨⟨pairwise_cons.2 ⟨hbehind, hrest.ordered⟩,
      forall_mem_cons.2 ⟨not_not.1 hstriped, hrest.unstriped⟩,
      forall_mem_cons.2 ⟨hlocal, hrest.onDevice⟩,
      forall_mem_cons.2 ⟨hinside', hrest.inside⟩⟩, ?_⟩
    refine forall_mem_cons.2 ⟨not_lt.1 horder, fun d hd ↦ ?_⟩
    have hstop := hbehind d hd
    unfold Chunk.stop at hstop
    omega

/-- `_Mapper.__init__` -/
def Mapper.ofChunks (chunks : List Chunk) (devid deviceSize : ℕ) : Except PyError Mapper :=
  match chunks.foldlM addChunk [] with
  | .error e => .error e
  | .ok byLogical =>
    match h : checkChunks devid deviceSize 0
      (byLogical.insertionSort fun a b ↦ a.logical ≤ b.logical) with
    | .error e => .error e
    | .ok () => .ok ⟨devid, deviceSize, _, (validChunks_of_check h).1⟩

/-! ### Translation -/

namespace Mapper

variable (m : Mapper)

/-- The chunk with the greatest start that is not above the address. -/
def find (address : ℕ) : Except PyError Chunk :=
  match (m.chunks.filter fun c ↦ c.logical ≤ address).getLast? with
  | none => throw (.engine "Btrfs logical address %u has no chunk mapping" [address])
  | some c =>
    if c.stop ≤ address then
      throw (.engine "Btrfs logical address %u has no chunk mapping" [address])
    else pure c

/-- The loop over the stripes in `physical_ranges`: all copies of `take` bytes at `cursor`. -/
def mirrors (c : Chunk) (cursor take : ℕ) : Except PyError (List (ℕ × ℕ)) := do
  let ranges ← (c.localStripes m.devid).mapM fun offset ↦
    let start := offset + (cursor - c.logical)
    if m.deviceSize < start + take then
      throw (.engine "Btrfs physical extent points outside the device" [])
    else pure (start, start + take)
  raiseIf (ranges = []) "Btrfs extent has no local physical mirror" []
  return ranges

/-- The `while remaining` loop of `physical_ranges`. Every round takes a byte at least. -/
def rangesFrom : ℕ → ℕ → ℕ → Except PyError (List (ℕ × ℕ))
  | 0, _, _ => pure []
  | fuel + 1, cursor, remaining =>
    if remaining = 0 then pure []
    else do
      let c ← m.find cursor
      let take := min remaining (c.stop - cursor)
      let here ← m.mirrors c cursor take
      let rest ← rangesFrom fuel (cursor + take) (remaining - take)
      return here ++ rest

/-- `_Mapper.physical_ranges` -/
def physicalRanges (logical length : ℕ) : Except PyError (List (ℕ × ℕ)) :=
  m.rangesFrom length logical length

end Mapper

/-! ### What a translation is -/

section Ranges

variable {m : Mapper} {ranges : List (ℕ × ℕ)}

theorem Mapper.find_eq_ok {address : ℕ} {c : Chunk} (h : m.find address = .ok c) :
    c ∈ m.chunks ∧ c.logical ≤ address ∧ address < c.stop := by
  unfold Mapper.find at h
  split at h
  · cases h
  rename_i d hlast
  split at h
  · cases h
  rename_i hstop
  cases h
  have hmem := mem_filter.1 (mem_of_getLast? hlast)
  exact ⟨hmem.1, of_decide_eq_true hmem.2, not_le.1 hstop⟩

/-- In a chunk of the map every stripe on the device holds a copy. -/
theorem Mapper.mirrors_eq {c : Chunk} (hc : c ∈ m.chunks) {cursor take : ℕ}
    (hlow : c.logical ≤ cursor) (hstop : cursor + take ≤ c.stop) :
    m.mirrors c cursor take = .ok ((c.localStripes m.devid).map fun offset ↦
      (offset + (cursor - c.logical), offset + (cursor - c.logical) + take)) := by
  have hall : (c.localStripes m.devid).mapM (fun offset ↦
      if m.deviceSize < offset + (cursor - c.logical) + take then
        throw (.engine "Btrfs physical extent points outside the device" [])
      else (pure (offset + (cursor - c.logical), offset + (cursor - c.logical) + take) :
        Except PyError (ℕ × ℕ))) = .ok ((c.localStripes m.devid).map fun offset ↦
          (offset + (cursor - c.logical), offset + (cursor - c.logical) + take)) := by
    refine mapM_eq_ok.2 (forall₂_map_right_iff.2 (forall₂_same.2 fun offset hoffset ↦ ?_))
    have hinside := m.valid.inside c hc offset hoffset
    unfold Chunk.stop at hstop
    rw [if_neg (by omega)]
    rfl
  have hne : ¬((c.localStripes m.devid).map fun offset ↦
      (offset + (cursor - c.logical), offset + (cursor - c.logical) + take)) = [] :=
    fun h ↦ m.valid.onDevice c hc (map_eq_nil_iff.1 h)
  unfold Mapper.mirrors
  rw [hall, ok_bind, raiseIf_bind_of_not hne]
  rfl

/-- The ranges of a translation are not empty, and there is one if a byte was asked for. -/
theorem Mapper.rangesFrom_eq_ok {fuel cursor remaining : ℕ}
    (h : m.rangesFrom fuel cursor remaining = .ok ranges) :
    (∀ r ∈ ranges, r.1 < r.2) ∧ (0 < fuel → 0 < remaining → ranges ≠ []) := by
  induction fuel generalizing cursor remaining ranges with
  | zero =>
    cases h
    exact ⟨nofun, nofun⟩
  | succ fuel ih =>
    rw [Mapper.rangesFrom] at h
    split at h
    · cases h
      exact ⟨nofun, fun _ hpos ↦ by omega⟩
    rename_i hpos
    obtain ⟨c, hfind, h⟩ := bind_eq_ok.1 h
    obtain ⟨hc, hlow, hstop⟩ := Mapper.find_eq_ok hfind
    have htake : 0 < min remaining (c.stop - cursor) := by omega
    have hfits : cursor + min remaining (c.stop - cursor) ≤ c.stop := by omega
    dsimp only at h
    rw [Mapper.mirrors_eq hc hlow hfits, ok_bind] at h
    obtain ⟨rest, hrest, h⟩ := bind_eq_ok.1 h
    cases h
    refine ⟨fun r hr ↦ ?_, fun _ _ hnil ↦ ?_⟩
    · rcases mem_append.1 hr with hr | hr
      · obtain ⟨offset, -, rfl⟩ := mem_map.1 hr
        exact Nat.lt_add_of_pos_right htake
      · exact (ih hrest).1 r hr
    · exact m.valid.onDevice c hc (map_eq_nil_iff.1 (append_eq_nil_iff.1 hnil).1)

/-- A translation fails only with the analyser's own exception. -/
theorem Mapper.rangesFrom_eq_error {fuel cursor remaining : ℕ} {e : PyError}
    (h : m.rangesFrom fuel cursor remaining = .error e) :
    ∃ message args, e = .engine message args := by
  induction fuel generalizing cursor remaining with
  | zero => cases h
  | succ fuel ih =>
    rw [Mapper.rangesFrom] at h
    split at h
    · cases h
    cases hfind : m.find cursor with
    | error e' =>
      rw [hfind] at h
      cases h
      unfold Mapper.find at hfind
      split at hfind
      · cases hfind
        exact ⟨_, _, rfl⟩
      · split at hfind
        · cases hfind
          exact ⟨_, _, rfl⟩
        · cases hfind
    | ok c =>
      obtain ⟨hc, hlow, hstop⟩ := Mapper.find_eq_ok hfind
      have hfits : cursor + min remaining (c.stop - cursor) ≤ c.stop := by omega
      rw [hfind, ok_bind] at h
      dsimp only at h
      rw [Mapper.mirrors_eq hc hlow hfits, ok_bind] at h
      cases hrest : m.rangesFrom fuel (cursor + min remaining (c.stop - cursor))
        (remaining - min remaining (c.stop - cursor)) with
      | error e' =>
        rw [hrest] at h
        cases h
        exact ih hrest
      | ok rest =>
        rw [hrest] at h
        cases h

end Ranges

end LinuxDefragger.Btrfs
