import LinuxDefragger.Python
import LinuxDefragger.Storage.Bits
import LinuxDefragger.Storage.Tally
import Mathlib.Data.Nat.Size

/-!
# Cells of an allocation map

The map of a volume is drawn as cells, each with the number of its units in every state. The
analysers aggregate a stream of states, a set of ranges or a bit map into cells with three different
sweeps.

`mapOf f` is what all of them are for: cell by cell, the tally of a function `f` from units to
states.
-/

open Function List Storage

namespace LinuxDefragger.Gui

/-! ### Results -/

/-- The states 0 to 3 of an allocation unit. -/
inductive UnitState
  | free
  | used
  | unknown
  | bad
  deriving DecidableEq, Repr

/-- The state a number stands for. -/
def UnitState.ofInt? : ℤ → Option UnitState
  | 0 => some .free
  | 1 => some .used
  | 2 => some .unknown
  | 3 => some .bad
  | _ => none

instance : Fintype UnitState where
  elems := {.free, .used, .unknown, .bad}
  complete s := by cases s <;> decide

/-- An exception of `ranges.py`. -/
inductive MapError
  | backend (message : String)
  | indexError
  deriving DecidableEq, Repr

/-- The four counters of a cell. -/
abbrev Counts := UnitState → ℕ

/-- `counts[state] += n` -/
def Counts.add (counts : Counts) (state : UnitState) (n : ℕ) : Counts :=
  Function.update counts state (counts state + n)

/-- A cell of the map. -/
structure Cell where
  start : ℕ
  /-- The last unit: the key `"end"`. -/
  last : ℕ
  free : ℕ
  used : ℕ
  unknown : ℕ
  bad : ℕ
  fragmented : ℕ
  directory : ℕ
  deriving DecidableEq, Repr

/-- The dictionary that is appended for the cell `[start, end_exclusive)`. -/
def newCell (start endExclusive : ℕ) (counts : Counts) : Cell where
  start
  last := endExclusive - 1
  free := counts .free
  used := counts .used
  unknown := counts .unknown
  bad := counts .bad
  fragmented := 0
  directory := 0

/-- The result of an aggregation, without the keys that are constants or passed through. -/
structure MapResult where
  filesystem : String
  accuracy : String
  unitSize : ℕ
  totalUnits : ℕ
  cellCount : ℕ
  totalBytes : ℕ
  freeBytes : ℕ
  usedBytes : ℕ
  unknownBytes : ℕ
  cells : List Cell
  deriving DecidableEq, Repr

/-- `_new_map_result` -/
def newMapResult (filesystem accuracy : String) (unitSize totalUnits : ℕ) (cells : List Cell)
    (totals : Counts) : MapResult where
  filesystem
  accuracy
  unitSize
  totalUnits
  cellCount := cells.length
  totalBytes := totalUnits * unitSize
  freeBytes := totals .free * unitSize
  usedBytes := totals .used * unitSize
  unknownBytes := (totals .unknown + totals .bad) * unitSize
  cells

/-- `_cell_bounds` -/
def cellBounds (totalUnits cellCount : ℕ) : List (ℕ × ℕ) :=
  (List.range cellCount).map fun index ↦
    let start := index * totalUnits / cellCount
    let endExclusive := (index + 1) * totalUnits / cellCount
    (start, max (start + 1) endExclusive)

/-- `max(1, min(cell_count, max(1, total_units)))` -/
def clampCellCount (cellCount : ℤ) (totalUnits : ℕ) : ℕ :=
  (max 1 (min cellCount (max 1 (totalUnits : ℤ)))).toNat

/-! ### The three aggregations -/

/-- The inner loop of `aggregate_states` over the next `n` units. -/
def takeStates : ℕ → List ℤ → Counts → List ℤ × Counts
  | 0, values, counts => (values, counts)
  -- the iterator is exhausted
  | n + 1, [], counts => takeStates n [] (counts.add .unknown 1)
  | n + 1, state :: values, counts =>
    takeStates n values (counts.add ((UnitState.ofInt? state).getD .unknown) 1)

/-- The variables of `aggregate_states` outside its inner loop. -/
structure StreamState where
  consumed : ℕ
  values : List ℤ
  totals : Counts
  cells : List Cell

/-- One cell of `aggregate_states`. -/
def StreamState.step (st : StreamState) (bounds : ℕ × ℕ) : StreamState :=
  let (values, counts) := takeStates (bounds.2 - st.consumed) st.values fun _ ↦ 0
  { consumed := max st.consumed bounds.2
    values
    totals := st.totals + counts
    cells := st.cells ++ [newCell bounds.1 bounds.2 counts] }

/-- `aggregate_states` -/
def aggregateStates (states : List ℤ) (totalUnits : ℕ) (cellCount : ℤ) (unitSize : ℕ)
    (filesystem accuracy : String) : MapResult :=
  let st := (cellBounds totalUnits (clampCellCount cellCount totalUnits)).foldl StreamState.step
    ⟨0, states, 0, []⟩
  newMapResult filesystem accuracy unitSize totalUnits st.cells st.totals

/-- A range `(start, end, state)` as a caller passes it. -/
structure StateRange where
  start : ℤ
  stop : ℤ
  state : ℤ
  deriving DecidableEq, Repr

/-- A normalised range. -/
structure Span where
  start : ℕ
  stop : ℕ
  state : UnitState
  deriving DecidableEq, Repr

/-- The order of the key `(item[0], item[1], item[2])`. -/
def rangeLe (a b : StateRange) : Bool :=
  a.start < b.start ∨ a.start = b.start ∧
    (a.stop < b.stop ∨ a.stop = b.stop ∧ a.state ≤ b.state)

/-- `max(0, min(total_units, int(x)))` -/
def clampUnit (totalUnits : ℕ) (x : ℤ) : ℕ := (max 0 (min (totalUnits : ℤ) x)).toNat

/-- One round of `_normalise_state_ranges`; the list of normalised ranges has the last one first. -/
def normaliseStep (totalUnits : ℕ) (normalised : List Span) (r : StateRange) :
    Except MapError (List Span) :=
  let start := clampUnit totalUnits r.start
  let stop := clampUnit totalUnits r.stop
  if stop ≤ start then pure normalised
  else match UnitState.ofInt? r.state with
    | none => throw (.backend s!"invalid allocation state {r.state}")
    | some state =>
      match normalised with
      | [] => pure [⟨start, stop, state⟩]
      | previous :: rest =>
        if start < previous.stop then throw (.backend "overlapping allocation-state ranges")
        else if start = previous.stop ∧ state = previous.state then
          pure (⟨previous.start, stop, state⟩ :: rest)
        else pure (⟨start, stop, state⟩ :: previous :: rest)

/-- `_normalise_state_ranges` -/
def normaliseStateRanges (ranges : List StateRange) (totalUnits : ℕ) :
    Except MapError (List Span) := do
  let normalised ← (ranges.insertionSort (rangeLe · ·)).foldlM (normaliseStep totalUnits) []
  return normalised.reverse

/-- The inner loop of `aggregate_ranges` over the ranges from `check` on: `cursor` and `counts` at
its end. -/
def sweepSpans (start endExclusive : ℕ) : List Span → ℕ → Counts → ℕ × Counts
  | [], cursor, counts => (cursor, counts)
  | span :: rest, cursor, counts =>
    if span.start < endExclusive then
      let overlapStart := max start span.start
      let overlapEnd := min endExclusive span.stop
      let counts :=
        if overlapStart > cursor then counts.add .unknown (overlapStart - cursor) else counts
      let (cursor, counts) :=
        if overlapEnd > overlapStart then
          (max cursor overlapEnd, counts.add span.state (overlapEnd - overlapStart))
        else (cursor, counts)
      if span.stop > endExclusive then (cursor, counts)
      else sweepSpans start endExclusive rest cursor counts
    else (cursor, counts)

/-- The variables of `aggregate_ranges`; `rest` are the ranges from `range_index` on. -/
structure SweepState where
  rest : List Span
  totals : Counts
  cells : List Cell

/-- One cell of `aggregate_ranges`. -/
def SweepState.step (st : SweepState) (bounds : ℕ × ℕ) : SweepState :=
  let rest := st.rest.dropWhile fun span ↦ span.stop ≤ bounds.1
  let (cursor, counts) := sweepSpans bounds.1 bounds.2 rest bounds.1 fun _ ↦ 0
  let counts := if cursor < bounds.2 then counts.add .unknown (bounds.2 - cursor) else counts
  { rest
    totals := st.totals + counts
    cells := st.cells ++ [newCell bounds.1 bounds.2 counts] }

/-- `aggregate_ranges` -/
def aggregateRanges (totalUnits : ℕ) (cellCount : ℤ) (unitSize : ℕ) (filesystem : String)
    (ranges : List StateRange) (accuracy : String) : Except MapError MapResult := do
  let ordered ← normaliseStateRanges ranges totalUnits
  let st := (cellBounds totalUnits (clampCellCount cellCount totalUnits)).foldl SweepState.step
    ⟨ordered, 0, []⟩
  return newMapResult filesystem accuracy unitSize totalUnits st.cells st.totals

/-- `int.bit_count()` -/
def bitCount (n : ℕ) : ℕ := (List.range n.size).countP n.testBit

/-- `bitmap[k]` -/
def byteAt (bitmap : List UInt8) (k : ℕ) : Except MapError ℕ :=
  match bitmap[k]? with
  | some b => pure b.toNat
  | none => throw .indexError

/-- The first byte of `count_set_bits`, if the interval starts inside it: its bits, and the next
value of `first_byte`. -/
def headBits (bitmap : List UInt8) (startBit : ℕ) : Except MapError (ℕ × ℕ) :=
  if startBit &&& 7 ≠ 0 then do
    let mask := 0xFF <<< (startBit &&& 7)
    return (bitCount ((← byteAt bitmap (startBit >>> 3)) &&& mask), startBit >>> 3 + 1)
  else pure (0, startBit >>> 3)

/-- The last byte of `count_set_bits`, if the interval ends inside it. -/
def tailBits (bitmap : List UInt8) (endBit : ℕ) : Except MapError ℕ :=
  if endBit &&& 7 ≠ 0 then do
    let mask := 1 <<< (endBit &&& 7) - 1
    return bitCount ((← byteAt bitmap ((endBit - 1) >>> 3)) &&& mask)
  else pure 0

/-- `count_set_bits` -/
def countSetBits (bitmap : List UInt8) (startBit endBit : ℕ) : Except MapError ℕ :=
  if endBit ≤ startBit then pure 0
  else if startBit >>> 3 = (endBit - 1) >>> 3 then do
    let mask := (1 <<< (endBit - startBit) - 1) <<< (startBit &&& 7)
    return bitCount ((← byteAt bitmap (startBit >>> 3)) &&& mask)
  else do
    let (count, firstByte) ← headBits bitmap startBit
    let fullEnd := endBit >>> 3
    let middle :=
      if fullEnd > firstByte then
        bitCount (leNat ((bitmap.drop firstByte).take (fullEnd - firstByte)))
      else 0
    let tail ← tailBits bitmap endBit
    return count + middle + tail

/-- The value `used` of a cell of `aggregate_bitmap`. -/
def cellUsed (bitmap : List UInt8) (reservedPrefix start endExclusive : ℕ) : Except MapError ℕ :=
  let dataStart := max start reservedPrefix
  if endExclusive - dataStart ≠ 0 then
    countSetBits bitmap (dataStart - reservedPrefix) (endExclusive - reservedPrefix)
  else pure 0

/-- The counters of a cell of `aggregate_bitmap`. -/
def cellCounts (reservedPrefix start endExclusive used : ℕ) : Counts
  | .free => endExclusive - max start reservedPrefix - used
  | .used => used
  | .unknown => min endExclusive reservedPrefix - start
  | .bad => 0

/-- The variables of `aggregate_bitmap`. -/
structure BitmapState where
  totals : Counts
  cells : List Cell

/-- One cell of `aggregate_bitmap`. -/
def BitmapState.step (bitmap : List UInt8) (reservedPrefix : ℕ) (st : BitmapState)
    (bounds : ℕ × ℕ) : Except MapError BitmapState := do
  let used ← cellUsed bitmap reservedPrefix bounds.1 bounds.2
  let counts := cellCounts reservedPrefix bounds.1 bounds.2 used
  return { totals := st.totals + counts, cells := st.cells ++ [newCell bounds.1 bounds.2 counts] }

/-- `aggregate_bitmap` -/
def aggregateBitmap (bitmap : List UInt8) (totalUnits : ℕ) (cellCount : ℤ) (unitSize : ℕ)
    (filesystem : String) (reservedPrefix : ℕ) : Except MapError MapResult :=
  if bitmap.length * 8 < totalUnits - reservedPrefix then
    throw (.backend "allocation bitmap is shorter than the filesystem")
  else do
    let st ← (cellBounds totalUnits (clampCellCount cellCount totalUnits)).foldlM
      (BitmapState.step bitmap reservedPrefix) ⟨0, []⟩
    return newMapResult filesystem "exact" unitSize totalUnits st.cells st.totals

/-! ### The map of a function -/

/-- The cell `[p.1, p.2)` of a map of `f`. -/
def cellOf (f : ℕ → UnitState) (p : ℕ × ℕ) : Cell := newCell p.1 p.2 (tally f p.1 p.2)

/-- The map of a function from units to states. -/
def mapOf (f : ℕ → UnitState) (totalUnits : ℕ) (cellCount : ℤ) (unitSize : ℕ)
    (filesystem accuracy : String) : MapResult :=
  newMapResult filesystem accuracy unitSize totalUnits
    ((cellBounds totalUnits (clampCellCount cellCount totalUnits)).map (cellOf f))
    (tally f 0 totalUnits)

theorem clampCellCount_le {totalUnits : ℕ} (h : 0 < totalUnits) (cellCount : ℤ) :
    0 < clampCellCount cellCount totalUnits ∧ clampCellCount cellCount totalUnits ≤ totalUnits := by
  rw [clampCellCount]
  omega

/-- **The cells tile the volume** if there are not more of them than units. -/
theorem tiles_cellBounds {totalUnits cellCount : ℕ} (hpos : 0 < cellCount)
    (hle : cellCount ≤ totalUnits) : Tiles 0 (cellBounds totalUnits cellCount) totalUnits := by
  have hbounds : cellBounds totalUnits cellCount =
      (range cellCount).map fun i ↦
        (i * totalUnits / cellCount, (i + 1) * totalUnits / cellCount) :=
    map_congr_left fun i _ ↦ Prod.ext rfl (max_eq_right (proportional_lt hpos hle i))
  rw [hbounds]
  exact tiles_proportional hpos hle

theorem tiles_bounds {totalUnits : ℕ} (h : 0 < totalUnits) (cellCount : ℤ) :
    Tiles 0 (cellBounds totalUnits (clampCellCount cellCount totalUnits)) totalUnits :=
  tiles_cellBounds (clampCellCount_le h cellCount).1 (clampCellCount_le h cellCount).2

/-! ### The stream -/

/-- The states a stream gives to the units: unknown where it ends or makes no sense. -/
def streamState (states : List ℤ) (u : ℕ) : UnitState :=
  (states[u]?.bind UnitState.ofInt?).getD .unknown

theorem Counts.add_apply (counts : Counts) (s : UnitState) (n : ℕ) (k : UnitState) :
    counts.add s n k = counts k + if s = k then n else 0 := by
  rw [Counts.add]
  split_ifs with h
  · rw [h, update_self]
  · rw [update_of_ne (Ne.symm h), Nat.add_zero]

theorem takeStates_eq (states : List ℤ) (n a : ℕ) (counts : Counts) :
    takeStates n (states.drop a) counts =
      (states.drop (a + n), counts + tally (streamState states) a (a + n)) := by
  induction n generalizing a counts with
  | zero =>
    refine Prod.ext rfl (funext fun k ↦ ?_)
    exact (congrArg (counts k + ·) (tally_of_le le_rfl)).symm
  | succ n ih =>
    -- the state of unit `a` is counted first
    have hone : ∀ s, streamState states a = s → counts.add s 1 + tally (streamState states) (a + 1)
        (a + 1 + n) = counts + tally (streamState states) a (a + (n + 1)) := by
      intro s hs
      funext k
      have hunit : ∀ u, a ≤ u → u < a + 1 → streamState states u = s := by
        intro u hle hlt
        rw [← hs, Nat.le_antisymm (Nat.le_of_lt_succ hlt) hle]
      have hsplit := @tally_append _ _ (streamState states) a (a + 1) (a + 1 + n) k (Nat.le_succ a)
        (Nat.le_add_right _ _)
      show counts.add s 1 k + _ = counts k + _
      rw [Counts.add_apply, show a + (n + 1) = a + 1 + n by omega, hsplit, tally_const hunit,
        Nat.add_sub_cancel_left, Nat.add_assoc]
    rcases hdrop : states.drop a with _ | ⟨v, values⟩
    · have hnone : states[a]? = none := getElem?_eq_none (drop_eq_nil_iff.1 hdrop)
      have hnil : states.drop (a + 1) = [] := drop_eq_nil_of_le
        (Nat.le_succ_of_le (drop_eq_nil_iff.1 hdrop))
      rw [takeStates, ← hnil, ih, hone .unknown (by simp [streamState, hnone]),
        show a + 1 + n = a + (n + 1) by omega]
    · have hlt : a < states.length := by
        by_contra hge
        rw [drop_eq_nil_of_le (not_lt.1 hge)] at hdrop
        cases hdrop
      rw [drop_eq_getElem_cons hlt, List.cons.injEq] at hdrop
      obtain ⟨rfl, rfl⟩ := hdrop
      rw [takeStates, ih, hone _ (by simp [streamState, hlt]),
        show a + 1 + n = a + (n + 1) by omega]

theorem foldl_streamStep (states : List ℤ) {a z : ℕ} {l : List (ℕ × ℕ)} (h : Tiles a l z)
    (totals : Counts) (cells : List Cell) :
    l.foldl StreamState.step ⟨a, states.drop a, totals, cells⟩ =
      ⟨z, states.drop z, totals + tally (streamState states) a z,
        cells ++ l.map (cellOf (streamState states))⟩ := by
  induction h generalizing totals cells with
  | nil a =>
    have hzero : tally (streamState states) a a = 0 := funext fun k ↦ tally_of_le le_rfl
    rw [foldl_nil, map_nil, append_nil, hzero, add_zero]
  | @cons a b z l hab hl ih =>
    have hstep : StreamState.step ⟨a, states.drop a, totals, cells⟩ (a, b) =
        ⟨b, states.drop b, totals + tally (streamState states) a b,
          cells ++ [cellOf (streamState states) (a, b)]⟩ := by
      have htake := takeStates_eq states (b - a) a 0
      rw [Nat.add_sub_cancel' hab.le, zero_add] at htake
      show (let (values, counts) := takeStates (b - a) (states.drop a) 0
        (⟨max a b, values, totals + counts, cells ++ [newCell a b counts]⟩ : StreamState)) = _
      rw [htake, max_eq_right hab.le]
      rfl
    have hsum : tally (streamState states) a z =
        tally (streamState states) a b + tally (streamState states) b z :=
      funext fun k ↦ tally_append hab.le hl.le
    rw [foldl_cons, hstep, ih, hsum, map_cons, append_assoc, add_assoc]
    rfl

/-- **`aggregate_states` draws the map of its stream.** -/
theorem aggregateStates_eq {totalUnits : ℕ} (h : 0 < totalUnits) (states : List ℤ) (cellCount : ℤ)
    (unitSize : ℕ) (filesystem accuracy : String) :
    aggregateStates states totalUnits cellCount unitSize filesystem accuracy =
      mapOf (streamState states) totalUnits cellCount unitSize filesystem accuracy := by
  have hfold := foldl_streamStep states (tiles_bounds h cellCount) 0 []
  rw [drop_zero, zero_add, nil_append] at hfold
  rw [aggregateStates, hfold]
  rfl

/-! ### The bit map -/

theorem bitCount_eq {n w : ℕ} (h : n < 2 ^ w) : bitCount n = tally n.testBit 0 w true := by
  have hle : n.size ≤ w := Nat.size_le.2 h
  have htop : ∀ u, n.size ≤ u → u < w → n.testBit u = false := fun u hu _ ↦
    Nat.testBit_lt_two_pow
      (lt_of_lt_of_le (Nat.lt_size_self n) (Nat.pow_le_pow_right (by decide) hu))
  rw [tally_append (Nat.zero_le _) hle, tally_const htop, if_neg Bool.false_ne_true, Nat.add_zero,
    tally, Nat.sub_zero, ← range_eq_range', bitCount]
  refine countP_congr fun u _ ↦ ?_
  rw [decide_eq_true_iff]

/-- A masked function counts only under the mask. -/
theorem tally_mask {f : ℕ → Bool} {a b w : ℕ} (hab : a ≤ b) (hbw : b ≤ w) :
    tally (fun u ↦ f u && (decide (a ≤ u) && decide (u < b))) 0 w true = tally f a b true := by
  have hlow : ∀ u, 0 ≤ u → u < a → (f u && (decide (a ≤ u) && decide (u < b))) = false := by
    intro u _ hu
    simp [not_le.2 hu]
  have hmid : ∀ u, a ≤ u → u < b → (f u && (decide (a ≤ u) && decide (u < b))) = f u := by
    intro u hle hlt
    simp [hle, hlt]
  have hhigh : ∀ u, b ≤ u → u < w → (f u && (decide (a ≤ u) && decide (u < b))) = false := by
    intro u hle _
    simp [not_lt.2 hle]
  rw [tally_append (Nat.zero_le a) (hab.trans hbw), tally_append hab hbw, tally_const hlow,
    tally_congr hmid, tally_const hhigh]
  simp

theorem byteAt_eq {bitmap : List UInt8} {k : ℕ} (h : k < bitmap.length) :
    ∃ n, byteAt bitmap k = .ok n ∧ n < 2 ^ 8 ∧ ∀ i < 8, n.testBit i = bitAt bitmap (i + 8 * k) := by
  refine ⟨(bitmap[k]).toNat, ?_, (bitmap[k]).toNat_lt, fun i hi ↦ ?_⟩
  · rw [byteAt, getElem?_eq_getElem h]
    rfl
  · rw [bitAt, show (i + 8 * k) / 8 = k by omega, show (i + 8 * k) % 8 = i by omega,
      getD_eq_getElem _ _ h]
    rfl

/-- The set bits of a byte under a mask. -/
theorem bitCount_masked {bitmap : List UInt8} {n k mask lo hi : ℕ} (hn : n < 2 ^ 8)
    (hbits : ∀ i < 8, n.testBit i = bitAt bitmap (i + 8 * k)) (hlo : lo ≤ hi) (hhi : hi ≤ 8)
    (hmask : ∀ i < 8, mask.testBit i = (decide (lo ≤ i) && decide (i < hi))) :
    bitCount (n &&& mask) = tally (bitAt bitmap) (lo + 8 * k) (hi + 8 * k) true := by
  rw [bitCount_eq (lt_of_le_of_lt Nat.and_le_left hn), ← tally_shift, ← tally_mask hlo hhi]
  refine tally_congr fun i _ hi ↦ ?_
  rw [Nat.testBit_and, hbits i hi, hmask i hi]

/-- The bits of a byte string are those of the number it encodes. -/
theorem testBit_leNat (data : List UInt8) (i : ℕ) : (leNat data).testBit i = bitAt data i := by
  induction data generalizing i with
  | nil => simp [leNat, bitAt, byteBit_zero]
  | cons b rest ih =>
    have hsplit := Nat.testBit_two_pow_mul_add (leNat rest) b.toNat_lt i
    rw [show (2 : ℕ) ^ 8 = 256 from rfl, Nat.add_comm] at hsplit
    rw [leNat, hsplit]
    split_ifs with hi
    · rw [bitAt, Nat.div_eq_of_lt hi, Nat.mod_eq_of_lt hi]
      rfl
    · obtain ⟨j, rfl⟩ : ∃ j, i = j + 8 := ⟨i - 8, by omega⟩
      rw [Nat.add_sub_cancel, ih, bitAt, bitAt, Nat.add_div_right _ (by decide), Nat.add_mod_right]
      rfl

theorem bitAt_slice {bitmap : List UInt8} {a m i : ℕ} (hi : i < 8 * m) :
    bitAt ((bitmap.drop a).take m) i = bitAt bitmap (i + 8 * a) := by
  rw [bitAt, bitAt, getD_eq_getElem?_getD, getD_eq_getElem?_getD,
    getElem?_take_of_lt (by omega), getElem?_drop, show (i + 8 * a) / 8 = a + i / 8 by omega,
    show (i + 8 * a) % 8 = i % 8 by omega]

/-- The set bits of whole bytes. -/
theorem bitCount_slice {bitmap : List UInt8} {a b : ℕ} (hab : a ≤ b) (hb : b ≤ bitmap.length) :
    bitCount (leNat ((bitmap.drop a).take (b - a))) = tally (bitAt bitmap) (8 * a)
      (8 * b) true := by
  have hlen : ((bitmap.drop a).take (b - a)).length = b - a := by
    rw [length_take, length_drop]
    omega
  have hlt := leNat_lt ((bitmap.drop a).take (b - a))
  rw [hlen, show (256 : ℕ) = 2 ^ 8 from rfl, ← pow_mul] at hlt
  have hshift := @tally_shift _ _ (bitAt bitmap) 0 (8 * (b - a)) true (8 * a)
  rw [Nat.zero_add, show 8 * (b - a) + 8 * a = 8 * b by omega] at hshift
  rw [bitCount_eq hlt, ← hshift]
  refine tally_congr fun i _ hi ↦ ?_
  rw [testBit_leNat, bitAt_slice hi]

theorem testBit_lowMask (len lo i : ℕ) :
    ((1 <<< len - 1) <<< lo).testBit i = (decide (lo ≤ i) && decide (i < lo + len)) := by
  rw [Nat.testBit_shiftLeft, Nat.one_shiftLeft, Nat.testBit_two_pow_sub_one]
  by_cases h : lo ≤ i
  · simp [h]
    omega
  · simp [h]

theorem shiftRight_three (n : ℕ) : n >>> 3 = n / 8 := Nat.shiftRight_eq_div_pow n 3

theorem and_seven (n : ℕ) : n &&& 7 = n % 8 := Nat.and_two_pow_sub_one_eq_mod n 3

theorem headBits_eq {bitmap : List UInt8} {a : ℕ} (ha : a < 8 * bitmap.length) :
    headBits bitmap a = .ok (tally (bitAt bitmap) a (8 * ((a + 7) / 8)) true, (a + 7) / 8) := by
  rw [headBits, and_seven, shiftRight_three]
  split_ifs with hfirst
  · obtain ⟨n, hn, hlt, hbits⟩ := @byteAt_eq bitmap (a / 8) (by omega)
    have hmask :
        ∀ i < 8, (0xFF <<< (a % 8)).testBit i = (decide (a % 8 ≤ i) && decide (i < 8)) := by
      intro i hi
      have h := testBit_lowMask 8 (a % 8) i
      rw [show (1 <<< 8 - 1 : ℕ) = 0xFF from rfl] at h
      rw [h, decide_eq_true hi, decide_eq_true (by omega : i < a % 8 + 8)]
    rw [hn, ok_bind, bitCount_masked hlt hbits (by omega) le_rfl hmask,
      show a % 8 + 8 * (a / 8) = a by omega, show 8 + 8 * (a / 8) = 8 * ((a + 7) / 8) by omega,
      show a / 8 + 1 = (a + 7) / 8 by omega]
    rfl
  · rw [show a / 8 = (a + 7) / 8 by omega, tally_of_le (by omega)]
    rfl

theorem tailBits_eq {bitmap : List UInt8} {b : ℕ} (hb : b ≤ 8 * bitmap.length) :
    tailBits bitmap b = .ok (tally (bitAt bitmap) (8 * (b / 8)) b true) := by
  rw [tailBits, and_seven, shiftRight_three]
  split_ifs with hlast
  · obtain ⟨n, hn, hlt, hbits⟩ := @byteAt_eq bitmap ((b - 1) / 8) (by omega)
    have hmask :
        ∀ i < 8, (1 <<< (b % 8) - 1).testBit i = (decide (0 ≤ i) && decide (i < b % 8)) := by
      intro i _
      have h := testBit_lowMask (b % 8) 0 i
      rwa [Nat.shiftLeft_zero, Nat.zero_add] at h
    rw [hn, ok_bind, bitCount_masked hlt hbits (Nat.zero_le _) (by omega) hmask,
      show 0 + 8 * ((b - 1) / 8) = 8 * (b / 8) by omega, show b % 8 + 8 * ((b - 1) / 8) =
        b by omega]
    rfl
  · rw [tally_of_le (by omega)]
    rfl

/-- **`count_set_bits` counts the bits of its interval**, if the interval lies inside the bit
map. -/
theorem countSetBits_eq {bitmap : List UInt8} {a b : ℕ} (hb : b ≤ 8 * bitmap.length) :
    countSetBits bitmap a b = .ok (tally (bitAt bitmap) a b true) := by
  rw [countSetBits, shiftRight_three, shiftRight_three, shiftRight_three, and_seven]
  rcases le_or_gt b a with hle | hlt
  · rw [if_pos hle, tally_of_le hle]
    rfl
  rw [if_neg (not_le.2 hlt)]
  rcases eq_or_ne (a / 8) ((b - 1) / 8) with hsame | hdiff
  · -- the interval lies inside one byte
    obtain ⟨n, hn, hlt, hbits⟩ := @byteAt_eq bitmap (a / 8) (by omega)
    rw [if_pos hsame, hn, ok_bind, bitCount_masked hlt hbits (by omega) (by omega)
      fun i _ ↦ testBit_lowMask (b - a) (a % 8) i, show a % 8 + 8 * (a / 8) = a by omega,
      show a % 8 + (b - a) + 8 * (a / 8) = b by omega]
    rfl
  · have hmiddle : (if b / 8 > (a + 7) / 8 then
        bitCount (leNat ((bitmap.drop ((a + 7) / 8)).take (b / 8 - (a + 7) / 8))) else 0) =
        tally (bitAt bitmap) (8 * ((a + 7) / 8)) (8 * (b / 8)) true := by
      split_ifs with hfull
      · exact bitCount_slice hfull.le (by omega)
      · rw [tally_of_le (by omega)]
    have hsplit :=
      @tally_append _ _ (bitAt bitmap) a (8 * ((a + 7) / 8)) b true (by omega) (by omega)
    have hsplit' := @tally_append _ _ (bitAt bitmap) (8 * ((a + 7) / 8)) (8 * (b / 8)) b true
      (by omega) (by omega)
    rw [if_neg hdiff, headBits_eq (by omega), ok_bind]
    dsimp only
    rw [hmiddle, tailBits_eq hb, ok_bind, hsplit, hsplit', Nat.add_assoc]
    rfl

/-- The state of a unit with the given bit. -/
def bitState (bit : Bool) : UnitState := if bit then .used else .free

/-- The states a bit map gives to the units behind a reserved prefix. -/
def bitmapState (bitmap : List UInt8) (reservedPrefix u : ℕ) : UnitState :=
  if u < reservedPrefix then .unknown else bitState (bitAt bitmap (u - reservedPrefix))

/-- A cell of a bit map has a part before the end of the prefix and a part behind it. -/
theorem tally_bitmapState (bitmap : List UInt8) (reserved : ℕ) {a b : ℕ} (hab : a ≤ b)
    (k : UnitState) : tally (bitmapState bitmap reserved) a b k =
      (if UnitState.unknown = k then min b reserved - a else 0) +
        tally (bitState ∘ bitAt bitmap) (max a reserved - reserved) (b - reserved) k := by
  have hlow : ∀ u, a ≤ u → u < max a (min b reserved) → bitmapState bitmap reserved u = .unknown :=
    fun u hle hlt ↦ if_pos (by omega)
  have hhigh : ∀ u, max a (min b reserved) ≤ u → u < b →
      bitmapState bitmap reserved u = bitState (bitAt bitmap (u - reserved)) :=
    fun u hle hlt ↦ if_neg (by omega)
  rw [tally_append (le_max_left a (min b reserved)) (by omega), tally_const hlow, tally_congr hhigh]
  congr 1
  · split_ifs
    · omega
    · rfl
  · rcases le_or_gt b (max a reserved) with hle | hlt
    · rw [tally_of_le (by omega), tally_of_le (by omega)]
    · have hshift := @tally_shift _ _ (fun u ↦ bitState (bitAt bitmap (u - reserved)))
        (max a reserved - reserved) (b - reserved) k reserved
      rw [show max a reserved - reserved + reserved = max a (min b reserved) by omega,
        show b - reserved + reserved = b by omega] at hshift
      rw [← hshift]
      simp only [Nat.add_sub_cancel]
      rfl

theorem BitmapState.step_eq {bitmap : List UInt8} {reserved a b : ℕ} (hab : a < b)
    (hb : b - reserved ≤ 8 * bitmap.length) (st : BitmapState) :
    st.step bitmap reserved (a, b) = .ok ⟨st.totals + tally (bitmapState bitmap reserved) a b,
      st.cells ++ [cellOf (bitmapState bitmap reserved) (a, b)]⟩ := by
  have hused : cellUsed bitmap reserved a b =
      .ok (tally (bitAt bitmap) (max a reserved - reserved) (b - reserved) true) := by
    rw [cellUsed]
    split_ifs with hdata
    · exact countSetBits_eq hb
    · rw [tally_of_le (by omega)]
      rfl
  have hcounts : cellCounts reserved a b
      (tally (bitAt bitmap) (max a reserved - reserved) (b - reserved) true) =
      tally (bitmapState bitmap reserved) a b := by
    have hinj : ∀ v w, bitState w = bitState v → w = v := by decide
    have hnone : ∀ k, (∀ v, bitState v ≠ k) →
        tally (bitState ∘ bitAt bitmap) (max a reserved - reserved) (b - reserved) k = 0 :=
      fun k hk ↦ tally_eq_zero fun u _ _ ↦ hk _
    funext k
    rw [tally_bitmapState bitmap reserved hab.le]
    cases k with
    | free =>
      have hfree :=
        @tally_comp _ _ (max a reserved - reserved) (b - reserved) _ _ (bitAt bitmap) false
        bitState (hinj false)
      rw [tally_false, show b - reserved - (max a reserved - reserved) =
        b - max a reserved by omega]
        at hfree
      exact hfree.symm.trans (Nat.zero_add _).symm
    | used => exact (tally_comp bitState (hinj true)).symm.trans (Nat.zero_add _).symm
    | unknown =>
      rw [if_pos rfl, hnone .unknown (by decide)]
      rfl
    | bad =>
      rw [if_neg (by decide), hnone .bad (by decide)]
      rfl
  rw [BitmapState.step, hused, ok_bind, hcounts]
  rfl

theorem foldlM_bitmapStep {bitmap : List UInt8} {reserved a z : ℕ} {l : List (ℕ × ℕ)}
    (h : Tiles a l z) (hz : z - reserved ≤ 8 * bitmap.length) (totals : Counts)
    (cells : List Cell) :
    l.foldlM (BitmapState.step bitmap reserved) ⟨totals, cells⟩ =
      .ok ⟨totals + tally (bitmapState bitmap reserved) a z,
        cells ++ l.map (cellOf (bitmapState bitmap reserved))⟩ := by
  induction h generalizing totals cells with
  | nil a =>
    have hzero : tally (bitmapState bitmap reserved) a a = 0 := funext fun k ↦ tally_of_le le_rfl
    rw [foldlM_nil, map_nil, append_nil, hzero, add_zero]
    rfl
  | @cons a b z l hab hl ih =>
    have hle := hl.le
    have hsum : tally (bitmapState bitmap reserved) a z = tally (bitmapState bitmap reserved) a b +
        tally (bitmapState bitmap reserved) b z := funext fun k ↦ tally_append hab.le hle
    rw [foldlM_cons, BitmapState.step_eq hab (by omega), ok_bind, ih hz, hsum, map_cons,
      append_assoc, add_assoc]
    rfl

/-- **`aggregate_bitmap` draws the map of its bit map.** -/
theorem aggregateBitmap_eq {totalUnits reserved : ℕ} {bitmap : List UInt8} (h : 0 < totalUnits)
    (hbits : totalUnits - reserved ≤ 8 * bitmap.length) (cellCount : ℤ) (unitSize : ℕ)
    (filesystem : String) :
    aggregateBitmap bitmap totalUnits cellCount unitSize filesystem reserved =
      .ok (mapOf (bitmapState bitmap reserved) totalUnits cellCount unitSize filesystem
        "exact") := by
  rw [aggregateBitmap, if_neg (by omega), foldlM_bitmapStep (tiles_bounds h cellCount)
    hbits, ok_bind,
    zero_add, nil_append]
  rfl

end LinuxDefragger.Gui
