import LinuxDefragger.Gui.Ranges

/-!
# The live map

While an engine moves data, it reports every physical range that it has moved, and the window
updates the cells of the map in place: the source becomes free and the destination used. The cells
are found with a binary search, and the loop stops behind the range.

Both only skip cells that the range does not touch, so an update is a map over all cells
(`applyRange_eq`), and everything else is about one cell. The counts for directories and fragmented
files are only estimates; they are cut off at the number of used units.
-/

open List Storage

namespace LinuxDefragger.Gui

/-! ### The window -/

/-- `_first_overlapping_cell` from the bounds `low` and `high` on -/
def firstOverlappingCell (cells : List Cell) (unit low high : ℕ) : ℕ :=
  if _ : low < high then
    let middle := (low + high) / 2
    if cells[middle]?.any fun cell ↦ cell.last < unit then
      firstOverlappingCell cells unit (middle + 1) high
    else firstOverlappingCell cells unit low middle
  else low
termination_by high - low

/-- The integer nearest to `n / d`, the even one of two. -/
def roundHalfEven (n d : ℕ) : ℕ :=
  if 2 * (n % d) < d ∨ 2 * (n % d) = d ∧ n / d % 2 = 0 then n / d else n / d + 1

/-- `int(round(a / b))`: the quotient is a double, with 53 significant bits; it is below
`2 ^ 1024`. -/
def roundedQuotient (a b : ℕ) : ℕ :=
  let scale := 2 ^ (54 + b.size)
  let ulp := 2 ^ ((a * scale / b).size - 53)
  roundHalfEven (roundHalfEven (a * scale) (b * ulp) * ulp) scale

/-- The units of a cell in the range from `startUnit` to `endUnit`. -/
def Cell.overlap (cell : Cell) (startUnit endUnit : ℕ) : ℕ :=
  min endUnit (cell.last + 1) - max startUnit cell.start

/-- `apply_range` with `make_used`, on a cell with an overlap. -/
def Cell.take (cell : Cell) (moved : ℕ) : Cell :=
  { cell with free := cell.free - moved, used := cell.used + moved }

/-- `apply_range` without `make_used`. -/
def Cell.release (cell : Cell) (moved : ℕ) : Cell :=
  let oldUsed := max 1 cell.used
  let fragmented := roundedQuotient (moved * cell.fragmented) oldUsed
  let directory := roundedQuotient (moved * cell.directory) oldUsed
  { cell with
    used := cell.used - moved
    free := cell.free + moved
    fragmented := min (cell.fragmented - fragmented) (cell.used - moved)
    directory := min (cell.directory - directory) (cell.used - moved) }

/-- The body of the loop of `apply_range`. -/
def updateCell (startUnit endUnit : ℕ) (makeUsed : Bool) (cell : Cell) : Cell :=
  if cell.overlap startUnit endUnit > 0 then
    if makeUsed then cell.take (min (cell.overlap startUnit endUnit) cell.free)
    else cell.release (min (cell.overlap startUnit endUnit) cell.used)
  else cell

/-- The loop of `apply_range` over the cells from `index` on. -/
def updateCells (startUnit endUnit : ℕ) (makeUsed : Bool) : List Cell → List Cell
  | [] => []
  | cell :: cells =>
    if cell.start ≥ endUnit then cell :: cells
    else updateCell startUnit endUnit makeUsed cell :: updateCells startUnit endUnit makeUsed cells

/-- `apply_range` -/
def applyRange (unitSize : ℕ) (cells : List Cell) (startByte lengthByte : ℕ) (makeUsed : Bool) :
    List Cell :=
  if lengthByte = 0 then cells
  else
    let startUnit := startByte / unitSize
    let endUnit := (startByte + lengthByte + unitSize - 1) / unitSize
    let index := firstOverlappingCell cells startUnit 0 cells.length
    cells.take index ++ updateCells startUnit endUnit makeUsed (cells.drop index)

/-- A reported move, in bytes. -/
structure LiveRange where
  source : ℕ
  destination : ℕ
  length : ℕ

/-- The loop of `_handle_engine_stream_line` over the reported ranges; without a unit size the line
is ignored. -/
def applyLiveRanges (unitSize : ℕ) (cells : List Cell) (ranges : List LiveRange) : List Cell :=
  if unitSize = 0 then cells
  else ranges.foldl (fun cells r ↦
    applyRange unitSize (applyRange unitSize cells r.source r.length false) r.destination r.length
      true) cells

/-! ### The volume -/

/-- The counts of a cell are those of an allocation. -/
def Cell.Counts (alloc : ℕ → UnitState) (cell : Cell) : Prop :=
  cell.free = tally alloc cell.start (cell.last + 1) .free ∧
    cell.used = tally alloc cell.start (cell.last + 1) .used

/-- The allocation after a move. -/
def LiveRange.move (unitSize : ℕ) (alloc : ℕ → UnitState) (r : LiveRange) : ℕ → UnitState :=
  paint (paint alloc (r.source / unitSize) ((r.source + r.length) / unitSize) .free)
    (r.destination / unitSize) ((r.destination + r.length) / unitSize) .used

/-- A move of whole units that are used, to free ones. -/
structure LiveRange.Possible (unitSize : ℕ) (alloc : ℕ → UnitState) (r : LiveRange) : Prop where
  source_dvd : unitSize ∣ r.source
  destination_dvd : unitSize ∣ r.destination
  length_dvd : unitSize ∣ r.length
  used : ∀ u, r.source / unitSize ≤ u → u < (r.source + r.length) / unitSize → alloc u = .used
  free : ∀ u, r.destination / unitSize ≤ u → u < (r.destination + r.length) / unitSize →
    alloc u = .free

/-- Every move of the sequence is possible when its turn comes. -/
def PossibleMoves (unitSize : ℕ) : (ℕ → UnitState) → List LiveRange → Prop
  | _, [] => True
  | alloc, r :: ranges =>
    r.Possible unitSize alloc ∧ PossibleMoves unitSize (r.move unitSize alloc) ranges

/-- The units of a cell. -/
def Cell.bounds (cell : Cell) : ℕ × ℕ := (cell.start, cell.last + 1)

/-- What an update keeps of a cell. -/
structure Kept (cell cell' : Cell) : Prop where
  bounds : cell'.bounds = cell.bounds
  total : cell'.free + cell'.used + cell'.unknown + cell'.bad =
    cell.free + cell.used + cell.unknown + cell.bad
  fragmented : cell.fragmented ≤ cell.used → cell'.fragmented ≤ cell'.used
  directory : cell.directory ≤ cell.used → cell'.directory ≤ cell'.used

/-! ### One update -/

section Update

variable {startUnit endUnit : ℕ} {makeUsed : Bool} {alloc : ℕ → UnitState} {cell : Cell}
  {cells : List Cell}

theorem Kept.refl (cell : Cell) : Kept cell cell := ⟨rfl, rfl, id, id⟩

theorem Kept.trans {c c' c'' : Cell} (h : Kept c c') (h' : Kept c' c'') : Kept c c'' :=
  ⟨h'.bounds.trans h.bounds, h'.total.trans h.total, h'.fragmented ∘ h.fragmented,
    h'.directory ∘ h.directory⟩

theorem kept_take {moved : ℕ} (h : moved ≤ cell.free) : Kept cell (cell.take moved) := by
  refine ⟨rfl, ?_, fun hle ↦ Nat.le_add_right_of_le hle, fun hle ↦ Nat.le_add_right_of_le hle⟩
  simp only [Cell.take]
  omega

theorem kept_release {moved : ℕ} (h : moved ≤ cell.used) : Kept cell (cell.release moved) := by
  refine ⟨rfl, ?_, fun _ ↦ min_le_right _ _, fun _ ↦ min_le_right _ _⟩
  simp only [Cell.release]
  omega

theorem kept_updateCell : Kept cell (updateCell startUnit endUnit makeUsed cell) := by
  unfold updateCell
  split_ifs
  · exact kept_take (min_le_right _ _)
  · exact kept_release (min_le_right _ _)
  · exact .refl _

theorem updateCell_of_apart (h : min endUnit (cell.last + 1) ≤ max startUnit cell.start) :
    updateCell startUnit endUnit makeUsed cell = cell :=
  if_neg (Nat.sub_eq_zero_of_le h).not_gt

theorem map_updateCell_of_apart
    (h : ∀ c ∈ cells, min endUnit (c.last + 1) ≤ max startUnit c.start) :
    cells.map (updateCell startUnit endUnit makeUsed) = cells := by
  have hsame : cells.map (updateCell startUnit endUnit makeUsed) = cells.map id :=
    map_congr_left fun c hc ↦ updateCell_of_apart (h c hc)
  rw [hsame, map_id]

/-- **An updated cell counts the new allocation**, if all units of the range were in the other
state. -/
theorem Cell.Counts.update (h : cell.Counts alloc) (makeUsed : Bool)
    (hold : ∀ u, startUnit ≤ u → u < endUnit → alloc u = if makeUsed then .free else .used) :
    (updateCell startUnit endUnit makeUsed cell).Counts
      (paint alloc startUnit endUnit (if makeUsed then .used else .free)) := by
  have htally := fun k ↦ @tally_paint _ _ alloc cell.start (cell.last + 1) k _ _ _
    (if makeUsed then .used else .free) hold
  have hfree := htally .free
  have hused := htally .used
  rw [← h.1] at hfree
  rw [← h.2] at hused
  unfold updateCell Cell.overlap
  cases makeUsed <;>
    simp only [Bool.false_eq_true, if_false, if_true, reduceCtorEq] at hfree hused ⊢
  all_goals
    split_ifs
    · constructor <;> simp only [Cell.take, Cell.release] <;> omega
    · constructor <;> omega

/-! ### The cells of a map -/

/-- The cells are in order. -/
def InOrder (cells : List Cell) : Prop :=
  cells.Pairwise fun c d ↦ c.start ≤ d.start ∧ c.last ≤ d.last

theorem inOrder_of_tiles {first stop : ℕ} (h : Tiles first (cells.map Cell.bounds) stop) :
    InOrder cells := by
  have hpairs := pairwise_map.1 h.pairwise
  refine hpairs.imp_of_mem fun {c d} hc hd hle ↦ ?_
  have hlt : c.start < c.last + 1 := (h.mem _ (mem_map_of_mem hc)).2.1
  have hlt' : d.start < d.last + 1 := (h.mem _ (mem_map_of_mem hd)).2.1
  have hle : c.last + 1 ≤ d.start := hle
  omega

/-- The search only skips cells that end below the unit. -/
theorem last_lt_of_firstOverlappingCell {unit low high : ℕ} (horder : InOrder cells)
    (h : ∀ c ∈ cells.take low, c.last < unit) :
    ∀ c ∈ cells.take (firstOverlappingCell cells unit low high), c.last < unit := by
  fun_induction firstOverlappingCell cells unit low high with
  | case1 low high _ middle hbelow ih =>
    refine ih fun c hc ↦ ?_
    obtain ⟨cell, hcell, hlast⟩ := (Option.any_eq_true _ _).1 hbelow
    obtain ⟨hmiddle, rfl⟩ := List.getElem?_eq_some_iff.1 hcell
    obtain ⟨i, hi, rfl⟩ := mem_take_iff_getElem.1 hc
    rcases Nat.lt_or_ge i middle with hlt | hge
    · exact ((pairwise_iff_getElem.1 horder i middle _ hmiddle hlt).2).trans_lt
        (of_decide_eq_true hlast)
    · obtain rfl : i = middle := by omega
      exact of_decide_eq_true hlast
  | case2 low high _ middle _ ih => exact ih h
  | case3 low high _ => exact h

theorem updateCells_eq (horder : InOrder cells) :
    updateCells startUnit endUnit makeUsed cells =
      cells.map (updateCell startUnit endUnit makeUsed) := by
  induction cells with
  | nil => rfl
  | cons cell cells ih =>
    obtain ⟨hhead, htail⟩ := pairwise_cons.1 horder
    rw [updateCells, map_cons]
    split
    next hbehind =>
      rw [updateCell_of_apart (by omega), map_updateCell_of_apart fun c hc ↦ ?_]
      have := (hhead c hc).1
      omega
    next => rw [ih htail]

/-- **An update is one of every cell.** -/
theorem applyRange_eq {unitSize startByte lengthByte : ℕ} (horder : InOrder cells)
    (hpos : 0 < unitSize) (hdvd : unitSize ∣ startByte) (hdvd' : unitSize ∣ lengthByte) :
    applyRange unitSize cells startByte lengthByte makeUsed = cells.map
      (updateCell (startByte / unitSize) ((startByte + lengthByte) / unitSize) makeUsed) := by
  have hround : (startByte + lengthByte + unitSize - 1) / unitSize =
      (startByte + lengthByte) / unitSize := by
    obtain ⟨m, hm⟩ := Nat.dvd_add hdvd hdvd'
    rw [hm, Nat.add_sub_assoc hpos, Nat.mul_add_div hpos, Nat.mul_div_cancel_left _ hpos,
      Nat.div_eq_of_lt (by omega), Nat.add_zero]
  unfold applyRange
  split
  next hzero =>
    rw [hzero, Nat.add_zero]
    exact (map_updateCell_of_apart fun c _ ↦ by omega).symm
  next =>
    simp only [hround]
    have hskipped : ∀ c ∈ cells.take (firstOverlappingCell cells (startByte / unitSize) 0
        cells.length), c.last < startByte / unitSize :=
      last_lt_of_firstOverlappingCell horder (by simp)
    generalize firstOverlappingCell cells (startByte / unitSize) 0 cells.length = index at *
    have htake : (cells.take index).map (updateCell (startByte / unitSize)
        ((startByte + lengthByte) / unitSize) makeUsed) = cells.take index :=
      map_updateCell_of_apart fun c hc ↦ by
        have := hskipped c hc
        omega
    rw [updateCells_eq (horder.sublist (drop_sublist _ _)), ← htake, ← map_append, take_append_drop]

end Update

/-! ### A sequence of moves -/

/-- The cells follow on each other from `first` to `stop` and count the units of an allocation. -/
structure Shows (first stop : ℕ) (alloc : ℕ → UnitState) (cells : List Cell) : Prop where
  tiles : Tiles first (cells.map Cell.bounds) stop
  counts : ∀ cell ∈ cells, cell.Counts alloc

section Moves

variable {unitSize first stop : ℕ} {alloc alloc' : ℕ → UnitState} {cells : List Cell}

theorem Shows.map {f : Cell → Cell} (h : Shows first stop alloc cells)
    (hkept : ∀ cell, Kept cell (f cell)) (hcounts : ∀ cell ∈ cells, (f cell).Counts alloc') :
    Shows first stop alloc' (cells.map f) := by
  refine ⟨?_, forall_mem_map.2 hcounts⟩
  rw [map_map, show Cell.bounds ∘ f = Cell.bounds from funext fun cell ↦ (hkept cell).bounds]
  exact h.tiles

/-- **One move.** -/
theorem Shows.move {r : LiveRange} (h : Shows first stop alloc cells) (hpos : 0 < unitSize)
    (hr : r.Possible unitSize alloc) : ∃ f : Cell → Cell, (∀ cell, Kept cell (f cell)) ∧
      applyRange unitSize (applyRange unitSize cells r.source r.length false) r.destination r.length
        true = cells.map f ∧ Shows first stop (r.move unitSize alloc) (cells.map f) := by
  have hfreed := h.map (fun _ ↦ kept_updateCell) fun cell hcell ↦
    (h.counts cell hcell).update false hr.used
  -- the destination is still free once the source is
  have hfree : ∀ u, r.destination / unitSize ≤ u → u < (r.destination + r.length) / unitSize →
      paint alloc (r.source / unitSize) ((r.source + r.length) / unitSize) .free u = .free := by
    intro u hle hlt
    rw [paint, hr.free u hle hlt, ite_self]
  have htaken := hfreed.map (fun _ ↦ kept_updateCell) fun cell hcell ↦
    (hfreed.counts cell hcell).update true hfree
  rw [map_map] at htaken
  refine ⟨_, fun cell ↦ kept_updateCell.trans kept_updateCell, ?_, htaken⟩
  rw [applyRange_eq (inOrder_of_tiles h.tiles) hpos hr.source_dvd hr.length_dvd,
    applyRange_eq (inOrder_of_tiles hfreed.tiles) hpos hr.destination_dvd hr.length_dvd, map_map]
  rfl

end Moves

/-- **The live map stays exact.** If the cells follow on each other and count the free and the used
units of an allocation, and every move takes used units to free ones, the cells count those of the
final allocation in the end. No cell changes its total, and the estimates stay below the used
units. -/
theorem live_map_exact (unitSize first stop : ℕ) (alloc : ℕ → UnitState) (cells : List Cell)
    (ranges : List LiveRange) (hcells : Shows first stop alloc cells)
    (hmoves : PossibleMoves unitSize alloc ranges) :
    List.Forall₂ Kept cells (applyLiveRanges unitSize cells ranges) ∧
      Shows first stop (ranges.foldl (LiveRange.move unitSize) alloc)
        (applyLiveRanges unitSize cells ranges) := by
  rcases Nat.eq_zero_or_pos unitSize with rfl | hpos
  · -- nothing is applied, and no unit is painted
    rw [List.foldl_fixed' fun r ↦ funext fun u ↦ by simp [LiveRange.move, paint]]
    exact ⟨forall₂_same.2 fun cell _ ↦ .refl cell, hcells⟩
  rw [applyLiveRanges, if_neg hpos.ne']
  induction ranges generalizing alloc cells with
  | nil => exact ⟨forall₂_same.2 fun cell _ ↦ .refl cell, hcells⟩
  | cons r ranges ih =>
    obtain ⟨f, hkept, heq, hmoved⟩ := hcells.move hpos hmoves.1
    rw [foldl_cons, foldl_cons, heq]
    obtain ⟨hall, hshows⟩ := ih _ _ hmoved hmoves.2
    exact ⟨(forall₂_map_left_iff.1 hall).imp fun cell _ h ↦ (hkept cell).trans h, hshows⟩

/-- The units of the second of two cells move into the first. -/
theorem live_map_two_cells :
    applyLiveRanges 1 [⟨0, 1, 2, 0, 0, 0, 0, 0⟩, ⟨2, 3, 0, 2, 0, 0, 1, 0⟩] [⟨2, 0, 2⟩] =
      [⟨0, 1, 0, 2, 0, 0, 0, 0⟩, ⟨2, 3, 2, 0, 0, 0, 0, 0⟩] ∧
    Shows 0 4 (paint (paint (paint (fun _ ↦ .free) 2 4 .used) 2 4 .free) 0 2 .used)
      [⟨0, 1, 0, 2, 0, 0, 0, 0⟩, ⟨2, 3, 2, 0, 0, 0, 0, 0⟩] := by
  have hshows : Shows 0 4 (paint (fun _ ↦ .free) 2 4 .used)
      [⟨0, 1, 2, 0, 0, 0, 0, 0⟩, ⟨2, 3, 0, 2, 0, 0, 1, 0⟩] :=
    ⟨.cons (by decide) (.cons (by decide) (.nil 4)),
      forall_mem_cons.2 ⟨⟨rfl, rfl⟩, forall_mem_singleton.2 ⟨rfl, rfl⟩⟩⟩
  have hpossible : LiveRange.Possible 1 (paint (fun _ ↦ .free) 2 4 .used) ⟨2, 0, 2⟩ :=
    ⟨by decide, by decide, by decide, fun u hle hlt ↦ if_pos ⟨hle, hlt⟩,
      fun u _ (hlt : u < 2) ↦ if_neg (by omega)⟩
  have hcells : applyLiveRanges 1 [⟨0, 1, 2, 0, 0, 0, 0, 0⟩, ⟨2, 3, 0, 2, 0, 0, 1, 0⟩] [⟨2, 0, 2⟩] =
      [⟨0, 1, 0, 2, 0, 0, 0, 0⟩, ⟨2, 3, 2, 0, 0, 0, 0, 0⟩] := by decide +kernel
  have hexact := (live_map_exact 1 0 4 _ _ [⟨2, 0, 2⟩] hshows ⟨hpossible, trivial⟩).2
  rw [hcells] at hexact
  exact ⟨hcells, hexact⟩

end LinuxDefragger.Gui
