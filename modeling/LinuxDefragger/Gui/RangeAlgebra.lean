import LinuxDefragger.Gui.MergeRanges
import LinuxDefragger.Gui.Ranges
import Mathlib.Data.Int.Interval
import Mathlib.Data.Set.Card
import Mathlib.Data.Set.Finite.Lattice

/-!
# Range algebra

The analysers describe what is in use by pairs of integers in any order. A pair stands for the units
from its start up to its end; one that starts below zero or is empty stands for nothing.

`merge_ranges` turns a list of pairs into separated ranges, `complement_ranges` into the gaps
between them, and `overlay_ranges` counts them into the cells of a map. `range_algebra` says what
the three compute in terms of the units that the pairs cover.
-/

open Function List Storage

namespace LinuxDefragger.Gui

/-! ### Complement and overlay -/

/-- The gap that is appended between two positions. -/
def gapBetween (a b : ℤ) : List (ℤ × ℤ) := if a < b then [(a, b)] else []

/-- The gaps that `complement_ranges` appends from `cursor` on. -/
def gapsFrom (totalUnits : ℤ) : List (ℤ × ℤ) → ℤ → List (ℤ × ℤ)
  | [], cursor => gapBetween cursor totalUnits
  | r :: rest, cursor =>
    let start := min totalUnits (max 0 r.1)
    let stop := min totalUnits (max 0 r.2)
    let gap := gapBetween cursor start
    let cursor := max cursor stop
    -- the `break` comes before the test for a last gap, which then fails
    gap ++ if cursor ≥ totalUnits then [] else gapsFrom totalUnits rest cursor

/-- `complement_ranges` -/
def complementRanges (totalUnits : ℤ) (occupied : List (ℤ × ℤ)) : Except MapError (List (ℤ × ℤ)) :=
  if totalUnits < 0 then throw (.backend "negative allocation-unit count")
  else pure (gapsFrom totalUnits (mergeRanges occupied) 0)

/-- The dictionary of a cell: its keys `"start"` and `"end"` are present. -/
structure CellDict where
  entries : String → Option ℤ
  has_start : (entries "start").isSome
  has_end : (entries "end").isSome

namespace CellDict

variable (cell : CellDict)

/-- `cell["start"]` -/
def start : ℤ := (cell.entries "start").get cell.has_start

/-- `cell["end"] + 1` -/
def endExclusive : ℤ := (cell.entries "end").get cell.has_end + 1

/-- `cell.get("used", 0)` -/
def used : ℤ := (cell.entries "used").getD 0

theorem isSome_update {cell : CellDict} {field key : String} {value : ℤ}
    (h : (cell.entries key).isSome) :
    (update cell.entries field (some value) key).isSome := by
  by_cases hkey : key = field
  · rw [hkey, update_self]
    rfl
  · rwa [update_of_ne hkey]

/-- `cell[field] = value` -/
def set (field : String) (value : ℤ) : CellDict where
  entries := Function.update cell.entries field (some value)
  has_start := isSome_update cell.has_start
  has_end := isSome_update cell.has_end

end CellDict

/-- The inner loop of `overlay_ranges` over the ranges from `check` on. -/
def overlapFrom (start endExclusive : ℤ) : List (ℤ × ℤ) → ℤ → ℤ
  | [], overlap => overlap
  | r :: rest, overlap =>
    if r.1 < endExclusive then
      let overlap := overlap + max 0 (min endExclusive r.2 - max start r.1)
      if r.2 > endExclusive then overlap else overlapFrom start endExclusive rest overlap
    else overlap

/-- The loop of `overlay_ranges` over the cells; `rest` are the ranges from `range_index` on. -/
def overlayCells (field : String) : List CellDict → List (ℤ × ℤ) → List CellDict
  | [], _ => []
  | cell :: cells, rest =>
    let rest := rest.dropWhile fun r ↦ r.2 ≤ cell.start
    cell.set field (min cell.used (overlapFrom cell.start cell.endExclusive rest 0)) ::
      overlayCells field cells rest

/-- The cells and the sum that is returned. -/
def overlayRanges (cells : List CellDict) (ranges : List (ℤ × ℤ)) (field : String) :
    List CellDict × ℤ :=
  let merged := mergeRanges ranges
  (overlayCells field cells merged, (merged.map fun r ↦ r.2 - r.1).sum)

/-! ### Merging -/

/-- The pairs that stand for units. -/
def validRanges (ranges : List (ℤ × ℤ)) : List (ℤ × ℤ) := ranges.filter fun r ↦ 0 ≤ r.1 ∧ r.1 < r.2

variable {ranges : List (ℤ × ℤ)} {a b : ℤ}

theorem covers_validRanges {u : ℤ} :
    Covers (validRanges ranges) u ↔ ∃ r ∈ ranges, 0 ≤ r.1 ∧ r.1 ≤ u ∧ u < r.2 := by
  simp only [Covers, validRanges, mem_filter, decide_eq_true_eq]
  constructor
  · rintro ⟨r, ⟨hr, hpos, -⟩, hu⟩
    exact ⟨r, hr, hpos, hu⟩
  · rintro ⟨r, hr, hpos, hu⟩
    exact ⟨r, ⟨hr, hpos, hu.1.trans_lt hu.2⟩, hu⟩

theorem covers_mergeRanges (ranges : List (ℤ × ℤ)) : Separated (mergeRanges ranges) ∧
    ∀ u, Covers (mergeRanges ranges) u ↔ Covers (validRanges ranges) u := by
  obtain ⟨hsep, hcov⟩ := mergeRanges_covers ranges
  refine ⟨hsep, fun u ↦ ?_⟩
  rw [hcov, covers_validRanges]
  simp only [Covers, mem_filter, decide_eq_true_eq, and_assoc]

theorem mergeRanges_nonneg {r : ℤ × ℤ} (hr : r ∈ mergeRanges ranges) : 0 ≤ r.1 := by
  obtain ⟨hsep, hcov⟩ := covers_mergeRanges ranges
  obtain ⟨s, -, hpos, hle, -⟩ :=
    covers_validRanges.1 ((hcov r.1).1 ⟨r, hr, le_rfl, hsep.nonempty r hr⟩)
  exact hpos.trans hle

/-! ### Gaps -/

theorem le_of_mem_gapBetween {r : ℤ × ℤ} (hr : r ∈ gapBetween a b) : a ≤ r.1 := by
  unfold gapBetween at hr
  split_ifs at hr
  · exact (mem_singleton.1 hr) ▸ le_rfl
  · exact absurd hr not_mem_nil

theorem separated_gapBetween_append {l : List (ℤ × ℤ)} (h : Separated l) (hl : ∀ r ∈ l, b < r.1) :
    Separated (gapBetween a b ++ l) := by
  unfold gapBetween
  split_ifs with hab
  · exact (Separated.singleton hab).append h fun r hr ↦ (mem_singleton.1 hr) ▸ hl
  · exact h

theorem covers_gapBetween {u : ℤ} : Covers (gapBetween a b) u ↔ a ≤ u ∧ u < b := by
  unfold gapBetween
  split_ifs with hab
  · exact covers_cons.trans (or_iff_left (not_covers_nil u))
  · exact iff_of_false (not_covers_nil u) fun hu ↦ hab (hu.1.trans_lt hu.2)

/-- **What is appended from a cursor on**: the gaps between the cursor and the end. -/
theorem gapsFrom_separated {totalUnits : ℤ} {cursor : ℤ} (h : Separated ranges) (hzero : 0 ≤ cursor)
    (hle : cursor ≤ totalUnits) (hcursor : ∀ r ∈ ranges, cursor ≤ r.1) :
    Separated (gapsFrom totalUnits ranges cursor) ∧
    (∀ r ∈ gapsFrom totalUnits ranges cursor, cursor ≤ r.1) ∧
      ∀ u, Covers (gapsFrom totalUnits ranges cursor) u ↔ cursor ≤ u ∧ u < totalUnits ∧
      ¬Covers ranges u := by
  induction ranges generalizing cursor with
  | nil =>
    refine ⟨?_, fun r ↦ le_of_mem_gapBetween, fun u ↦ ?_⟩
    · have := separated_gapBetween_append (a := cursor) (b := totalUnits) .nil nofun
      rwa [append_nil] at this
    · refine covers_gapBetween.trans ?_
      simp [not_covers_nil]
  | cons r rest ih =>
    have hstart := hcursor r mem_cons_self
    have hpos := h.nonempty r mem_cons_self
    have htail := fun u (hu : Covers rest u) ↦ h.lt_of_covers_tail hu
    have hmin : min totalUnits (max 0 r.1) = min totalUnits r.1 := by omega
    have hmax : max cursor (min totalUnits (max 0 r.2)) = min totalUnits r.2 := by omega
    unfold gapsFrom
    dsimp only
    rw [hmin, hmax]
    by_cases hend : totalUnits ≤ r.2
    · -- the range reaches the end, so the loop is left
      rw [min_eq_left hend, if_pos le_rfl]
      refine ⟨separated_gapBetween_append .nil nofun, fun s hs ↦ ?_, fun u ↦ ?_⟩
      · rw [append_nil] at hs
        exact le_of_mem_gapBetween hs
      · rw [append_nil, covers_gapBetween, covers_cons]
        constructor
        · rintro ⟨hu, hlt⟩
          refine ⟨hu, by omega, ?_⟩
          rintro (hr | hr)
          · omega
          · have := htail u hr
            omega
        · rintro ⟨hu, htotal, hnot⟩
          refine ⟨hu, ?_⟩
          by_contra hge
          exact hnot (.inl (by omega))
    · have hend := not_le.1 hend
      obtain ⟨hsep, hlow, hcov⟩ := ih h.tail (by omega : 0 ≤ r.2) hend.le
        fun s hs ↦ (rel_of_pairwise_cons h.apart hs).le
      rw [min_eq_right hend.le, if_neg (not_le.2 hend), min_eq_right (hpos.trans hend).le]
      refine ⟨separated_gapBetween_append hsep fun s hs ↦ hpos.trans_le (hlow s hs), fun s hs ↦ ?_,
        fun u ↦ ?_⟩
      · rcases mem_append.1 hs with hs | hs
        · exact le_of_mem_gapBetween hs
        · exact (hstart.trans hpos.le).trans (hlow s hs)
      · rw [covers_append, covers_gapBetween, hcov, covers_cons]
        constructor
        · rintro (⟨hu, hlt⟩ | ⟨hu, htotal, hnot⟩)
          · refine ⟨hu, by omega, ?_⟩
            rintro (hr | hr)
            · omega
            · have := htail u hr
              omega
          · refine ⟨by omega, htotal, ?_⟩
            rintro (hr | hr)
            · omega
            · exact hnot hr
        · rintro ⟨hu, htotal, hnot⟩
          by_cases hlt : u < r.1
          · exact .inl ⟨hu, hlt⟩
          · refine .inr ⟨?_, htotal, fun hr ↦ hnot (.inr hr)⟩
            by_contra hbefore
            exact hnot (.inl (by omega))

/-! ### Overlaps -/

theorem coveredCount_cons_int {r : ℤ × ℤ} {l : List (ℤ × ℤ)} (h : Separated (r :: l)) :
    (coveredCount (r :: l) a b : ℤ) = max 0 (min b r.2 - max a r.1) + coveredCount l a b := by
  rw [h.coveredCount_cons, Int.card_Ico]
  omega

/-- The inner loop counts the units of the cell that are covered. -/
theorem overlapFrom_eq {start endExclusive : ℤ} (h : Separated ranges) (overlap : ℤ) :
    overlapFrom start endExclusive ranges overlap = overlap + coveredCount ranges start
      endExclusive := by
  induction ranges generalizing overlap with
  | nil =>
    rw [coveredCount_eq_zero fun u _ _ ↦ not_covers_nil u]
    exact (Int.add_zero _).symm
  | cons r rest ih =>
    unfold overlapFrom
    dsimp only
    split_ifs with hstart hend
    · -- what follows starts behind the cell
      rw [coveredCount_cons_int h, coveredCount_eq_zero (l := rest) fun u _ hu hrest ↦ ?_]
      · omega
      · have := h.lt_of_covers_tail hrest
        omega
    · rw [ih h.tail, coveredCount_cons_int h]
      omega
    · rw [coveredCount_eq_zero fun u _ hu hcov ↦ ?_]
      · omega
      · have := h.head_le hcov
        omega

/-- The ranges that are dropped end before the cell and all later ones. -/
theorem coveredCount_dropWhile {bound : ℤ} (hbound : bound ≤ a) :
    coveredCount (ranges.dropWhile fun r ↦ r.2 ≤ bound) a b = coveredCount ranges a b := by
  induction ranges with
  | nil => rfl
  | cons r rest ih =>
    rw [dropWhile_cons]
    split_ifs with hdrop
    · rw [ih, coveredCount_cons_of_disjoint (.inl ((of_decide_eq_true hdrop).trans hbound))]
    · rfl

theorem separated_dropWhile (h : Separated ranges) (p : ℤ × ℤ → Bool) :
    Separated (ranges.dropWhile p) :=
  have hsub := dropWhile_sublist (l := ranges) p
  ⟨fun r hr ↦ h.nonempty r (hsub.subset hr), h.apart.sublist hsub⟩

/-- **The loop over the cells**, given that the ranges at hand are all that later cells can meet. -/
theorem overlayCells_eq {field : String} {cells : List CellDict} {all : List (ℤ × ℤ)}
    (h : Separated ranges) (hcells : cells.Pairwise fun a b ↦ a.start ≤ b.start)
    (hall : ∀ cell ∈ cells, ∀ b, coveredCount ranges cell.start b = coveredCount all cell.start b) :
    overlayCells field cells ranges = cells.map fun cell ↦
      cell.set field (min cell.used (coveredCount all cell.start cell.endExclusive)) := by
  induction cells generalizing ranges with
  | nil => rfl
  | cons cell cells ih =>
    obtain ⟨hfirst, hrest⟩ := pairwise_cons.1 hcells
    unfold overlayCells
    dsimp only
    rw [map_cons, overlapFrom_eq (separated_dropWhile h _), coveredCount_dropWhile le_rfl,
      hall cell mem_cons_self, Int.zero_add, ih (separated_dropWhile h _) hrest]
    intro later hlater b
    rw [coveredCount_dropWhile (hfirst later hlater), hall later (mem_cons_of_mem _ hlater)]

theorem finite_covers (ranges : List (ℤ × ℤ)) : {u | Covers ranges u}.Finite := by
  refine (Set.Finite.biUnion (finite_toSet ranges) fun r _ ↦ Set.finite_Ico r.1 r.2).subset
    fun u hu ↦ ?_
  obtain ⟨r, hr, hu⟩ := hu
  exact Set.mem_biUnion hr hu

/-- The lengths of separated ranges add up to the number of units in them. -/
theorem sum_lengths_eq (h : Separated ranges) :
    (ranges.map fun r ↦ r.2 - r.1).sum = Set.ncard {u | Covers ranges u} := by
  induction ranges with
  | nil =>
    have hnone : {u : ℤ | Covers [] u} = ∅ := Set.eq_empty_of_forall_notMem fun u ↦ not_covers_nil u
    rw [hnone, Set.ncard_empty]
    rfl
  | cons r rest ih =>
    have hpos := h.nonempty r mem_cons_self
    have hsplit : {u | Covers (r :: rest) u} = ↑(Finset.Ico r.1 r.2) ∪ {u | Covers rest u} := by
      ext u
      rw [Set.mem_ofPred_eq, covers_cons, Set.mem_union, Finset.mem_coe, Finset.mem_Ico,
        Set.mem_ofPred_eq]
    have hdisjoint : Disjoint (↑(Finset.Ico r.1 r.2) : Set ℤ) {u | Covers rest u} :=
      Set.disjoint_left.2 fun u hu hrest ↦ (h.lt_of_covers_tail hrest).asymm (Finset.mem_Ico.1 hu).2
    rw [map_cons, sum_cons, ih h.tail, hsplit,
      Set.ncard_union_eq hdisjoint (Finset.finite_toSet _)
        (finite_covers rest), Set.ncard_coe_finset, Int.card_Ico]
    omega

/-! ### The algebra -/

/-- **Range algebra.** -/
theorem range_algebra (pairs : List (ℤ × ℤ)) :
    (Separated (mergeRanges pairs) ∧
        ∀ u, Covers (mergeRanges pairs) u ↔ Covers (validRanges pairs) u) ∧
      (∀ totalUnits, if totalUnits < 0 then
          complementRanges totalUnits pairs = .error (.backend "negative allocation-unit count")
        else ∃ gaps, complementRanges totalUnits pairs = .ok gaps ∧ Separated gaps ∧
          ∀ u, Covers gaps u ↔ 0 ≤ u ∧ u < totalUnits ∧ ¬Covers (validRanges pairs) u) ∧
      ∀ cells field, cells.Pairwise (fun a b ↦ a.start ≤ b.start) →
        overlayRanges cells pairs field = (cells.map fun cell ↦
          cell.set field
            (min cell.used (coveredCount (validRanges pairs) cell.start cell.endExclusive)),
          (Set.ncard {u | Covers (validRanges pairs) u} : ℤ)) := by
  obtain ⟨hsep, hcov⟩ := covers_mergeRanges pairs
  refine ⟨⟨hsep, hcov⟩, fun totalUnits ↦ ?_, fun cells field hcells ↦ ?_⟩
  · unfold complementRanges
    split_ifs with hneg
    · rfl
    · obtain ⟨hgaps, -, hgap⟩ := gapsFrom_separated hsep le_rfl (not_lt.1 hneg)
        fun r hr ↦ mergeRanges_nonneg hr
      refine ⟨_, rfl, hgaps, fun u ↦ ?_⟩
      rw [hgap, hcov]
  · unfold overlayRanges
    dsimp only
    rw [sum_lengths_eq hsep, overlayCells_eq hsep hcells fun cell _ b ↦ coveredCount_congr hcov]
    simp only [hcov]

/-- A cell with the three keys that are read. -/
def usedCell (start last used : ℤ) : CellDict where
  entries key := [("start", start), ("end", last), ("used", used)].lookup key
  has_start := rfl
  has_end := rfl

/-- Two cells, of which the second has less in use than the ranges say. -/
theorem range_algebra_two_cells :
    (overlayRanges [usedCell 0 3 4, usedCell 4 7 1] [(5, 8), (-3, 2), (1, 3), (2, 6)]
      "fragmented").1 =
      [(usedCell 0 3 4).set "fragmented" 3, (usedCell 4 7 1).set "fragmented" 1] := by
  have h := (range_algebra [(5, 8), (-3, 2), (1, 3), (2, 6)]).2.2 [usedCell 0 3 4, usedCell 4 7 1]
    "fragmented"
    (by decide)
  have hfirst : coveredCount (validRanges [(5, 8), (-3, 2), (1, 3), (2, 6)]) 0 4 = 3 := by decide
  have hsecond : coveredCount (validRanges [(5, 8), (-3, 2), (1, 3), (2, 6)]) 4 8 = 4 := by decide
  rw [h]
  show [(usedCell 0 3 4).set "fragmented" (min 4 (coveredCount _ 0 4 : ℤ)),
    (usedCell 4 7 1).set "fragmented" (min 1 (coveredCount _ 4 8 : ℤ))] = _
  rw [hfirst, hsecond]
  rfl

end LinuxDefragger.Gui
