import LinuxDefragger.Gui.Ranges
import Mathlib.Algebra.Order.BigOperators.Group.List

/-!
# Overlays by unit

The exFAT and Amiga analysers add the units of directories and of fragmented files to the cells of a
finished map. The cell is found by the proportion `unit * cells // total`, while the cells end at
`(index + 1) * total // cells`. The proportion is never too large, but it is one too small for a
unit that the exact border of two cells cuts through: `cellIndex_eq_iff`.
-/

open Except List Storage

namespace LinuxDefragger.Gui

/-- The two counters of a cell that are overlaid. -/
inductive Overlay
  | directory
  | fragmented

/-- `cell[field] += n` -/
def Cell.add (cell : Cell) (n : ℕ) : Overlay → Cell
  | .directory => { cell with directory := cell.directory + n }
  | .fragmented => { cell with fragmented := cell.fragmented + n }

/-- The index of the cell that a unit is added to. -/
def cellIndex (cellCount total unit : ℕ) : ℕ := min (cellCount - 1) (unit * cellCount / total)

/-- The loop over the set of directory or fragmented units, in whatever order it is. -/
def overlayUnits (field : Overlay) (total : ℕ) (units : List ℕ) (m : MapResult) : MapResult :=
  { m with
    cells := units.foldl (fun cells unit ↦
      if unit < total then
        cells.modify (cellIndex m.cellCount total unit) fun cell ↦ cell.add 1 field
      else cells) m.cells }

/-- Both overlays. -/
def overlayBoth (total : ℕ) (directoryUnits fragmentedUnits : List ℕ) (m : MapResult) : MapResult :=
  overlayUnits .fragmented total fragmentedUnits (overlayUnits .directory total directoryUnits m)

/-- The map of the exFAT analyser. -/
def exfatMap (bitmap : List UInt8) (clusterCount : ℕ) (cells : ℤ) (clusterSize : ℕ)
    (directoryUnits fragmentedUnits : List ℕ) : Except MapError MapResult := do
  let result ← aggregateBitmap bitmap clusterCount cells clusterSize "exfat" 0
  return overlayBoth clusterCount directoryUnits fragmentedUnits result

/-- The map of the Amiga analyser. -/
def affsMap (states : List ℤ) (total : ℕ) (cells : ℤ) (blockSize : ℕ)
    (directoryUnits fragmentedUnits : List ℕ) : MapResult :=
  overlayBoth total directoryUnits fragmentedUnits
    (aggregateStates states total cells blockSize "affs" "exact")

/-- Every cell counts the units between its start and its end. -/
def Attributed (directoryUnits fragmentedUnits : List ℕ) (m : MapResult) : Prop :=
  ∀ cell ∈ m.cells,
    cell.directory = directoryUnits.countP (fun u ↦ cell.start ≤ u ∧ u ≤ cell.last) ∧
      cell.fragmented = fragmentedUnits.countP fun u ↦ cell.start ≤ u ∧ u ≤ cell.last

/-! ### The loops -/

theorem Cell.add_add (cell : Cell) (n k : ℕ) (field : Overlay) :
    (cell.add n field).add k field = cell.add (n + k) field := by
  cases field <;> simp [Cell.add, Nat.add_assoc]

theorem overlayUnits_cells {m : MapResult} {cell : ℕ → Cell}
    (h : m.cells = (range m.cellCount).map cell) (field : Overlay) (total : ℕ) (units : List ℕ) :
    (overlayUnits field total units m).cells = (range m.cellCount).map fun i ↦
      (cell i).add (units.countP fun u ↦ u < total ∧ cellIndex m.cellCount total u = i) field := by
  rw [overlayUnits, h]
  clear h
  induction units generalizing cell with
  | nil =>
    refine map_congr_left fun i _ ↦ ?_
    cases field <;> rfl
  | cons unit units ih =>
    rw [foldl_cons]
    have hmodify (j : ℕ) (f : Cell → Cell) : ((range m.cellCount).map cell).modify j f =
        (range m.cellCount).map fun i ↦ if j = i then f (cell i) else cell i := by
      refine List.ext_getElem? fun i ↦ ?_
      rw [getElem?_modify, getElem?_map, getElem?_map]
      rcases lt_or_ge i m.cellCount with hi | hi
      · rw [getElem?_range hi]
        by_cases hj : j = i <;> simp [hj]
      · rw [getElem?_eq_none (by simpa using hi)]
        simp
    split_ifs with hunit
    · rw [hmodify, ih]
      refine map_congr_left fun i _ ↦ ?_
      rw [countP_cons]
      split_ifs with hi hcount hcount
      · rw [Cell.add_add, Nat.add_comm]
      · simp [hunit, hi] at hcount
      · simp [hi] at hcount
      · rw [Nat.add_zero]
    · rw [ih]
      refine map_congr_left fun i _ ↦ ?_
      rw [List.countP_cons_of_neg (by simp [hunit])]

/-! ### The index -/

section Index

variable {total n u : ℕ} (hpos : 0 < n) (hle : n ≤ total)
include hpos hle

/-- The index of the cell around a unit. -/
theorem cell_around_iff {i : ℕ} :
    (i * total / n ≤ u ∧ u < (i + 1) * total / n) ↔ ((u + 1) * n - 1) / total = i := by
  have hpositive : 0 < (u + 1) * n := Nat.mul_pos u.succ_pos hpos
  have hlow : i * total / n ≤ u ↔ i * total < (u + 1) * n := by
    rw [← Nat.lt_succ_iff, Nat.div_lt_iff_lt_mul hpos]
  have hhigh : u < (i + 1) * total / n ↔ (u + 1) * n ≤ (i + 1) * total := Nat.le_div_iff_mul_le hpos
  rw [hlow, hhigh, Nat.div_eq_iff (hpos.trans_le hle), Nat.succ_mul i]
  generalize (u + 1) * n = a at hpositive
  generalize i * total = b
  omega

theorem cellIndex_eq (hu : u < total) : cellIndex n total u = u * n / total := by
  have hlt : u * n / total < n :=
    (Nat.div_lt_iff_lt_mul (hpos.trans_le hle)).2
      (Nat.mul_comm n total ▸ Nat.mul_lt_mul_of_pos_right hu hpos)
  exact min_eq_right (Nat.le_sub_one_of_lt hlt)

/-- The index is the one of the cell around the unit, or smaller. -/
theorem cellIndex_le (hu : u < total) : cellIndex n total u ≤ ((u + 1) * n - 1) / total := by
  rw [cellIndex_eq hpos hle hu, Nat.succ_mul]
  exact Nat.div_le_div_right (by omega)

/-- **When the index is right**: the unit does not reach over the border of its cell. -/
theorem cellIndex_eq_iff (hu : u < total) :
    cellIndex n total u = ((u + 1) * n - 1) / total ↔ u * n % total + n ≤ total := by
  have htotal := hpos.trans_le hle
  have hdiv := Nat.div_add_mod (u * n) total
  have hnext : (u + 1) * n - 1 = u * n % total + n - 1 + total * (u * n / total) := by
    rw [Nat.succ_mul]
    omega
  rw [cellIndex_eq hpos hle hu, hnext, Nat.add_mul_div_left _ _ htotal, right_eq_add,
    Nat.div_eq_zero_iff_lt htotal]
  omega

end Index

/-- Two ways of sorting a list into classes, one never above the other, that fill the classes alike
are the same. -/
theorem forall_eq_of_countP {α : Type} {f g : α → ℕ} {l : List α} (hle : ∀ a ∈ l, f a ≤ g a)
    (h : ∀ i, l.countP (fun a ↦ f a = i) = l.countP fun a ↦ g a = i) : ∀ a ∈ l, f a = g a := by
  have hperm : (l.map f).Perm (l.map g) := List.perm_iff_count.2 fun i ↦ by
    rw [List.count_eq_countP, List.count_eq_countP, countP_map, countP_map]
    exact h i
  by_contra! hne
  obtain ⟨a, ha, hne⟩ := hne
  exact (sum_lt_sum f g hle ⟨a, ha, (hle a ha).lt_of_ne hne⟩).ne hperm.sum_eq

/-! ### Counts of the cells -/

theorem counts_eq_iff {total n : ℕ} (hpos : 0 < n) (hle : n ≤ total) {units : List ℕ}
    (hunits : ∀ u ∈ units, u < total) :
    (∀ i < n, units.countP (fun u ↦ u < total ∧ cellIndex n total u = i) =
      units.countP fun u ↦ i * total / n ≤ u ∧ u ≤ (i + 1) * total / n - 1) ↔
      ∀ u ∈ units, u * n % total + n ≤ total := by
  have hindex (i : ℕ) : units.countP (fun u ↦ u < total ∧ cellIndex n total u = i) =
        units.countP fun u ↦ cellIndex n total u = i :=
    countP_congr fun u hu ↦ by simp [hunits u hu]
  have haround (i : ℕ) : units.countP (fun u ↦ i * total / n ≤ u ∧ u ≤ (i + 1) * total / n - 1) =
        units.countP fun u ↦ ((u + 1) * n - 1) / total = i := by
    refine countP_congr fun u hu ↦ ?_
    rw [decide_eq_true_iff, decide_eq_true_iff, ← cell_around_iff hpos hle,
      Nat.le_sub_one_iff_lt (Nat.zero_lt_of_lt (proportional_lt hpos hle i))]
  simp only [hindex, haround]
  constructor
  · intro h u hu
    refine (cellIndex_eq_iff hpos hle (hunits u hu)).1 (forall_eq_of_countP
      (fun u hu ↦ cellIndex_le hpos hle (hunits u hu)) (fun i ↦ ?_) u hu)
    rcases lt_or_ge i n with hi | hi
    · exact h i hi
    · -- there are no cells from `n` on
      rw [countP_eq_zero.2 fun u _ ↦ ?_, countP_eq_zero.2 fun u hu ↦ ?_]
      · have hmul : (u + 1) * n ≤ total * n := Nat.mul_le_mul_right n (hunits u hu)
        have hindex : ((u + 1) * n - 1) / total < n := Nat.div_lt_of_lt_mul
          ((Nat.sub_one_lt_of_lt (Nat.mul_pos u.succ_pos hpos)).trans_le hmul)
        simpa using (hindex.trans_le hi).ne
      · have hindex : cellIndex n total u < n :=
          (min_le_left _ _).trans_lt (Nat.sub_one_lt_of_lt hpos)
        simpa using (hindex.trans_le hi).ne
  · intro h i _
    refine countP_congr fun u hu ↦ ?_
    rw [(cellIndex_eq_iff hpos hle (hunits u hu)).2 (h u hu)]

theorem attributed_mapOf_iff {total : ℕ} (htotal : 0 < total) {dirs frags : List ℕ}
    (hunits : ∀ u ∈ dirs ++ frags, u < total) (f : ℕ → UnitState) (cells : ℤ) (unitSize : ℕ)
    (filesystem accuracy : String) :
    Attributed dirs frags
      (overlayBoth total dirs frags (mapOf f total cells unitSize filesystem accuracy)) ↔
      ∀ u ∈ dirs ++ frags, u * clampCellCount cells total % total + clampCellCount cells total ≤
        total := by
  obtain ⟨hpos, hle⟩ := clampCellCount_le htotal cells
  have hcount : (mapOf f total cells unitSize filesystem accuracy).cellCount =
      clampCellCount cells total := by
    simp [mapOf, newMapResult, cellBounds]
  have hcells : (mapOf f total cells unitSize filesystem accuracy).cells =
      (range (clampCellCount cells total)).map fun i ↦ cellOf f
        (i * total / clampCellCount cells total, (i + 1) * total / clampCellCount cells total) := by
    refine (map_map ..).trans (map_congr_left fun i _ ↦ ?_)
    exact congrArg (cellOf f) (Prod.ext rfl (max_eq_right (proportional_lt hpos hle i)))
  rw [← hcount] at hcells
  have hboth := overlayUnits_cells (overlayUnits_cells hcells .directory total dirs)
    .fragmented total frags
  obtain ⟨hdirs, hfrags⟩ := forall_mem_append.1 hunits
  rw [Attributed, overlayBoth, hboth, forall_mem_append, ← counts_eq_iff hpos hle hdirs,
    ← counts_eq_iff hpos hle hfrags, ← forall₂_and]
  simp only [forall_mem_map, mem_range, overlayUnits, hcount]
  refine forall₂_congr fun i _ ↦ and_congr ?_ ?_
  all_goals
    show 0 + _ = _ ↔ _
    rw [Nat.zero_add]
    rfl

/-- **When the overlays are right.** Every directory and fragmented unit is counted in the cell
around it, if and only if no exact border of two cells cuts through one of the units. -/
theorem overlays_attributed_iff (bitmap : List UInt8) (states : List ℤ) (total : ℕ) (cells : ℤ)
    (unitSize : ℕ) {dirs frags : List ℕ}
    (hunits : ∀ u ∈ dirs ++ frags, u < total) :
    (∀ m, exfatMap bitmap total cells unitSize dirs frags = .ok m → (Attributed dirs frags m ↔
      ∀ u ∈ dirs ++ frags, u * clampCellCount cells total % total + clampCellCount cells
        total ≤ total)) ∧
    (Attributed dirs frags (affsMap states total cells unitSize dirs frags) ↔
      ∀ u ∈ dirs ++ frags, u * clampCellCount cells total % total + clampCellCount cells total ≤
        total) := by
  rcases Nat.eq_zero_or_pos total with rfl | htotal
  · -- a volume without units has a cell, but nothing to overlay
    obtain ⟨rfl, rfl⟩ := append_eq_nil_iff.1 (eq_nil_iff_forall_not_mem.2 fun u hu ↦ by
      have := hunits u hu
      omega)
    have hcount : clampCellCount cells 0 = 1 := by
      rw [clampCellCount]
      omega
    refine ⟨fun m hm ↦ iff_of_true ?_ (forall_mem_nil _), iff_of_true ?_ (forall_mem_nil _)⟩
    · obtain ⟨result, hresult, hm⟩ := bind_eq_ok.1 hm
      obtain rfl := ok.inj hm
      rw [aggregateBitmap, if_neg (by omega), hcount] at hresult
      obtain ⟨st, hst, hresult⟩ := bind_eq_ok.1 hresult
      obtain rfl := ok.inj hresult
      obtain ⟨st', hst', hst⟩ := bind_eq_ok.1 hst
      obtain ⟨used, -, hst'⟩ := bind_eq_ok.1 hst'
      obtain rfl := ok.inj hst'
      obtain rfl := ok.inj hst
      exact forall_mem_singleton.2 ⟨rfl, rfl⟩
    · rw [affsMap, aggregateStates, hcount]
      exact forall_mem_singleton.2 ⟨rfl, rfl⟩
  · refine ⟨fun m hm ↦ ?_, ?_⟩
    · obtain ⟨result, hresult, hm⟩ := bind_eq_ok.1 hm
      obtain rfl := ok.inj hm
      have hbits : total - 0 ≤ 8 * bitmap.length := by
        by_contra hshort
        rw [aggregateBitmap, if_pos (by omega)] at hresult
        cases hresult
      rw [aggregateBitmap_eq htotal hbits] at hresult
      obtain rfl := ok.inj hresult
      exact attributed_mapOf_iff htotal hunits ..
    · rw [affsMap, aggregateStates_eq htotal]
      exact attributed_mapOf_iff htotal hunits ..

/-- Two cells over three units: unit 1 is in the second cell, which both maps leave empty. -/
theorem overlays_misplaced : (∃ m, exfatMap [7] 3 2 4096 [1] [] = .ok m ∧
      m.cells.map (fun c ↦ (c.start, c.last, c.directory)) = [(0, 0, 1), (1, 2, 0)]) ∧
    (affsMap [1, 1, 1] 3 2 512 [1] []).cells.map (fun c ↦ (c.start, c.last, c.directory)) =
      [(0, 0, 1), (1, 2, 0)] := by
  refine ⟨⟨_, rfl, ?_⟩, ?_⟩
  · decide
  · decide

/-- With three cells the borders are between units. -/
theorem overlays_three_cells : ∃ m, exfatMap [7] 3 3 4096 [1] [2] = .ok m ∧ Attributed [1]
    [2] m := by
  refine ⟨_, rfl, ((overlays_attributed_iff [7] [1, 1, 1] 3 3 4096 (by decide)).1 _ rfl).2 ?_⟩
  decide

end LinuxDefragger.Gui
