import LinuxDefragger.Gui.MergeRanges
import LinuxDefragger.Ntfs.Transaction
import Mathlib.Data.Finset.Sort

/-!
# Bitmap snapshots

Before a move the bytes of `$Bitmap` that it can change are saved. `_bitmap_patches_for_runs` finds
them by merging the byte ranges of the runs, `_bitmap_patches` by grouping the sorted byte indices
of all clusters. Both lists of ranges are `Separated` and cover the bytes with a bit of some
cluster, and there is only one such list.
-/

open List Storage

namespace LinuxDefragger.Ntfs

/-- The loop of `_bitmap_patches` over `indices[1:]`: the ranges that are saved. -/
def indexRuns (runStart previous : ℕ) : List ℕ → List (ℕ × ℕ)
  | [] => [(runStart, previous + 1)]
  | index :: rest =>
    if index ≠ previous + 1 then (runStart, previous + 1) :: indexRuns index index rest
    else indexRuns runStart index rest

/-- The ranges of bytes that hold the bits of the clusters. -/
def clusterRanges (clusters : List ℕ) : List (ℕ × ℕ) :=
  match (clusters.map (· / 8)).toFinset.sort with
  | [] => []
  | first :: rest => indexRuns first first rest

/-- `_bitmap_patches` -/
def bitmapPatches (layout : NtfsLayout) (clusters : List ℕ) : List (ℕ × List UInt8) :=
  (clusterRanges clusters).map fun r ↦ (r.1, slice layout.bitmap r.1 r.2)

/-! ### Grouping -/

theorem indexRuns_separated {runStart previous : ℕ} {indices : List ℕ} (hle : runStart ≤ previous)
    (h : (previous :: indices).Pairwise (· < ·)) :
    Separated (indexRuns runStart previous indices) ∧ ∀ u,
      Covers (indexRuns runStart previous indices) u ↔ runStart ≤ u ∧ u ≤ previous ∨
      u ∈ indices := by
  induction indices generalizing runStart previous with
  | nil =>
    refine ⟨.singleton (Nat.lt_succ_of_le hle), fun u ↦ ?_⟩
    rw [indexRuns, covers_cons, Nat.lt_succ_iff]
    simp [Covers]
  | cons index rest ih =>
    obtain ⟨hlt, hrest⟩ := pairwise_cons.1 h
    have hindex := hlt index mem_cons_self
    rw [indexRuns]
    split_ifs with hgap
    · obtain ⟨hsep, hcov⟩ := ih le_rfl hrest
      refine ⟨(Separated.singleton (Nat.lt_succ_of_le hle)).append hsep fun a ha b hb ↦ ?_,
        fun u ↦ ?_⟩
      · -- a later range starts at an index that is left
        have hstart : index ≤ b.1 := by
          rcases (hcov b.1).1 ⟨b, hb, le_rfl, hsep.nonempty b hb⟩ with hmem | hmem
          · exact hmem.1
          · exact (rel_of_pairwise_cons hrest hmem).le
        rw [mem_singleton.1 ha]
        show previous + 1 < b.1
        omega
      · rw [covers_cons, hcov, mem_cons, Nat.lt_succ_iff, ← le_antisymm_iff, eq_comm]
    · obtain ⟨hsep, hcov⟩ := ih (show runStart ≤ index by omega) hrest
      refine ⟨hsep, fun u ↦ ?_⟩
      rw [hcov, mem_cons, ← or_assoc]
      refine or_congr_left ?_
      omega

theorem clusterRanges_separated (clusters : List ℕ) : Separated (clusterRanges clusters) ∧
    ∀ u, Covers (clusterRanges clusters) u ↔ ∃ c ∈ clusters, c / 8 = u := by
  have hsorted := (Finset.sortedLT_sort (clusters.map (· / 8)).toFinset).pairwise
  have hmem (u : ℕ) : u ∈ (clusters.map (· / 8)).toFinset.sort ↔ ∃ c ∈ clusters, c / 8 = u := by
    rw [Finset.mem_sort, mem_toFinset, mem_map]
  rw [clusterRanges]
  simp only [← hmem]
  generalize (clusters.map (· / 8)).toFinset.sort = indices at hsorted ⊢
  cases indices with
  | nil => exact ⟨.nil, fun u ↦ iff_of_false (not_covers_nil u) not_mem_nil⟩
  | cons first rest =>
    obtain ⟨hsep, hcov⟩ := indexRuns_separated le_rfl hsorted
    refine ⟨hsep, fun u ↦ ?_⟩
    rw [hcov, mem_cons, ← le_antisymm_iff, eq_comm]

/-! ### Merging -/

theorem byteRange_lt {run : Run} {r : ℕ × ℕ} (h : byteRange run = some r) : r.1 < r.2 := by
  obtain ⟨_ | lcn, length⟩ := run
  · cases h
  · rw [byteRange] at h
    split_ifs at h with hlength
    obtain rfl := Option.some.inj h
    change ¬length = 0 at hlength
    show lcn / 8 < (lcn + length - 1) / 8 + 1
    omega

/-- The byte range of a run holds the bits of its clusters. -/
theorem mem_byteRange {run : Run} {u : ℕ} :
    (∃ r, byteRange run = some r ∧ r.1 ≤ u ∧ u < r.2) ↔ ∃ c ∈ run.clusters, c / 8 = u := by
  obtain ⟨_ | lcn, length⟩ := run
  · constructor <;> rintro ⟨_, h, _⟩ <;> cases h
  constructor
  · rintro ⟨r, hr, hlow, hhigh⟩
    rw [byteRange] at hr
    split_ifs at hr with hlength
    obtain rfl := Option.some.inj hr
    change ¬length = 0 at hlength
    change lcn / 8 ≤ u at hlow
    change u < (lcn + length - 1) / 8 + 1 at hhigh
    refine ⟨max lcn (8 * u), mem_range'_1.2 (?_ : lcn ≤ _ ∧ _ < lcn + length), ?_⟩ <;> omega
  · rintro ⟨c, hc, rfl⟩
    obtain ⟨hlow, hhigh⟩ := mem_range'_1.1 hc
    change c < lcn + length at hhigh
    refine ⟨_, if_neg (show ¬length = 0 by omega), Nat.div_le_div_right hlow, ?_⟩
    show c / 8 < (lcn + length - 1) / 8 + 1
    omega

theorem mergedRanges_eq (runs : List Run) :
    mergedRanges runs = Gui.mergeRanges (runs.filterMap byteRange) := by
  rw [mergedRanges, Gui.mergeRanges]
  refine congrArg List.reverse (foldl_ext _ _ _ fun merged r hr ↦ ?_)
  obtain ⟨run, -, hrun⟩ := mem_filterMap.1 ((mem_insertionSort _).1 hr)
  rw [Gui.mergeRange, if_neg r.1.not_lt_zero]
  unfold Storage.mergeStep
  rw [if_neg (byteRange_lt hrun).not_ge]
  cases merged <;> rfl

theorem mergedRanges_separated (runs : List Run) : Separated (mergedRanges runs) ∧
    ∀ u, Covers (mergedRanges runs) u ↔ ∃ c ∈ runClusters runs, c / 8 = u := by
  rw [mergedRanges_eq]
  obtain ⟨hsep, hcov⟩ := Gui.mergeRanges_separated (runs.filterMap byteRange)
  refine ⟨hsep, fun u ↦ (hcov u).trans ?_⟩
  have hrun := fun run : Run ↦ @mem_byteRange run u
  simp only [Covers, mem_filterMap, runClusters, mem_flatMap]
  constructor
  · rintro ⟨r, ⟨run, hmem, hr⟩, hu⟩
    obtain ⟨c, hc, hcu⟩ := (hrun run).1 ⟨r, hr, hu⟩
    exact ⟨c, ⟨run, hmem, hc⟩, hcu⟩
  · rintro ⟨c, ⟨run, hmem, hc⟩, hcu⟩
    obtain ⟨r, hr, hu⟩ := (hrun run).2 ⟨c, hc, hcu⟩
    exact ⟨r, ⟨run, hmem, hr⟩, hu⟩

/-- **Both snapshots are the same**: of the maximal ranges of bytes with a bit of some cluster, in
order and apart from each other. -/
theorem bitmap_patches_by_runs (layout : NtfsLayout) (runs : List Run) :
    bitmapPatchesForRuns layout runs = bitmapPatches layout (runClusters runs) ∧
      Separated (mergedRanges runs) ∧
      ∀ byte, Covers (mergedRanges runs) byte ↔ ∃ c ∈ runClusters runs, c / 8 = byte := by
  obtain ⟨hsep, hcov⟩ := mergedRanges_separated runs
  obtain ⟨hsep', hcov'⟩ := clusterRanges_separated (runClusters runs)
  have hranges : mergedRanges runs = clusterRanges (runClusters runs) :=
    hsep.ext hsep' fun u ↦ (hcov u).trans (hcov' u).symm
  exact ⟨by rw [bitmapPatchesForRuns, bitmapPatches, hranges], hsep, hcov⟩

end LinuxDefragger.Ntfs
