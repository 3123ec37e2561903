import LinuxDefragger.Storage.Intervals
import Mathlib

/-!
# Merging ranges

The analysers report which parts of a device belong to fragmented files as merged ranges. Two
analysers that collect the ranges in different pieces report the same: `mergeRanges` is determined
by the bytes that its argument covers.
-/

open Storage

namespace LinuxDefragger.Gui

section Sorted

variable {α : Type*} [LinearOrder α]

/-- The order of pairs, in which `sorted(ranges)` is. -/
def pairLe (a b : α × α) : Bool := a.1 < b.1 ∨ a.1 = b.1 ∧ a.2 ≤ b.2

theorem pairLe_iff {a b : α × α} : pairLe a b = true ↔ a.1 < b.1 ∨ a.1 = b.1 ∧ a.2 ≤ b.2 :=
  decide_eq_true_iff

theorem pairLe_iff_toLex {a b : α × α} : pairLe a b = true ↔ toLex a ≤ toLex b :=
  pairLe_iff.trans Prod.Lex.toLex_le_toLex.symm

theorem pairwise_start_insertionSort_pairLe (ranges : List (α × α)) :
    (ranges.insertionSort (pairLe · ·)).Pairwise fun a b ↦ a.1 ≤ b.1 := by
  have : Std.Total fun a b : α × α ↦ pairLe a b = true :=
    ⟨fun a b ↦ by simp only [pairLe_iff_toLex, le_total]⟩
  have : IsTrans (α × α) fun a b ↦ pairLe a b = true :=
    ⟨fun a b c hab hbc ↦
      pairLe_iff_toLex.2 ((pairLe_iff_toLex.1 hab).trans (pairLe_iff_toLex.1 hbc))⟩
  refine (List.pairwise_insertionSort _ ranges).imp fun {a b} h ↦ ?_
  rcases pairLe_iff.1 h with h | h
  · exact h.le
  · exact h.1.le

end Sorted

section Merge

variable {α : Type*} [LinearOrder α] [Zero α]

/-- The loop of `merge_ranges` at one range: one that starts below zero is passed over. -/
def mergeRange (merged : List (α × α)) (r : α × α) : List (α × α) :=
  if r.1 < 0 then merged else mergeStep merged r

/-- `merge_ranges`, on integers or on natural numbers. -/
def mergeRanges (ranges : List (α × α)) : List (α × α) :=
  ((ranges.insertionSort (pairLe · ·)).foldl mergeRange []).reverse

theorem foldl_mergeRange (ranges merged : List (α × α)) :
    ranges.foldl mergeRange merged = (ranges.filter fun r ↦ 0 ≤ r.1).foldl mergeStep merged := by
  rw [List.foldl_filter]
  congr 1
  funext merged r
  by_cases hneg : r.1 < 0
  · rw [mergeRange, if_pos hneg, if_neg (by simpa using hneg)]
  · rw [mergeRange, if_neg hneg, if_pos (by simpa using hneg)]

/-- Merging keeps what the ranges from zero on cover. -/
theorem mergeRanges_covers (ranges : List (α × α)) : Separated (mergeRanges ranges) ∧
    ∀ u, Covers (mergeRanges ranges) u ↔ Covers (ranges.filter fun r ↦ 0 ≤ r.1) u := by
  have hsorted := (pairwise_start_insertionSort_pairLe ranges).filter fun r ↦ decide (0 ≤ r.1)
  obtain ⟨low, h⟩ := (Merged.mk Separated.nil nofun fun _ ↦ .rfl : Merged [] [] (0 : α)).foldl
    (fun r hr ↦ of_decide_eq_true (List.mem_filter.1 hr).2) hsorted
  rw [mergeRanges, foldl_mergeRange]
  refine ⟨h.separated, fun u ↦ ?_⟩
  rw [covers_congr fun r ↦ List.mem_reverse, h.covers, List.nil_append]
  refine covers_congr fun r ↦ ?_
  rw [List.mem_filter, List.mem_filter, List.mem_insertionSort]

end Merge

/-- The merged ranges are in order, apart from each other, and cover what was given. -/
theorem mergeRanges_separated (ranges : List (ℕ × ℕ)) : Separated (mergeRanges ranges) ∧
    ∀ u, Covers (mergeRanges ranges) u ↔ Covers ranges u := by
  have h := mergeRanges_covers ranges
  rwa [List.filter_eq_self.2 fun r _ ↦ decide_eq_true r.1.zero_le] at h

/-- **Merging forgets how the ranges were cut.** -/
theorem mergeRanges_eq_iff {ranges ranges' : List (ℕ × ℕ)} :
    mergeRanges ranges = mergeRanges ranges' ↔ ∀ u, Covers ranges u ↔ Covers ranges' u := by
  constructor
  · intro h u
    rw [← (mergeRanges_separated ranges).2, h, (mergeRanges_separated ranges').2]
  · intro h
    refine (mergeRanges_separated ranges).1.ext (mergeRanges_separated ranges').1 fun u ↦ ?_
    rw [(mergeRanges_separated ranges).2, h, (mergeRanges_separated ranges').2]

end LinuxDefragger.Gui
