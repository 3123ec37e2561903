import Mathlib.Order.Interval.Finset.Basic

/-!
# Sets as lists of intervals

A list of half-open intervals of a linear order stands for the set of the elements it `Covers`.
Among the lists that cover a set, at most one is `Separated`: nonempty intervals in order with a gap
between any two of them. So a function that returns separated lists is determined by what it covers
(`Separated.ext`).

`mergeStep` extends a separated list, kept with its last interval first, by an interval that starts
no lower; folding it over intervals in the order of their starts merges them.
-/

open List

namespace Storage

variable {α : Type*} [LinearOrder α]

/-- One of the intervals contains the element. -/
def Covers (l : List (α × α)) (u : α) : Prop := ∃ r ∈ l, r.1 ≤ u ∧ u < r.2

section Covers

variable {l l' : List (α × α)} {r : α × α} {u : α}

theorem not_covers_nil (u : α) : ¬Covers [] u := nofun

theorem covers_cons : Covers (r :: l) u ↔ (r.1 ≤ u ∧ u < r.2) ∨ Covers l u := by
  simp [Covers]

theorem covers_append : Covers (l ++ l') u ↔ Covers l u ∨ Covers l' u := by
  simp only [Covers, mem_append, or_and_right, exists_or]

theorem covers_congr (h : ∀ r, r ∈ l ↔ r ∈ l') : Covers l u ↔ Covers l' u := by
  simp only [Covers, h]

/-- Covering goes through a map of lists, element by element. -/
theorem covers_flatMap {β : Type*} {f : β → List (α × α)} {as : List β} :
    Covers (as.flatMap f) u ↔ ∃ a ∈ as, Covers (f a) u := by
  simp only [Covers, mem_flatMap]
  constructor
  · rintro ⟨r, ⟨a, ha, hr⟩, hu⟩
    exact ⟨a, ha, r, hr, hu⟩
  · rintro ⟨a, ha, r, hr, hu⟩
    exact ⟨r, ⟨a, ha, hr⟩, hu⟩

end Covers

/-- Nonempty intervals in order, with a gap between any two. -/
structure Separated (l : List (α × α)) : Prop where
  nonempty : ∀ r ∈ l, r.1 < r.2
  apart : l.Pairwise fun a b ↦ a.2 < b.1

namespace Separated

variable {l l' : List (α × α)} {r r' : α × α} {u : α}

theorem nil : Separated ([] : List (α × α)) := ⟨nofun, .nil⟩

theorem tail (h : Separated (r :: l)) : Separated l :=
  ⟨fun s hs ↦ h.nonempty s (mem_cons_of_mem _ hs), h.apart.of_cons⟩

theorem singleton (h : r.1 < r.2) : Separated [r] :=
  ⟨forall_mem_singleton.2 h, pairwise_singleton _ _⟩

theorem append (h : Separated l) (h' : Separated l') (hgap : ∀ a ∈ l, ∀ b ∈ l', a.2 < b.1) :
    Separated (l ++ l') := by
  refine ⟨fun s hs ↦ ?_, pairwise_append.2 ⟨h.apart, h'.apart, hgap⟩⟩
  rcases mem_append.1 hs with hs | hs
  · exact h.nonempty s hs
  · exact h'.nonempty s hs

section

variable (h : Separated (r :: l))
include h

/-- What the tail covers lies beyond a gap. -/
theorem lt_of_covers_tail (hu : Covers l u) : r.2 < u := by
  obtain ⟨s, hs, hlow, -⟩ := hu
  exact lt_of_lt_of_le (rel_of_pairwise_cons h.apart hs) hlow

/-- The first number that is covered. -/
theorem head_le (hu : Covers (r :: l) u) : r.1 ≤ u := by
  rcases covers_cons.1 hu with hu | hu
  · exact hu.1
  · exact (h.nonempty r mem_cons_self).le.trans (h.lt_of_covers_tail hu).le

/-- Just behind the first interval nothing is covered. -/
theorem not_covers_head_end : ¬Covers (r :: l) r.2 := by
  intro hu
  rcases covers_cons.1 hu with hu | hu
  · exact lt_irrefl _ hu.2
  · exact lt_irrefl _ (h.lt_of_covers_tail hu)

theorem covers_head : Covers (r :: l) r.1 := ⟨r, mem_cons_self, le_rfl, h.nonempty r mem_cons_self⟩

/-- The first interval is the longest from its start on that the list covers. -/
theorem le_head_end (hstart : r'.1 = r.1)
    (hcov : ∀ u, Covers (r' :: l') u → Covers (r :: l) u) : r'.2 ≤ r.2 := by
  refine not_lt.1 fun hlt ↦ h.not_covers_head_end (hcov _ ?_)
  exact ⟨r', mem_cons_self, hstart.trans_le (h.nonempty r mem_cons_self).le, hlt⟩

end

/-- **A separated list is determined by what it covers.** -/
theorem ext (h : Separated l) (h' : Separated l') (hcov : ∀ u, Covers l u ↔ Covers l' u) :
    l = l' := by
  induction l generalizing l' with
  | nil =>
    cases l' with
    | nil => rfl
    | cons r' l' => exact absurd ((hcov _).2 h'.covers_head) (not_covers_nil _)
  | cons r l ih =>
    cases l' with
    | nil => exact absurd ((hcov _).1 h.covers_head) (not_covers_nil _)
    | cons r' l' =>
      have hstart : r.1 = r'.1 :=
        le_antisymm (h.head_le ((hcov _).2 h'.covers_head)) (h'.head_le ((hcov _).1 h.covers_head))
      have hend : r.2 = r'.2 := le_antisymm (h'.le_head_end hstart fun u ↦ (hcov u).1)
          (h.le_head_end hstart.symm fun u ↦ (hcov u).2)
      obtain rfl : r = r' := Prod.ext hstart hend
      refine congrArg _ (ih h.tail h'.tail fun u ↦ ?_)
      -- beyond the common first interval both lists cover what their tails do
      have hcons := hcov u
      rw [covers_cons, covers_cons] at hcons
      have hl := fun hu : Covers l u ↦ h.lt_of_covers_tail hu
      have hl' := fun hu : Covers l' u ↦ h'.lt_of_covers_tail hu
      constructor
      · intro hu
        exact (hcons.1 (.inr hu)).resolve_left fun hr ↦ (hl hu).asymm hr.2
      · intro hu
        exact (hcons.2 (.inr hu)).resolve_left fun hr ↦ (hl' hu).asymm hr.2

end Separated

/-! ### Counting -/

section Count

instance (l : List (α × α)) : DecidablePred (Covers l) := fun u ↦
  inferInstanceAs (Decidable (∃ r ∈ l, r.1 ≤ u ∧ u < r.2))

variable [LocallyFiniteOrder α] {l l' : List (α × α)} {r : α × α} {a b : α}

/-- The elements of `[a, b)` that are covered. -/
def coveredCount (l : List (α × α)) (a b : α) : ℕ := ((Finset.Ico a b).filter (Covers l)).card

theorem coveredCount_congr (h : ∀ u, Covers l u ↔ Covers l' u) :
    coveredCount l a b = coveredCount l' a b :=
  congrArg Finset.card (Finset.filter_congr fun u _ ↦ h u)

theorem coveredCount_eq_zero (h : ∀ u, a ≤ u → u < b → ¬Covers l u) : coveredCount l a b = 0 :=
  Finset.card_eq_zero.2 (Finset.filter_eq_empty_iff.2 fun u hu ↦
    h u (Finset.mem_Ico.1 hu).1 (Finset.mem_Ico.1 hu).2)

/-- An interval that `[a, b)` does not meet is not counted. -/
theorem coveredCount_cons_of_disjoint (h : r.2 ≤ a ∨ b ≤ r.1) :
    coveredCount (r :: l) a b = coveredCount l a b := by
  refine congrArg Finset.card (Finset.filter_congr fun u hu ↦ ?_)
  obtain ⟨ha, hb⟩ := Finset.mem_Ico.1 hu
  rw [covers_cons]
  refine or_iff_right fun hr ↦ ?_
  rcases h with h | h
  · exact (hr.2.trans_le h).not_ge ha
  · exact (hb.trans_le h).not_ge hr.1

/-- The overlap with the first interval is counted apart from the others. -/
theorem Separated.coveredCount_cons (h : Separated (r :: l)) :
    coveredCount (r :: l) a b = (Finset.Ico (max a r.1) (min b r.2)).card + coveredCount l a b := by
  unfold coveredCount
  rw [← Finset.card_union_of_disjoint]
  · refine congrArg Finset.card (Finset.ext fun u ↦ ?_)
    simp only [Finset.mem_filter, Finset.mem_union, Finset.mem_Ico, covers_cons, max_le_iff,
      lt_min_iff]
    tauto
  · refine Finset.disjoint_left.2 fun u hu hl ↦ ?_
    have hend := (lt_min_iff.1 (Finset.mem_Ico.1 hu).2).2
    exact (h.lt_of_covers_tail (Finset.mem_filter.1 hl).2).asymm hend

end Count

/-! ### Merging -/

/-- One interval more. The merged list has its last interval first. -/
def mergeStep (merged : List (α × α)) (r : α × α) : List (α × α) :=
  if r.2 ≤ r.1 then merged
  else
    match merged with
    | [] => [r]
    | last :: rest =>
      if r.1 ≤ last.2 then (last.1, max last.2 r.2) :: rest else r :: last :: rest

/-- What merging keeps: the list is separated, starts no later than the intervals to come and covers
what was merged. -/
structure Merged (done merged : List (α × α)) (low : α) : Prop where
  separated : Separated merged.reverse
  start_le : ∀ r ∈ merged, r.1 ≤ low
  covers : ∀ u, Covers merged u ↔ Covers done u

namespace Merged

variable {done merged : List (α × α)} {low : α} {r : α × α}

theorem step (h : Merged done merged low) (hlow : low ≤ r.1) :
    Merged (done ++ [r]) (mergeStep merged r) r.1 := by
  have hone : ∀ u, Covers [r] u ↔ r.1 ≤ u ∧ u < r.2 := fun u ↦ by simp [Covers]
  unfold mergeStep
  split
  · -- an interval without elements
    rename_i hempty
    refine ⟨h.separated, fun s hs ↦ (h.start_le s hs).trans hlow, fun u ↦ ?_⟩
    rw [covers_append, hone, h.covers]
    exact ⟨.inl, fun hu ↦ hu.resolve_right fun hr ↦ (hr.1.trans_lt hr.2).not_ge hempty⟩
  rename_i hne
  cases merged with
  | nil =>
    refine ⟨⟨fun s hs ↦ ?_, .cons nofun .nil⟩, fun s hs ↦ ?_, fun u ↦ ?_⟩
    · obtain rfl := mem_singleton.1 hs
      exact not_le.1 hne
    · exact (mem_singleton.1 hs) ▸ le_rfl
    · rw [covers_append, ← h.covers]
      exact ⟨.inr, fun hu ↦ hu.resolve_left (not_covers_nil u)⟩
  | cons last rest =>
    have hlast := h.start_le last mem_cons_self
    have hsep := h.separated
    rw [reverse_cons] at hsep
    have hpos := hsep.nonempty last (mem_append_right _ (mem_singleton_self _))
    have hparts := pairwise_append.1 hsep.apart
    dsimp only
    split
    · -- the interval touches or meets the last one
      rename_i htouch
      refine ⟨?_, ?_, fun u ↦ ?_⟩
      · rw [reverse_cons]
        refine ⟨fun s hs ↦ ?_, pairwise_append.2 ⟨hparts.1, pairwise_singleton _ _, ?_⟩⟩
        · rcases mem_append.1 hs with hs | hs
          · exact hsep.nonempty s (mem_append_left _ hs)
          · obtain rfl := mem_singleton.1 hs
            exact lt_max_of_lt_left hpos
        · intro a ha b hb
          obtain rfl := mem_singleton.1 hb
          exact hparts.2.2 a ha last (mem_singleton_self _)
      · intro s hs
        rcases mem_cons.1 hs with rfl | hs
        · exact hlast.trans hlow
        · exact (h.start_le s (mem_cons_of_mem _ hs)).trans hlow
      · rw [covers_append, hone, ← h.covers, covers_cons, covers_cons, lt_max_iff]
        have hstart := hlast.trans hlow
        constructor
        · rintro (⟨hlow, hu | hu⟩ | hu)
          · exact .inl (.inl ⟨hlow, hu⟩)
          · rcases lt_or_ge u r.1 with hlt | hge
            · exact .inl (.inl ⟨hlow, hlt.trans_le htouch⟩)
            · exact .inr ⟨hge, hu⟩
          · exact .inl (.inr hu)
        · rintro ((hu | hu) | hu)
          · exact .inl ⟨hu.1, .inl hu.2⟩
          · exact .inr hu
          · exact .inl ⟨hstart.trans hu.1, .inr hu.2⟩
    · -- there is a gap
      rename_i hgap
      refine ⟨?_, ?_, fun u ↦ ?_⟩
      · rw [reverse_cons, reverse_cons]
        refine ⟨fun s hs ↦ ?_, pairwise_append.2 ⟨hsep.apart, pairwise_singleton _ _, ?_⟩⟩
        · rcases mem_append.1 hs with hs | hs
          · exact hsep.nonempty s hs
          · exact (mem_singleton.1 hs) ▸ not_le.1 hne
        · intro a ha b hb
          obtain rfl := mem_singleton.1 hb
          rcases mem_append.1 ha with ha | ha
          · exact (hparts.2.2 a ha last (mem_singleton_self _)).trans (hpos.trans (not_le.1 hgap))
          · exact (mem_singleton.1 ha) ▸ not_le.1 hgap
      · intro s hs
        rcases mem_cons.1 hs with rfl | hs
        · exact le_rfl
        · exact (h.start_le s hs).trans hlow
      · rw [covers_append, hone, ← h.covers, covers_cons]
        exact or_comm

/-- Merging the intervals in the order of their starts. -/
theorem foldl {l : List (α × α)} (h : Merged done merged low) (hlow : ∀ r ∈ l, low ≤ r.1)
    (hsorted : l.Pairwise fun a b ↦ a.1 ≤ b.1) :
    ∃ low', Merged (done ++ l) (l.foldl mergeStep merged) low' := by
  induction l generalizing done merged low with
  | nil => exact ⟨low, by simpa using h⟩
  | cons r l ih =>
    obtain ⟨hfirst, hrest⟩ := pairwise_cons.1 hsorted
    have := ih (h.step (hlow r mem_cons_self)) hfirst hrest
    rwa [append_assoc] at this

end Merged

end Storage
