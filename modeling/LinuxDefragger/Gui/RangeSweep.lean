import LinuxDefragger.Gui.Ranges

/-!
# Sweeping over ranges

`aggregate_ranges` sorts and clamps its ranges first, and then counts them with two indices that
move forward only. The result is the map of the function that gives a unit the state of the range
around it (`aggregateRanges_eq`).
-/

open Except List Storage

namespace LinuxDefragger.Gui

/-! ### Ordered spans -/

/-- A unit lies in a span. -/
def Span.Has (span : Span) (u : ℕ) : Prop := span.start ≤ u ∧ u < span.stop

instance (span : Span) (u : ℕ) : Decidable (span.Has u) := inferInstanceAs (Decidable (_ ∧ _))

/-- The state of the first span around a unit; a unit in no span is unknown. -/
def spanState : List Span → ℕ → UnitState
  | [], _ => .unknown
  | span :: rest, u => if span.Has u then span.state else spanState rest u

/-- Nonempty spans in order, none reaching into the next. -/
structure Ordered (spans : List Span) : Prop where
  nonempty : ∀ span ∈ spans, span.start < span.stop
  pairwise : spans.Pairwise fun a b ↦ a.stop ≤ b.start

variable {spans' : List Span} {a : ℕ}

section

variable {span : Span} {spans : List Span} {u : ℕ}

theorem Ordered.sublist (h : Ordered spans) (hs : spans'.Sublist spans) : Ordered spans' :=
  ⟨fun span hspan ↦ h.nonempty span (hs.subset hspan), h.pairwise.sublist hs⟩

theorem spanState_of_not_has (h : ∀ span ∈ spans, ¬span.Has u) : spanState spans u = .unknown := by
  induction spans with
  | nil => rfl
  | cons span rest ih =>
    obtain ⟨hspan, hrest⟩ := forall_mem_cons.1 h
    rw [spanState, if_neg hspan, ih hrest]

/-- A unit lies in at most one of ordered spans, and has its state. -/
theorem Ordered.spanState_eq (h : Ordered spans) (hmem : span ∈ spans) (hu : span.Has u) :
    spanState spans u = span.state := by
  induction spans with
  | nil => cases hmem
  | cons first rest ih =>
    have hrest := h.sublist (sublist_cons_self first rest)
    rw [spanState]
    rcases mem_cons.1 hmem with rfl | hmem
    · rw [if_pos hu]
    · have hle := rel_of_pairwise_cons h.pairwise hmem
      rw [if_neg fun hfirst ↦ absurd (hfirst.2.trans_le (hle.trans hu.1)) (lt_irrefl u),
        ih hrest hmem]

/-- Units from the end of the first span on have the states of the others. -/
theorem spanState_cons_of_le (hu : span.stop ≤ u) :
    spanState (span :: spans) u = spanState spans u := by
  rw [spanState, if_neg fun h ↦ absurd (h.2.trans_le hu) (lt_irrefl u)]

/-- Units before the first span are in none. -/
theorem Ordered.spanState_of_lt (h : Ordered (span :: spans)) (hu : u < span.start) :
    spanState (span :: spans) u = .unknown := by
  refine spanState_of_not_has (forall_mem_cons.2 ⟨fun hhas ↦ ?_, fun other hother hhas ↦ ?_⟩)
  · exact absurd (hhas.1.trans_lt hu) (lt_irrefl _)
  · have hle := rel_of_pairwise_cons h.pairwise hother
    have hlt := h.nonempty span mem_cons_self
    have := hhas.1
    omega

/-- Skipping the spans that end before the cell changes no unit of it. -/
theorem spanState_dropWhile (hu : a ≤ u) :
    spanState (spans.dropWhile fun span ↦ span.stop ≤ a) u = spanState spans u := by
  induction spans with
  | nil => rfl
  | cons span rest ih =>
    by_cases hle : span.stop ≤ a
    · rw [dropWhile_cons_of_pos (by simpa using hle), ih, spanState_cons_of_le (hle.trans hu)]
    · rw [dropWhile_cons_of_neg (by simpa using hle)]

theorem Ordered.lt_stop_of_mem_dropWhile (h : Ordered spans) :
    ∀ span ∈ spans.dropWhile (fun span ↦ span.stop ≤ a), a < span.stop := by
  induction spans with
  | nil => exact fun span hspan ↦ by cases hspan
  | cons first rest ih =>
    by_cases hle : first.stop ≤ a
    · rw [dropWhile_cons_of_pos (by simpa using hle)]
      exact ih (h.sublist (sublist_cons_self first rest))
    · rw [dropWhile_cons_of_neg (by simpa using hle)]
      refine forall_mem_cons.2 ⟨not_le.1 hle, fun span hspan ↦ ?_⟩
      have hnext := rel_of_pairwise_cons h.pairwise hspan
      have hne := h.nonempty span (mem_cons_of_mem _ hspan)
      omega

end

/-! ### One cell -/

/-- Adding the width of a piece on which the state does not change. -/
theorem Counts.add_eq_tally (counts : Counts) {f : ℕ → UnitState} {s : UnitState} {b : ℕ}
    (h : ∀ u, a ≤ u → u < b → f u = s) : counts.add s (b - a) = counts + tally f a b := by
  funext k
  show counts.add s (b - a) k = counts k + tally f a b k
  rw [Counts.add_apply, tally_const h]

/-- **What the inner loop counts**: the units from `cursor` up to where it stops, behind which the
cell holds no span. -/
theorem sweepSpans_eq {start stop cursor : ℕ} {spans : List Span} (hspans : Ordered spans)
    (hlt : start < stop) (hstart : start ≤ cursor) (hstop : cursor ≤ stop)
    (hfrom : ∀ span ∈ spans, start < span.stop)
    (hnext : ∀ span ∈ spans, cursor ≤ max start span.start) (counts : Counts) :
    ∃ cursor', sweepSpans start stop spans cursor counts =
        (cursor', counts + tally (spanState spans) cursor cursor') ∧
      cursor ≤ cursor' ∧ cursor' ≤ stop ∧
      ∀ u, cursor' ≤ u → u < stop → spanState spans u = .unknown := by
  induction spans generalizing cursor counts with
  | nil =>
    refine ⟨cursor, ?_, le_rfl, hstop, fun _ _ _ ↦ rfl⟩
    have hzero : tally (spanState []) cursor cursor = 0 := funext fun k ↦ tally_of_le le_rfl
    rw [sweepSpans, hzero, add_zero]
  | cons span rest ih =>
    have hrest := hspans.sublist (sublist_cons_self span rest)
    obtain ⟨hspanFrom, hrestFrom⟩ := forall_mem_cons.1 hfrom
    have hspanNext := (forall_mem_cons.1 hnext).1
    have hne := hspans.nonempty span mem_cons_self
    rw [sweepSpans]
    by_cases hbefore : span.start < stop
    · have hoverlap : max start span.start < min stop span.stop := by omega
      -- the units up to the span are in no span, those of the overlap have its state
      have hgap : ∀ u, cursor ≤ u → u < max start span.start →
          spanState (span :: rest) u = .unknown :=
        fun u hle hu ↦ hspans.spanState_of_lt (by omega)
      have hin : ∀ u, max start span.start ≤ u → u < min stop span.stop →
          spanState (span :: rest) u = span.state :=
        fun u hle hu ↦ if_pos ⟨by omega, by omega⟩
      have hgapCounts : (if max start span.start > cursor then
          counts.add .unknown (max start span.start - cursor) else counts) =
          counts + tally (spanState (span :: rest)) cursor (max start span.start) := by
        rw [← Counts.add_eq_tally counts hgap]
        split_ifs with hgt
        · rfl
        · rw [Nat.sub_eq_zero_of_le (not_lt.1 hgt)]
          exact (Function.update_eq_self _ counts).symm
      have hcounts : (counts + tally (spanState (span :: rest)) cursor (max start span.start)).add
          span.state (min stop span.stop - max start span.start) =
          counts + tally (spanState (span :: rest)) cursor (min stop span.stop) := by
        rw [Counts.add_eq_tally _ hin, add_assoc]
        congr 1
        exact funext fun k ↦ (tally_append hspanNext hoverlap.le).symm
      rw [if_pos hbefore]
      dsimp only
      rw [hgapCounts, if_pos hoverlap, hcounts,
        max_eq_right (by omega : cursor ≤ min stop span.stop)]
      by_cases hlast : span.stop > stop
      · rw [if_pos hlast]
        exact ⟨min stop span.stop, rfl, by omega, by omega, fun u hle hu ↦ by omega⟩
      · rw [if_neg hlast, min_eq_right (not_lt.1 hlast)]
        have hbehind : ∀ other ∈ rest, span.stop ≤ max start other.start := fun other hother ↦
          (rel_of_pairwise_cons hspans.pairwise hother).trans (le_max_right _ _)
        obtain ⟨cursor', heq, hle, hle', hunknown⟩ := ih hrest (by omega : start ≤ span.stop)
          (not_lt.1 hlast) hrestFrom hbehind
          (counts + tally (spanState (span :: rest)) cursor span.stop)
        refine ⟨cursor', ?_, by omega, hle', fun u hu hu' ↦ ?_⟩
        · rw [heq, add_assoc]
          congr 2
          funext k
          rw [@tally_append _ _ (spanState (span :: rest)) cursor span.stop cursor' k
            (by omega) hle,
            @tally_congr _ _ (spanState (span :: rest)) (spanState rest) span.stop cursor' k
              fun u hu _ ↦ spanState_cons_of_le hu]
          rfl
        · rw [spanState_cons_of_le (hle.trans hu), hunknown u hu hu']
    · rw [if_neg hbefore]
      have hzero : tally (spanState (span :: rest)) cursor cursor = 0 :=
        funext fun k ↦ tally_of_le le_rfl
      refine ⟨cursor, by rw [hzero, add_zero], le_rfl, hstop, fun u _ hu ↦ ?_⟩
      exact hspans.spanState_of_lt (by omega)

/-- **One cell of `aggregate_ranges`.** -/
theorem SweepState.step_eq {st : SweepState} (hspans : Ordered st.rest) {b : ℕ} (hab : a < b) :
    st.step (a, b) = ⟨st.rest.dropWhile fun span ↦ span.stop ≤ a,
      st.totals + tally (spanState st.rest) a b,
      st.cells ++ [cellOf (spanState st.rest) (a, b)]⟩ := by
  set rest := st.rest.dropWhile fun span ↦ span.stop ≤ a with hrest
  have hordered : Ordered rest := hspans.sublist (dropWhile_sublist _)
  obtain ⟨cursor, hsweep, hle, hle', hunknown⟩ := sweepSpans_eq hordered hab le_rfl hab.le
    hspans.lt_stop_of_mem_dropWhile (fun span _ ↦ le_max_left _ _) 0
  have hcounts : (if cursor < b then
      Counts.add (0 + tally (spanState rest) a cursor) .unknown (b - cursor)
      else 0 + tally (spanState rest) a cursor) = tally (spanState st.rest) a b := by
    have hall : tally (spanState rest) a cursor + tally (spanState rest) cursor b =
        tally (spanState st.rest) a b := funext fun k ↦ by
      show tally (spanState rest) a cursor k + tally (spanState rest) cursor b k = _
      rw [← tally_append hle hle']
      exact tally_congr fun u hu _ ↦ spanState_dropWhile hu
    rw [← hall, zero_add]
    split_ifs with hlt
    · exact Counts.add_eq_tally _ hunknown
    · have hzero : tally (spanState rest) cursor b = 0 := funext fun k ↦ tally_of_le (not_lt.1 hlt)
      rw [hzero, add_zero]
  rw [SweepState.step]
  dsimp only
  have hsweep : sweepSpans a b rest a (fun _ ↦ 0) = _ := hsweep
  rw [← hrest, hsweep]
  dsimp only
  rw [hcounts]
  rfl

theorem foldl_sweepStep {f : ℕ → UnitState} {z : ℕ} {l : List (ℕ × ℕ)} (h : Tiles a l z)
    {spans : List Span} (hspans : Ordered spans) (hf : ∀ u, a ≤ u → spanState spans u = f u)
    (totals : Counts) (cells : List Cell) :
    ∃ rest, l.foldl SweepState.step ⟨spans, totals, cells⟩ =
      ⟨rest, totals + tally f a z, cells ++ l.map (cellOf f)⟩ := by
  induction h generalizing spans totals cells with
  | nil a =>
    have hzero : tally f a a = 0 := funext fun k ↦ tally_of_le le_rfl
    exact ⟨spans, by rw [foldl_nil, map_nil, append_nil, hzero, add_zero]⟩
  | @cons a b z l hab hl ih =>
    have hcell : tally (spanState spans) a b = tally f a b :=
      funext fun k ↦ tally_congr fun u hu _ ↦ hf u hu
    have hsum : tally f a z = tally f a b + tally f b z := funext fun k ↦ tally_append hab.le hl.le
    obtain ⟨rest, hrest⟩ := ih (hspans.sublist (dropWhile_sublist _))
      (fun u hu ↦ (spanState_dropWhile (hab.le.trans hu)).trans (hf u (hab.le.trans hu)))
      (totals + tally f a b) (cells ++ [cellOf f (a, b)])
    refine ⟨rest, ?_⟩
    rw [foldl_cons, SweepState.step_eq hspans hab]
    dsimp only [cellOf]
    rw [hcell, hsum, ← add_assoc, map_cons]
    rw [append_assoc, singleton_append] at hrest
    exact hrest

/-! ### Normalising the ranges -/

/-- A unit lies in a range. -/
def StateRange.Has (r : StateRange) (u : ℕ) : Prop := r.start ≤ u ∧ (u : ℤ) < r.stop

instance (r : StateRange) (u : ℕ) : Decidable (r.Has u) := inferInstanceAs (Decidable (_ ∧ _))

/-- Two ranges share a unit of the volume. -/
def Overlap (totalUnits : ℕ) (r r' : StateRange) : Prop := ∃ u < totalUnits, r.Has u ∧ r'.Has u

/-- A range with a unit of the volume has one of the four states. -/
def ValidState (totalUnits : ℕ) (r : StateRange) : Prop :=
  ∀ u < totalUnits, r.Has u → (UnitState.ofInt? r.state).isSome

/-- The units of a clamped range are those of the range. -/
theorem clampUnit_has {totalUnits u : ℕ} (r : StateRange) (hu : u < totalUnits) :
    clampUnit totalUnits r.start ≤ u ∧ u < clampUnit totalUnits r.stop ↔ r.Has u := by
  rw [clampUnit, clampUnit, StateRange.Has]
  omega

theorem clampUnit_le (totalUnits : ℕ) (x : ℤ) : clampUnit totalUnits x ≤ totalUnits := by
  rw [clampUnit]
  omega

theorem clampUnit_mono (totalUnits : ℕ) {x y : ℤ} (h : x ≤ y) :
    clampUnit totalUnits x ≤ clampUnit totalUnits y := by
  rw [clampUnit, clampUnit]
  omega

/-- What the loop of `_normalise_state_ranges` has established for the ranges `done` it has
passed. -/
structure Normalised (totalUnits : ℕ) (done : List StateRange) (spans : List Span) : Prop where
  ordered : Ordered spans.reverse
  le : ∀ span ∈ spans, span.stop ≤ totalUnits
  /-- The spans start where ranges start. -/
  start : ∀ span ∈ spans, ∃ r ∈ done, span.start = clampUnit totalUnits r.start
  /-- The spans hold the units of the ranges, with their states. -/
  has : ∀ u < totalUnits, ∀ s, (∃ span ∈ spans, span.Has u ∧ span.state = s) ↔
    ∃ r ∈ done, r.Has u ∧ UnitState.ofInt? r.state = some s
  valid : ∀ r ∈ done, ValidState totalUnits r
  disjoint : done.Pairwise fun r r' ↦ ¬Overlap totalUnits r r'

theorem Normalised.nil (totalUnits : ℕ) : Normalised totalUnits [] [] where
  ordered := ⟨(fun _ h ↦ by cases h), .nil⟩
  le _ h := by cases h
  start _ h := by cases h
  has _ _ _ := by simp
  valid _ h := by cases h
  disjoint := .nil

section

variable {totalUnits : ℕ} {done : List StateRange} {spans : List Span} {r : StateRange}

theorem Normalised.has_iff (h : Normalised totalUnits done spans) {u : ℕ} (hu : u < totalUnits) :
    (∃ span ∈ spans, span.Has u) ↔ ∃ r ∈ done, r.Has u := by
  constructor
  · rintro ⟨span, hspan, hhas⟩
    obtain ⟨r, hr, hr', -⟩ := (h.has u hu span.state).1 ⟨span, hspan, hhas, rfl⟩
    exact ⟨r, hr, hr'⟩
  · rintro ⟨r, hr, hhas⟩
    obtain ⟨s, hs⟩ := Option.isSome_iff_exists.1 (h.valid r hr u hu hhas)
    obtain ⟨span, hspan, hspan', -⟩ := (h.has u hu s).2 ⟨r, hr, hhas, hs⟩
    exact ⟨span, hspan, hspan'⟩

/-- The last span ends where no earlier one reaches. -/
theorem Ordered.le_of_reverse {first : Span} (h : Ordered (first :: spans).reverse) :
    ∀ span ∈ first :: spans, span.stop ≤ first.stop := by
  have hpairs := pairwise_cons.1 (pairwise_reverse.1 h.pairwise)
  have hne := h.nonempty first (by simp)
  refine forall_mem_cons.2 ⟨le_rfl, fun span hspan ↦ ?_⟩
  have := hpairs.1 span hspan
  omega

theorem Ordered.cons_reverse {first : Span} (h : Ordered spans.reverse)
    (hne : first.start < first.stop) (hle : ∀ span ∈ spans, span.stop ≤ first.start) :
    Ordered (first :: spans).reverse := by
  refine ⟨?_, ?_⟩
  · intro span hspan
    rcases mem_cons.1 (mem_reverse.1 hspan) with rfl | hspan
    · exact hne
    · exact h.nonempty span (mem_reverse.2 hspan)
  · rw [pairwise_reverse]
    exact pairwise_cons.2 ⟨hle, pairwise_reverse.1 h.pairwise⟩

section

variable (h : Normalised totalUnits done spans)
include h

/-- A range outside the volume adds nothing. -/
theorem Normalised.skip (hr : clampUnit totalUnits r.stop ≤ clampUnit totalUnits r.start) :
    Normalised totalUnits (done ++ [r]) spans := by
  have hnone : ∀ u < totalUnits, ¬r.Has u := by
    intro u hu hhas
    have := (clampUnit_has r hu).2 hhas
    omega
  refine ⟨h.ordered, h.le, fun span hspan ↦ ?_, fun u hu s ↦ ?_, ?_, ?_⟩
  · obtain ⟨r', hr', heq⟩ := h.start span hspan
    exact ⟨r', mem_append_left _ hr', heq⟩
  · rw [h.has u hu s]
    simp only [mem_append, mem_singleton, or_and_right, exists_or, exists_eq_left]
    exact (or_iff_left fun hhas ↦ hnone u hu hhas.1).symm
  · simp only [mem_append, mem_singleton]
    rintro r' (hr' | rfl)
    · exact h.valid r' hr'
    · exact fun u hu hhas ↦ absurd hhas (hnone u hu)
  · refine pairwise_append.2 ⟨h.disjoint, pairwise_singleton _ _, ?_⟩
    rintro r' - _ (_ | ⟨_, ⟨⟩⟩) ⟨u, hu, -, hhas⟩
    exact hnone u hu hhas

/-- A range behind all spans is appended; `spans'` may hold it on its own or as the end of the last
span. -/
theorem Normalised.push {s : UnitState} (hs : UnitState.ofInt? r.state = some s)
    (hbehind : ∀ span ∈ spans, span.stop ≤ clampUnit totalUnits r.start)
    (hordered : Ordered spans'.reverse) (hle : ∀ span ∈ spans', span.stop ≤ totalUnits)
    (hstart : ∀ span ∈ spans', (∃ span' ∈ spans, span.start = span'.start) ∨
      span.start = clampUnit totalUnits r.start)
    (hhas : ∀ u s', (∃ span ∈ spans', span.Has u ∧ span.state = s') ↔
      (∃ span ∈ spans, span.Has u ∧ span.state = s') ∨
        (clampUnit totalUnits r.start ≤ u ∧ u < clampUnit totalUnits r.stop) ∧ s = s') :
    Normalised totalUnits (done ++ [r]) spans' := by
  refine ⟨hordered, hle, fun span hspan ↦ ?_, fun u hu s' ↦ ?_, ?_, ?_⟩
  · rcases hstart span hspan with ⟨span', hspan', heq⟩ | heq
    · obtain ⟨r', hr', heq'⟩ := h.start span' hspan'
      exact ⟨r', mem_append_left _ hr', heq.trans heq'⟩
    · exact ⟨r, mem_append_right _ (mem_singleton_self r), heq⟩
  · rw [hhas, h.has u hu s', clampUnit_has r hu]
    simp only [mem_append, mem_singleton, or_and_right, exists_or, exists_eq_left, hs,
      Option.some.injEq]
  · simp only [mem_append, mem_singleton]
    rintro r' (hr' | rfl)
    · exact h.valid r' hr'
    · exact fun u _ _ ↦ by rw [hs]; rfl
  · refine pairwise_append.2 ⟨h.disjoint, pairwise_singleton _ _, ?_⟩
    rintro r' hr' _ (_ | ⟨_, ⟨⟩⟩) ⟨u, hu, hhas', hhas⟩
    -- a unit of both would lie in a span, and these end before the range
    obtain ⟨span, hspan, hin⟩ := (h.has_iff hu).2 ⟨r', hr', hhas'⟩
    have hfrom := ((clampUnit_has r hu).2 hhas).1
    have hend := hbehind span hspan
    have := hin.2
    omega

/-- **One round of the normalisation keeps its invariant.** -/
theorem Normalised.step (hok : normaliseStep totalUnits spans r = .ok spans') :
    Normalised totalUnits (done ++ [r]) spans' := by
  rw [normaliseStep] at hok
  split_ifs at hok with hempty
  · obtain rfl := ok.inj hok
    exact h.skip hempty
  cases hs : UnitState.ofInt? r.state with
  | none =>
    rw [hs] at hok
    cases hok
  | some s =>
    rw [hs] at hok
    dsimp only at hok
    rcases spans with _ | ⟨previous, rest⟩
    · obtain rfl := ok.inj hok
      refine h.push hs (fun _ hspan ↦ by cases hspan) ?_ ?_ ?_ fun u s' ↦ ?_
      · exact h.ordered.cons_reverse (not_le.1 hempty) fun _ hspan ↦ by cases hspan
      · simpa using clampUnit_le totalUnits r.stop
      · simp
      · simp [Span.Has]
    · dsimp only at hok
      split_ifs at hok with hbefore hjoin
      · -- the range continues the last span
        obtain rfl := ok.inj hok
        obtain ⟨hstart, rfl⟩ := hjoin
        have hbehind : ∀ span ∈ previous :: rest, span.stop ≤ clampUnit totalUnits r.start :=
          fun span hspan ↦ (h.ordered.le_of_reverse span hspan).trans_eq hstart.symm
        have hne := h.ordered.nonempty previous (by simp)
        have hpairs := pairwise_cons.1 (pairwise_reverse.1 h.ordered.pairwise)
        refine h.push hs hbehind ?_ ?_ ?_ fun u s' ↦ ?_
        · refine Ordered.cons_reverse (h.ordered.sublist ?_) ?_ hpairs.1
          · exact reverse_sublist.2 (sublist_cons_self previous rest)
          · show previous.start < clampUnit totalUnits r.stop
            omega
        · refine forall_mem_cons.2 ⟨clampUnit_le totalUnits r.stop, fun span hspan ↦ ?_⟩
          exact h.le span (mem_cons_of_mem _ hspan)
        · refine forall_mem_cons.2 ⟨.inl ⟨previous, mem_cons_self, rfl⟩, fun span hspan ↦ ?_⟩
          exact .inl ⟨span, mem_cons_of_mem _ hspan, rfl⟩
        · simp only [mem_cons, or_and_right, exists_or, exists_eq_left, Span.Has]
          have hsplit : previous.start ≤ u ∧ u < clampUnit totalUnits r.stop ↔
              (previous.start ≤ u ∧ u < previous.stop) ∨
                clampUnit totalUnits r.start ≤ u ∧ u < clampUnit totalUnits r.stop := by
            omega
          rw [hsplit, or_and_right]
          exact or_right_comm
      · obtain rfl := ok.inj hok
        have hbehind : ∀ span ∈ previous :: rest, span.stop ≤ clampUnit totalUnits r.start :=
          fun span hspan ↦ (h.ordered.le_of_reverse span hspan).trans (not_lt.1 hbefore)
        refine h.push hs hbehind ?_ ?_ ?_ fun u s' ↦ ?_
        · exact h.ordered.cons_reverse (not_le.1 hempty) hbehind
        · exact forall_mem_cons.2 ⟨clampUnit_le totalUnits r.stop, h.le⟩
        · refine forall_mem_cons.2 ⟨.inr rfl, fun span hspan ↦ .inl ⟨span, hspan, rfl⟩⟩
        · rw [exists_mem_cons_iff]
          exact or_comm

/-- A round with a range that starts behind the others stops only if the range is invalid or
overlaps one of them. -/
theorem Normalised.exists_step
    (hsorted : ∀ r' ∈ done, r'.start ≤ r.start) (hvalid : ValidState totalUnits r)
    (hdisjoint : ∀ r' ∈ done, ¬Overlap totalUnits r' r) :
    ∃ spans', normaliseStep totalUnits spans r = .ok spans' := by
  rw [normaliseStep]
  split_ifs with hempty
  · exact ⟨_, rfl⟩
  have hlt : clampUnit totalUnits r.start < totalUnits :=
    (not_le.1 hempty).trans_le (clampUnit_le totalUnits r.stop)
  have hfirst : r.Has (clampUnit totalUnits r.start) :=
    (clampUnit_has r hlt).1 ⟨le_rfl, not_le.1 hempty⟩
  obtain ⟨s, hs⟩ := Option.isSome_iff_exists.1 (hvalid _ hlt hfirst)
  rw [hs]
  dsimp only
  rcases spans with _ | ⟨previous, rest⟩
  · exact ⟨_, rfl⟩
  dsimp only
  have hbehind : ¬clampUnit totalUnits r.start < previous.stop := by
    -- otherwise the first unit of the range lies in the last span, hence in an earlier range
    intro hbefore
    obtain ⟨r', hr', hstart⟩ := h.start previous mem_cons_self
    have hin : previous.Has (clampUnit totalUnits r.start) :=
      ⟨hstart.trans_le (clampUnit_mono totalUnits (hsorted r' hr')), hbefore⟩
    obtain ⟨r', hr', hhas⟩ := (h.has_iff hlt).1 ⟨previous, mem_cons_self, hin⟩
    exact hdisjoint r' hr' ⟨_, hlt, hhas, hfirst⟩
  rw [if_neg hbehind]
  split_ifs
  · exact ⟨_, rfl⟩
  · exact ⟨_, rfl⟩

/-- The loop of the normalisation over ranges in order. -/
theorem Normalised.foldlM {todo : List StateRange}
    (hok : todo.foldlM (normaliseStep totalUnits) spans = .ok spans') :
    Normalised totalUnits (done ++ todo) spans' := by
  induction todo generalizing done spans with
  | nil =>
    obtain rfl := ok.inj hok
    rwa [append_nil]
  | cons r todo ih =>
    obtain ⟨spans₁, h₁, hok⟩ := bind_eq_ok.1 hok
    have hall := ih (h.step h₁) hok
    rwa [append_assoc] at hall

theorem Normalised.exists_foldlM {todo : List StateRange}
    (hsorted : (done ++ todo).Pairwise fun r r' ↦ r.start ≤ r'.start)
    (hvalid : ∀ r ∈ todo, ValidState totalUnits r)
    (hdisjoint : (done ++ todo).Pairwise fun r r' ↦ ¬Overlap totalUnits r r') :
    ∃ spans', todo.foldlM (normaliseStep totalUnits) spans = .ok spans' := by
  induction todo generalizing done spans with
  | nil => exact ⟨spans, rfl⟩
  | cons r todo ih =>
    obtain ⟨hr, htodo⟩ := forall_mem_cons.1 hvalid
    have hbefore := fun r' hr' ↦ (pairwise_append.1 hsorted).2.2 r' hr' r mem_cons_self
    have hapart := fun r' hr' ↦ (pairwise_append.1 hdisjoint).2.2 r' hr' r mem_cons_self
    obtain ⟨spans₁, h₁⟩ := h.exists_step hbefore hr hapart
    rw [append_cons] at hsorted hdisjoint
    obtain ⟨spans', hspans'⟩ := ih (h.step h₁) hsorted htodo hdisjoint
    exact ⟨spans', bind_eq_ok.2 ⟨spans₁, h₁, hspans'⟩⟩

end

end

/-- The ranges share no unit of the volume. -/
def NonOverlapping (totalUnits : ℕ) (ranges : List StateRange) : Prop :=
  ranges.Pairwise fun r r' ↦ ¬Overlap totalUnits r r'

theorem overlap_symm {totalUnits : ℕ} {r r' : StateRange} (h : ¬Overlap totalUnits r r') :
    ¬Overlap totalUnits r' r :=
  fun ⟨u, hu, h₁, h₂⟩ ↦ h ⟨u, hu, h₂, h₁⟩

theorem rangeLe_iff {a b : StateRange} : rangeLe a b = true ↔ a.start < b.start ∨
    a.start = b.start ∧ (a.stop < b.stop ∨ a.stop = b.stop ∧ a.state ≤ b.state) :=
  decide_eq_true_iff

theorem pairwise_start_insertionSort (ranges : List StateRange) :
    (ranges.insertionSort (rangeLe · ·)).Pairwise fun r r' ↦ r.start ≤ r'.start := by
  have : Std.Total fun a b ↦ rangeLe a b = true := ⟨fun a b ↦ by
    simp only [rangeLe_iff]
    omega⟩
  have : IsTrans StateRange fun a b ↦ rangeLe a b = true := ⟨fun a b c h₁ h₂ ↦ by
    simp only [rangeLe_iff] at h₁ h₂ ⊢
    omega⟩
  refine (pairwise_insertionSort (fun a b ↦ rangeLe a b = true) ranges).imp fun h ↦ ?_
  rw [rangeLe_iff] at h
  omega

theorem normaliseStateRanges_normalised {totalUnits : ℕ} {ranges : List StateRange}
    {spans : List Span} (h : normaliseStateRanges ranges totalUnits = .ok spans) :
    Normalised totalUnits (ranges.insertionSort (rangeLe · ·)) spans.reverse := by
  rw [normaliseStateRanges, bind_eq_ok] at h
  obtain ⟨acc, hacc, h⟩ := h
  obtain rfl := ok.inj h
  rw [reverse_reverse]
  exact (Normalised.nil totalUnits).foldlM hacc

/-- **What `_normalise_state_ranges` accepts**: ranges that do not overlap inside the volume and
that have one of the four states there. -/
theorem normaliseStateRanges_eq_ok_iff {totalUnits : ℕ} {ranges : List StateRange} :
    (∃ spans, normaliseStateRanges ranges totalUnits = .ok spans) ↔
      NonOverlapping totalUnits ranges ∧ ∀ r ∈ ranges, ValidState totalUnits r := by
  have hperm := perm_insertionSort (rangeLe · ·) ranges
  have hpairs : NonOverlapping totalUnits (ranges.insertionSort (rangeLe · ·)) ↔
      NonOverlapping totalUnits ranges := hperm.pairwise_iff overlap_symm
  constructor
  · rintro ⟨spans, h⟩
    have hnormal := normaliseStateRanges_normalised h
    exact ⟨hpairs.1 hnormal.disjoint, fun r hr ↦ hnormal.valid r (hperm.mem_iff.2 hr)⟩
  · rintro ⟨hdisjoint, hvalid⟩
    obtain ⟨spans, hspans⟩ := (Normalised.nil totalUnits).exists_foldlM
      (pairwise_start_insertionSort ranges) (fun r hr ↦ hvalid r (hperm.mem_iff.1 hr))
      (hpairs.2 hdisjoint)
    exact ⟨spans.reverse, bind_eq_ok.2 ⟨spans, hspans, rfl⟩⟩

/-- The states of the units after the normalisation: that of a range around the unit, unknown if
there is none. -/
theorem spanState_of_normalise {totalUnits : ℕ} {ranges : List StateRange} {spans : List Span}
    (h : normaliseStateRanges ranges totalUnits = .ok spans) {u : ℕ} (hu : u < totalUnits) :
    (∀ r ∈ ranges, r.Has u → some (spanState spans u) = UnitState.ofInt? r.state) ∧
      ((∀ r ∈ ranges, ¬r.Has u) → spanState spans u = .unknown) := by
  have hnormal := normaliseStateRanges_normalised h
  have hmem : ∀ r, r ∈ ranges.insertionSort (rangeLe · ·) ↔ r ∈ ranges := fun r ↦
    (perm_insertionSort (rangeLe · ·) ranges).mem_iff
  have hordered := hnormal.ordered
  rw [reverse_reverse] at hordered
  refine ⟨fun r hr hhas ↦ ?_, fun hnone ↦ spanState_of_not_has fun span hspan hspanHas ↦ ?_⟩
  · obtain ⟨s, hs⟩ := Option.isSome_iff_exists.1 (hnormal.valid r ((hmem r).2 hr) u hu hhas)
    obtain ⟨span, hspan, hspanHas, rfl⟩ := (hnormal.has u hu s).2 ⟨r, (hmem r).2 hr, hhas, hs⟩
    rw [hordered.spanState_eq (mem_reverse.1 hspan) hspanHas, hs]
  · obtain ⟨r, hr, hhas⟩ := (hnormal.has_iff hu).1 ⟨span, mem_reverse.2 hspan, hspanHas⟩
    exact hnone r ((hmem r).1 hr) hhas

/-! ### The whole volume -/

theorem mapOf_congr {f g : ℕ → UnitState} {totalUnits : ℕ} (h : 0 < totalUnits)
    (hfg : ∀ u < totalUnits, f u = g u) (cellCount : ℤ) (unitSize : ℕ)
    (filesystem accuracy : String) :
    mapOf f totalUnits cellCount unitSize filesystem accuracy =
      mapOf g totalUnits cellCount unitSize filesystem accuracy := by
  have htally : ∀ a b, b ≤ totalUnits → tally f a b = tally g a b := fun a b hb ↦
    funext fun k ↦ tally_congr fun u _ hu ↦ hfg u (hu.trans_le hb)
  have hcells : (cellBounds totalUnits (clampCellCount cellCount totalUnits)).map (cellOf f) =
      (cellBounds totalUnits (clampCellCount cellCount totalUnits)).map (cellOf g) := by
    refine map_congr_left fun p hp ↦ ?_
    rw [cellOf, cellOf, htally _ _ ((tiles_bounds h cellCount).mem p hp).2.2]
  rw [mapOf, mapOf, hcells, htally 0 totalUnits le_rfl]

/-- **`aggregate_ranges` draws the map of its ranges.** -/
theorem aggregateRanges_eq {totalUnits : ℕ} (h : 0 < totalUnits) {ranges : List StateRange}
    {spans : List Span} (hspans : normaliseStateRanges ranges totalUnits = .ok spans)
    (cellCount : ℤ) (unitSize : ℕ) (filesystem accuracy : String) :
    aggregateRanges totalUnits cellCount unitSize filesystem ranges accuracy =
      .ok (mapOf (spanState spans) totalUnits cellCount unitSize filesystem accuracy) := by
  have hordered := (normaliseStateRanges_normalised hspans).ordered
  rw [reverse_reverse] at hordered
  obtain ⟨rest, hfold⟩ := foldl_sweepStep (tiles_bounds h cellCount) hordered (fun _ _ ↦ rfl) 0 []
  rw [aggregateRanges, hspans, ok_bind, hfold, zero_add, nil_append]
  rfl

/-- What every map is like: its cells are nonempty and list the units of the volume once and in
order, the counters of a cell add up to its width, and the bytes of all states to those of the
volume. -/
structure WellFormedMap (totalUnits : ℕ) (m : MapResult) : Prop where
  cells_nonempty : ∀ c ∈ m.cells, c.start ≤ c.last
  partition : m.cells.flatMap (fun c ↦ List.range' c.start (c.last + 1 - c.start)) =
    List.range totalUnits
  counts : ∀ c ∈ m.cells, c.free + c.used + c.unknown + c.bad = c.last + 1 - c.start
  bytes : m.freeBytes + m.usedBytes + m.unknownBytes = m.totalBytes

theorem sum_unitState (f : UnitState → ℕ) : ∑ k, f k = f .free + f .used + f .unknown + f .bad := by
  show ∑ k ∈ {UnitState.free, .used, .unknown, .bad}, f k = _
  simp [Nat.add_assoc]

theorem wellFormed_mapOf (f : ℕ → UnitState) {totalUnits : ℕ} (h : 0 < totalUnits) (cellCount : ℤ)
    (unitSize : ℕ) (filesystem accuracy : String) :
    WellFormedMap totalUnits (mapOf f totalUnits cellCount unitSize filesystem accuracy) := by
  have htiles := tiles_bounds h cellCount
  have hlast : ∀ p ∈ cellBounds totalUnits (clampCellCount cellCount totalUnits),
      p.1 < p.2 ∧ p.2 - 1 + 1 = p.2 := by
    intro p hp
    have := htiles.mem p hp
    omega
  refine ⟨?_, ?_, ?_, ?_⟩
  · rintro c hc
    obtain ⟨p, hp, rfl⟩ := mem_map.1 hc
    exact Nat.le_sub_one_of_lt (hlast p hp).1
  · have hall := htiles.flatMap_range'
    rw [Nat.sub_zero, ← range_eq_range'] at hall
    rw [← hall]
    show ((cellBounds totalUnits _).map (cellOf f)).flatMap _ = _
    rw [flatMap_map]
    refine flatMap_congr fun p hp ↦ ?_
    show range' p.1 (p.2 - 1 + 1 - p.1) = _
    rw [(hlast p hp).2]
  · rintro c hc
    obtain ⟨p, hp, rfl⟩ := mem_map.1 hc
    have hsum := sum_tally f p.1 p.2
    rw [sum_unitState] at hsum
    show _ = p.2 - 1 + 1 - p.1
    rw [(hlast p hp).2, ← hsum]
    rfl
  · have hsum := sum_tally f 0 totalUnits
    rw [sum_unitState, Nat.sub_zero] at hsum
    show tally f 0 totalUnits .free * unitSize + tally f 0 totalUnits .used * unitSize +
      (tally f 0 totalUnits .unknown + tally f 0 totalUnits .bad) * unitSize = totalUnits * unitSize
    rw [← Nat.add_mul, ← Nat.add_mul, ← Nat.add_assoc, hsum]

/-! ### The three aggregations are one -/

/-- The number of the state free or used. -/
def stateCode (used : Bool) : ℤ := if used then 1 else 0

theorem ofInt?_stateCode (used : Bool) :
    UnitState.ofInt? (stateCode used) = some (bitState used) := by
  cases used <;> rfl

/-- Ranges that give every unit of the volume its state. -/
def Describes (totalUnits : ℕ) (ranges : List StateRange) (used : ℕ → Bool) : Prop :=
  ∀ u < totalUnits, ∃ r ∈ ranges, r.Has u ∧ r.state = stateCode (used u)

section

variable {totalUnits : ℕ} {ranges : List StateRange}

theorem Describes.validState {used : ℕ → Bool} (h : Describes totalUnits ranges used)
    (hdisjoint : NonOverlapping totalUnits ranges) : ∀ r ∈ ranges, ValidState totalUnits r := by
  intro r hr u hu hhas
  obtain ⟨r', hr', hhas', hstate⟩ := h u hu
  have : Std.Symm fun r r' ↦ ¬Overlap totalUnits r r' := ⟨fun _ _ ↦ overlap_symm⟩
  rcases eq_or_ne r r' with rfl | hne
  · rw [hstate, ofInt?_stateCode]
    rfl
  · exact absurd ⟨u, hu, hhas, hhas'⟩ (hdisjoint.forall hr hr' hne)

/-- A unit is unknown if no range gives it another state. -/
theorem spanState_eq_unknown_iff {spans : List Span}
    (h : normaliseStateRanges ranges totalUnits = .ok spans) {u : ℕ} (hu : u < totalUnits) :
    spanState spans u = .unknown ↔ ∀ r ∈ ranges, r.Has u → r.state = 2 := by
  have hcode : ∀ z, UnitState.ofInt? z = some .unknown ↔ z = 2 := by
    intro z
    constructor
    · intro hz
      unfold UnitState.ofInt? at hz
      split at hz <;> first | rfl | cases hz
    · rintro rfl
      rfl
  obtain ⟨hin, hout⟩ := spanState_of_normalise h hu
  constructor
  · intro hunknown r hr hhas
    rw [← hcode, ← hin r hr hhas, hunknown]
  · intro hall
    by_cases hsome : ∃ r ∈ ranges, r.Has u
    · obtain ⟨r, hr, hhas⟩ := hsome
      exact Option.some.inj ((hin r hr hhas).trans ((hcode _).2 (hall r hr hhas)))
    · push Not at hsome
      exact hout hsome

end

/-- **The three aggregations agree.** For every volume of at least one unit and every requested
number of cells: a stream of free and used states, ranges that do not overlap and describe the same
states, and a bit map with the same bits give one and the same map. Every map of a stream or of
ranges is well-formed; a unit is counted as unknown if no range gives it another state; and ranges
that overlap inside the volume are rejected. -/
theorem aggregators_agree {totalUnits : ℕ} (h : 0 < totalUnits) (cellCount : ℤ) (unitSize : ℕ)
    (filesystem : String) :
    (∀ (used : ℕ → Bool) (ranges : List StateRange) (bitmap : List UInt8),
      NonOverlapping totalUnits ranges → Describes totalUnits ranges used →
      totalUnits ≤ 8 * bitmap.length → (∀ u < totalUnits, bitAt bitmap u = used u) →
      ∃ m, aggregateStates ((List.range totalUnits).map fun u ↦ stateCode (used u)) totalUnits
            cellCount unitSize filesystem "exact" = m ∧
          aggregateRanges totalUnits cellCount unitSize filesystem ranges "exact" = .ok m ∧
          aggregateBitmap bitmap totalUnits cellCount unitSize filesystem 0 = .ok m) ∧
    (∀ states accuracy, WellFormedMap totalUnits
      (aggregateStates states totalUnits cellCount unitSize filesystem accuracy)) ∧
    (∀ ranges accuracy, NonOverlapping totalUnits ranges →
      (∀ r ∈ ranges, ValidState totalUnits r) →
      ∃ m, aggregateRanges totalUnits cellCount unitSize filesystem ranges accuracy = .ok m ∧
        WellFormedMap totalUnits m ∧
        ∀ c ∈ m.cells, c.unknown = (List.range' c.start (c.last + 1 - c.start)).countP
          fun u ↦ ∀ r ∈ ranges, r.Has u → r.state = 2) ∧
    ∀ ranges accuracy, ¬NonOverlapping totalUnits ranges →
      ∃ e, aggregateRanges totalUnits cellCount unitSize filesystem ranges accuracy = .error e := by
  refine ⟨fun used ranges bitmap hdisjoint hdescribes hlength hbits ↦ ?_, fun states accuracy ↦ ?_,
    fun ranges accuracy hdisjoint hvalid ↦ ?_, fun ranges accuracy hoverlap ↦ ?_⟩
  · obtain ⟨spans, hspans⟩ := normaliseStateRanges_eq_ok_iff.2
      ⟨hdisjoint, hdescribes.validState hdisjoint⟩
    -- all three are the map of `bitState ∘ used`
    have hstream : ∀ u < totalUnits, streamState ((range totalUnits).map fun u ↦
        stateCode (used u)) u = bitState (used u) := by
      intro u hu
      rw [streamState, getElem?_map, getElem?_range hu]
      show (UnitState.ofInt? (stateCode (used u))).getD .unknown = _
      rw [ofInt?_stateCode]
      rfl
    have hranges : ∀ u < totalUnits, spanState spans u = bitState (used u) := by
      intro u hu
      obtain ⟨r, hr, hhas, hstate⟩ := hdescribes u hu
      have hsome := (spanState_of_normalise hspans hu).1 r hr hhas
      rw [hstate, ofInt?_stateCode] at hsome
      exact Option.some.inj hsome
    have hbitmap : ∀ u < totalUnits, bitmapState bitmap 0 u = bitState (used u) := by
      intro u hu
      rw [bitmapState, if_neg (Nat.not_lt_zero u), Nat.sub_zero, hbits u hu]
    refine ⟨mapOf (bitState ∘ used) totalUnits cellCount unitSize filesystem "exact", ?_, ?_, ?_⟩
    · rw [aggregateStates_eq h, mapOf_congr h hstream]
      rfl
    · rw [aggregateRanges_eq h hspans, mapOf_congr h hranges]
      rfl
    · rw [aggregateBitmap_eq h (by omega), mapOf_congr h hbitmap]
      rfl
  · rw [aggregateStates_eq h]
    exact wellFormed_mapOf _ h _ _ _ _
  · obtain ⟨spans, hspans⟩ := normaliseStateRanges_eq_ok_iff.2 ⟨hdisjoint, hvalid⟩
    refine ⟨_, aggregateRanges_eq h hspans _ _ _ _, wellFormed_mapOf _ h _ _ _ _, ?_⟩
    intro c hc
    obtain ⟨p, hp, rfl⟩ := mem_map.1 hc
    obtain ⟨-, hlt, hle⟩ := (tiles_bounds h cellCount).mem p hp
    show (range' p.1 (p.2 - p.1)).countP _ = (range' p.1 (p.2 - 1 + 1 - p.1)).countP _
    rw [show p.2 - 1 + 1 = p.2 by omega]
    refine countP_congr fun u hu ↦ ?_
    have hu' := mem_range'_1.1 hu
    rw [decide_eq_true_iff, decide_eq_true_iff]
    exact spanState_eq_unknown_iff hspans (by omega)
  · cases hresult : normaliseStateRanges ranges totalUnits with
    | ok spans => exact absurd (normaliseStateRanges_eq_ok_iff.1 ⟨spans, hresult⟩).1 hoverlap
    | error e => exact ⟨e, by rw [aggregateRanges, hresult]; rfl⟩

/-- A volume of ten units whose first four are used, as ranges that reach beyond it and as a bit
map. -/
theorem aggregators_agree_ten :
    ∃ m, aggregateStates [1, 1, 1, 1, 0, 0, 0, 0, 0, 0] 10 3 512 "ntfs" "exact" = m ∧
      aggregateRanges 10 3 512 "ntfs" [⟨4, 20, 0⟩, ⟨-3, 4, 1⟩] "exact" = .ok m ∧
      aggregateBitmap [0x0F, 0xFC] 10 3 512 "ntfs" 0 = .ok m := by
  refine (aggregators_agree (by decide) 3 512 "ntfs").1 (fun u ↦ decide (u < 4))
    [⟨4, 20, 0⟩, ⟨-3, 4, 1⟩] [0x0F, 0xFC] ?_ ?_ (by decide) (by decide)
  · refine pairwise_pair.2 ?_
    rintro ⟨u, -, ⟨h₁, -⟩, -, h₂⟩
    exact absurd (h₁.trans_lt h₂) (lt_irrefl _)
  · unfold Describes
    decide

end LinuxDefragger.Gui
