import LinuxDefragger.Native.Requests
import Mathlib.Data.List.GetD

/-!
# Exchanges go down

A pass over sources that are apart from each other and from the gaps only moves data down. `Down`
says this of the exchanges of a run: each takes whole blocks of one source, from at or above the end
of its gap, to the first bytes of the gap that are not filled yet, in the collector file as on the
device; no byte is exchanged or filled twice.
-/

open Function List

namespace LinuxDefragger.Native

/-- Members at different positions of a list are related, if the relation is symmetric. -/
theorem rel_of_getElem? {α : Type*} {R : α → α → Prop} {l : List α} (h : l.Pairwise R)
    (hsymm : ∀ {a b}, R a b → R b a) {i j : ℕ} {a b : α} (ha : l[i]? = some a)
    (hb : l[j]? = some b) (hne : i ≠ j) : R a b := by
  obtain ⟨hi, rfl⟩ := List.getElem?_eq_some_iff.1 ha
  obtain ⟨hj, rfl⟩ := List.getElem?_eq_some_iff.1 hb
  rcases Nat.lt_or_gt_of_ne hne with hlt | hlt
  · exact pairwise_iff_getElem.1 h _ _ hi hj hlt
  · exact hsymm (pairwise_iff_getElem.1 h _ _ hj hi hlt)

/-- The bytes that exchanges have filled of the gap at position `index`. -/
def filled (xs : List Exchange) (index : ℕ) : ℕ :=
  ((xs.filter fun x ↦ x.gap = index).map Exchange.length).sum

theorem filled_append (xs ys : List Exchange) (index : ℕ) :
    filled (xs ++ ys) index = filled xs index + filled ys index := by
  simp [filled]

theorem filled_singleton (x : Exchange) (index : ℕ) :
    filled [x] index = if x.gap = index then x.length else 0 := by
  by_cases h : x.gap = index <;> simp [filled, h]

/-- The exchange takes whole blocks of a source, from at or above the end of a gap, into the gap;
the kernel gets the file it opened for the source, and the collector's. -/
structure Exchange.GoesDown {σ : Type} (K : Kernel σ) (blockSize : ℕ) (gap : CollectorExtent)
    (source : SourceExtent)
    (x : Exchange) : Prop where
  pos : 0 < x.length
  blocks : blockSize ∣ x.length ∧ blockSize ∣ x.sourcePhysical
  slice : source.physical ≤ x.sourcePhysical ∧ x.sourcePhysical + x.length ≤ source.physicalEnd ∧
    x.sourceOffset + source.physical = source.logical + x.sourcePhysical
  above : gap.physicalEnd ≤ x.sourcePhysical
  inside : gap.physical ≤ x.destination ∧ x.destination + x.length ≤ gap.physicalEnd
  files : K.Opens source.path x.sourceFd ∧ x.donorFd = gap.fd

/-- What the exchanges of a run are like, as a whole. -/
structure Down {σ : Type} (K : Kernel σ) (blockSize : ℕ) (gaps : List CollectorExtent)
    (sources : List SourceExtent)
    (xs : List Exchange) : Prop where
  goesDown : ∀ x ∈ xs, ∃ gap source, gaps[x.gap]? = some gap ∧ sources[x.token]? = some source ∧
    x.GoesDown K blockSize gap source
  /-- An exchange goes to the first byte of its gap that the earlier ones have not filled. -/
  next : ∀ before x after gap, xs = before ++ x :: after → gaps[x.gap]? = some gap →
    x.destination = gap.physical + filled before x.gap ∧
      x.donorOffset = gap.logical + filled before x.gap
  sources_apart : xs.Pairwise fun x y ↦ Apart x.sourcePhysical x.length y.sourcePhysical y.length
  gaps_apart : xs.Pairwise fun x y ↦
    x.gap = y.gap → Apart x.destination x.length y.destination y.length

section Down

variable {σ : Type} {K : Kernel σ} {blockSize : ℕ} {gaps : List CollectorExtent}
  {sources : List SourceExtent} {xs : List Exchange}

theorem Down.nil : Down K blockSize gaps sources [] where
  goesDown := by simp
  next := by simp
  sources_apart := .nil
  gaps_apart := .nil

section

variable (h : Down K blockSize gaps sources xs)
include h

/-- Earlier exchanges of a gap lie below the place of the next one. -/
theorem Down.destination_le {x : Exchange} (hx : x ∈ xs)
    {gap : CollectorExtent} (hgap : gaps[x.gap]? = some gap) :
    x.destination + x.length ≤ gap.physical + filled xs x.gap := by
  obtain ⟨before, after, rfl⟩ := append_of_mem hx
  have hnext := (h.next before x after gap rfl hgap).1
  have hrest : filled (before ++ x :: after) x.gap =
      filled before x.gap + (x.length + filled after x.gap) := by
    rw [filled_append, show x :: after = [x] ++ after from rfl, filled_append, filled_singleton,
      if_pos rfl]
  omega

/-- **One more exchange**, at the next free place and apart from what was taken before. -/
theorem Down.snoc {x : Exchange} {gap : CollectorExtent}
    {source : SourceExtent} (hgap : gaps[x.gap]? = some gap)
    (hsource : sources[x.token]? = some source) (hdown : x.GoesDown K blockSize gap source)
    (hnext : x.destination = gap.physical + filled xs x.gap ∧
      x.donorOffset = gap.logical + filled xs x.gap)
    (hfresh : ∀ y ∈ xs, Apart y.sourcePhysical y.length x.sourcePhysical x.length) :
    Down K blockSize gaps sources (xs ++ [x]) where
  goesDown y hy := by
    rcases mem_append.1 hy with hy | hy
    · exact h.goesDown y hy
    · obtain rfl := mem_singleton.1 hy
      exact ⟨gap, source, hgap, hsource, hdown⟩
  next before y after gap' heq hgap' := by
    -- the exchange is the last one, or one of those before
    rcases eq_nil_or_concat after with rfl | ⟨after, z, rfl⟩
    · obtain ⟨rfl, hlast⟩ := append_inj' heq rfl
      obtain rfl := singleton_inj.1 hlast
      obtain rfl := Option.some.inj (hgap.symm.trans hgap')
      exact hnext
    · rw [concat_eq_append, ← cons_append, ← append_assoc] at heq
      exact h.next before y after gap' (append_inj' heq rfl).1 hgap'
  sources_apart := by
    refine pairwise_append.2 ⟨h.sources_apart, pairwise_singleton _ _, fun y hy z hz ↦ ?_⟩
    obtain rfl := mem_singleton.1 hz
    exact hfresh y hy
  gaps_apart := by
    refine pairwise_append.2 ⟨h.gaps_apart, pairwise_singleton _ _, fun y hy z hz heq ↦ ?_⟩
    obtain rfl := mem_singleton.1 hz
    have hle := h.destination_le hy (heq ▸ hgap)
    rw [heq, ← hnext.1] at hle
    exact .inl hle

/-- Where the gaps are apart from each other, no byte at all is filled twice. -/
theorem Down.destinations_apart
    (hgaps : gaps.Pairwise fun a b ↦ Apart a.physical a.length b.physical b.length) :
    xs.Pairwise fun x y ↦ Apart x.destination x.length y.destination y.length := by
  refine List.Pairwise.imp_of_mem (fun {x y} hx hy hsame ↦ ?_) h.gaps_apart
  by_cases heq : x.gap = y.gap
  · exact hsame heq
  · obtain ⟨gap, _, hgap, -, hx⟩ := h.goesDown x hx
    obtain ⟨gap', _, hgap', -, hy⟩ := h.goesDown y hy
    have hapart : Apart gap.physical gap.length gap'.physical gap'.length :=
      rel_of_getElem? hgaps (fun h ↦ h.symm) hgap hgap' heq
    have hxi := hx.inside
    have hyi := hy.inside
    simp only [CollectorExtent.physicalEnd] at hxi hyi
    unfold Apart at *
    omega

end

end Down

/-! ### The invariant of the loops -/

/-- A source as `scan_sources` queues it: whole blocks, and at least one. -/
structure SourceExtent.Whole (blockSize : ℕ) (s : SourceExtent) : Prop where
  pos : 0 < s.length
  length : blockSize ∣ s.length
  physical : blockSize ∣ s.physical

/-- A run that has filled the gaps before `index` and stands at `cursor` in that one, which is
`donorLogical` in the collector file. -/
structure Filling {σ : Type} (K : Kernel σ) (blockSize : ℕ) (gaps : List CollectorExtent)
    (sources : List SourceExtent) (index cursor donorLogical : ℕ) (st : PassState σ) : Prop where
  down : Down K blockSize gaps sources st.exchanges
  /-- The cursor is the first byte of its gap that is not filled. -/
  cursor : ∀ gap, gaps[index]? = some gap → cursor = gap.physical + filled st.exchanges index ∧
    donorLogical = gap.logical + filled st.exchanges index
  later : ∀ j, index < j → filled st.exchanges j = 0
  /-- What is left of a source is its bottom. -/
  bottom : ∀ t, (st.sources t).path = (sources.getD t default).path ∧
    (st.sources t).logical = (sources.getD t default).logical ∧
    (st.sources t).physical = (sources.getD t default).physical ∧
    (st.sources t).length ≤ (sources.getD t default).length ∧ blockSize ∣ (st.sources t).length
  /-- What was exchanged of a source lies above what is left. -/
  taken : ∀ x ∈ st.exchanges,
    (st.sources x.token).physical + (st.sources x.token).length ≤ x.sourcePhysical

variable {e : Ending} {fuel : ℕ}

section Filling

variable {σ : Type} {K : Kernel σ} {filesystem : Filesystem} {blockSize : ℕ}
  {gaps : List CollectorExtent} {sources : List SourceExtent} {index cursor donorLogical : ℕ}
  {gap : CollectorExtent} {st st' : PassState σ} {token move fd : ℕ} {rest : List HeapEntry}

theorem Filling.skip (h : Filling K blockSize gaps sources index cursor donorLogical st) (w : σ) :
    Filling K blockSize gaps sources index cursor donorLogical
      (PassState.skip { st with heap := rest } token w) where
  down := h.down
  cursor := h.cursor
  later := h.later
  bottom t := by
    obtain ⟨h₁, h₂, h₃, h₄, h₅⟩ := h.bottom t
    by_cases ht : t = token
    · subst ht
      simp only [PassState.skip, update_self]
      exact ⟨h₁, h₂, h₃, Nat.zero_le _, Nat.dvd_zero _⟩
    · simp only [PassState.skip, update_of_ne ht]
      exact ⟨h₁, h₂, h₃, h₄, h₅⟩
  taken x hx := by
    have htaken := h.taken x hx
    by_cases ht : x.token = token
    · simp only [PassState.skip, ht, update_self]
      rw [ht] at htaken
      omega
    · simp only [PassState.skip, update_of_ne ht]
      exact htaken

/-- The source of an exchange after it. -/
theorem advance_source (st : PassState σ) (x : Exchange) (w : σ) :
    ((st.advance x w).sources x.token).path = (st.sources x.token).path ∧
    ((st.advance x w).sources x.token).logical = (st.sources x.token).logical ∧
    ((st.advance x w).sources x.token).physical = (st.sources x.token).physical ∧
    ((st.advance x w).sources x.token).length = (st.sources x.token).length - x.length := by
  simp only [PassState.advance, update_self]
  split_ifs <;> exact ⟨rfl, rfl, rfl, rfl⟩

theorem advance_source_of_ne (st : PassState σ) (x : Exchange) (w : σ) {t : ℕ} (h : t ≠ x.token) :
    (st.advance x w).sources t = st.sources t := by
  simp only [PassState.advance, update_of_ne h]

section

variable (hc : Chooses blockSize gap cursor st token move rest)
include hc

theorem weight_skip (w : σ) : weight (PassState.skip { st with heap := rest } token w).sources
      (PassState.skip { st with heap := rest } token w).heap < weight st.sources st.heap := by
  obtain ⟨-, -, hle⟩ := popHighSource_eq_some hc.1
  refine lt_of_le_of_lt (weight_le rest fun t ↦ ?_) (by omega : weight st.sources rest < _)
  by_cases ht : t = token
  · simp [PassState.skip, ht]
  · simp [PassState.skip, update_of_ne ht]

theorem weight_advance (w : σ) : weight (PassState.advance { st with heap := rest }
        (nextExchange st index gap cursor donorLogical token move fd) w).sources
      (PassState.advance { st with heap := rest }
        (nextExchange st index gap cursor donorLogical token move fd) w).heap <
          weight st.sources st.heap := by
  obtain ⟨-, -, hle⟩ := popHighSource_eq_some hc.1
  have hmove := (moveLength_spec blockSize (gap.physicalEnd - cursor) (st.sources token).length).2.1
  rw [← hc.2.1] at hmove
  have hpos := hc.2.2
  set st₁ := PassState.advance { st with heap := rest }
    (nextExchange st index gap cursor donorLogical token move fd) w
    with hst₁
  have hself : (st₁.sources token).length = (st.sources token).length - move :=
    (advance_source { st with heap := rest }
      (nextExchange st index gap cursor donorLogical token move fd) w).2.2.2
  have hrest : weight st₁.sources rest ≤ weight st.sources rest := by
    refine weight_le rest fun t ↦ ?_
    by_cases ht : t = token
    · rw [ht, hself]
      exact Nat.sub_le _ _
    · rw [hst₁, advance_source_of_ne _ _ _ ht]
  -- what is left of the source comes back with fewer bytes
  have hheap : weight st₁.sources st₁.heap ≤
      weight st₁.sources rest + 1 + ((st.sources token).length - move) := by
    have hcases : st₁.heap = rest ∨ ∃ e : HeapEntry, e.token = token ∧ st₁.heap = e :: rest := by
      simp only [hst₁, PassState.advance]
      split_ifs
      · exact .inr ⟨_, rfl, rfl⟩
      · exact .inl rfl
    rcases hcases with heq | ⟨e, he, heq⟩
    · rw [heq]
      omega
    · rw [heq, weight_cons, he, hself]
      omega
  omega

end

/-- What the work on one gap, from `st` to `st'`, amounts to: the exchanges go down, fuel beyond the
weight of the state is enough, and a gap that is left in the ordinary way leaves the invariant. -/
structure GapDone (K : Kernel σ) (blockSize : ℕ) (gaps : List CollectorExtent)
    (sources : List SourceExtent)
    (index fuel : ℕ) (st : PassState σ) (e : Ending) (st' : PassState σ) : Prop where
  down : Down K blockSize gaps sources st'.exchanges
  ends : weight st.sources st.heap < fuel → e ≠ .outOfFuel
  goesOn : e = .returned → st'.result.stopped = true ∨ st'.result.blockedReason.isSome ∨
    weight st'.sources st'.heap ≤ weight st.sources st.heap ∧
      ∃ cursor donorLogical, Filling K blockSize gaps sources index cursor donorLogical st'

/-- A round that leaves a lighter state, and then the rest of the work. -/
theorem GapDone.cons {st₁ : PassState σ}
    (hlt : weight st₁.sources st₁.heap < weight st.sources st.heap)
    (h : GapDone K blockSize gaps sources index fuel st₁ e st') :
    GapDone K blockSize gaps sources index (fuel + 1) st e st' where
  down := h.down
  ends hw := h.ends (by omega)
  goesOn he := by
    rcases h.goesOn he with hs | hb | ⟨hle, hfilling⟩
    · exact .inl hs
    · exact .inr (.inl hb)
    · exact .inr (.inr ⟨hle.trans hlt.le, hfilling⟩)

variable (hwhole : ∀ s ∈ sources, s.Whole blockSize)
  (hoff : ∀ s ∈ sources, ∀ g ∈ gaps, Apart s.physical s.length g.physical g.length)
include hwhole hoff

/-- The slice that a round chooses. -/
theorem Filling.goesDown (h : Filling K blockSize gaps sources index cursor donorLogical st)
    (hgap : gaps[index]? = some gap) (hcursor : cursor < gap.physicalEnd)
    (hc : Chooses blockSize gap cursor st token move rest)
    (hopens : K.Opens (st.sources token).path fd) :
    ∃ source, sources[token]? = some source ∧
      (nextExchange st index gap cursor donorLogical token move fd).GoesDown K blockSize gap
        source := by
  obtain ⟨hpop, hmove, hpos⟩ := hc
  obtain ⟨hlen, habove, -⟩ := popHighSource_eq_some hpop
  obtain ⟨havail, hle, hdvd⟩ := moveLength_spec blockSize (gap.physicalEnd - cursor)
    (st.sources token).length
  rw [← hmove] at havail hle hdvd
  obtain ⟨hpath, hlogical, hphysical, hbound, hleft⟩ := h.bottom token
  -- a token without a source has nothing left, so this one has a source
  have hlt : token < sources.length := by
    by_contra hge
    rw [getD_eq_default _ _ (not_lt.1 hge)] at hbound
    exact absurd (Nat.le_zero.1 hbound) (Nat.ne_of_gt hlen)
  set source := sources[token] with hsource
  have hget : sources.getD token default = source := getD_eq_getElem _ _ hlt
  rw [hget] at hpath hlogical hphysical hbound
  have hmem : source ∈ sources := getElem_mem hlt
  have hapart := hoff source hmem gap (mem_of_getElem? hgap)
  have hstart := (h.cursor gap hgap).1
  simp only [SourceExtent.physicalEnd, CollectorExtent.physicalEnd] at habove hcursor havail
  -- it ends above the cursor and is apart from the gap, so it lies above the gap
  have hgapEnd : gap.physical + gap.length ≤ source.physical := by
    unfold Apart at hapart
    omega
  refine ⟨source, getElem?_eq_getElem hlt, ⟨hpos, ⟨hdvd, ?_⟩, ⟨?_, ?_, ?_⟩, ?_, ?_,
    hpath ▸ hopens, rfl⟩⟩
  · show blockSize ∣ (st.sources token).physical + (st.sources token).length - move
    rw [hphysical]
    exact Nat.dvd_sub (Nat.dvd_add (hwhole source hmem).physical hleft) hdvd
  all_goals simp only [nextExchange, SourceExtent.physicalEnd, CollectorExtent.physicalEnd]; omega

variable (hapart : sources.Pairwise fun a b ↦ Apart a.physical a.length b.physical b.length)
include hapart

section

variable (h : Filling K blockSize gaps sources index cursor donorLogical st)
include h

/-- **The chosen exchange extends the run.** -/
theorem Filling.down_snoc (hgap : gaps[index]? = some gap) (hcursor : cursor < gap.physicalEnd)
    (hc : Chooses blockSize gap cursor st token move rest)
    (hopens : K.Opens (st.sources token).path fd) :
    Down K blockSize gaps sources
      (st.exchanges ++ [nextExchange st index gap cursor donorLogical token move fd]) := by
  obtain ⟨source, hsource, hdown⟩ := h.goesDown hwhole hoff hgap hcursor hc hopens
  refine h.down.snoc hgap hsource hdown (h.cursor gap hgap) fun y hy ↦ ?_
  obtain ⟨_, source', -, hsource', hy'⟩ := h.down.goesDown y hy
  have hslice := hdown.slice
  have hslice' := hy'.slice
  simp only [SourceExtent.physicalEnd] at hslice hslice'
  by_cases heq : y.token = token
  · -- from the same source, what was taken before lies higher
    have htaken := h.taken y hy
    have hle := (moveLength_spec blockSize (gap.physicalEnd - cursor) (st.sources token).length).2.1
    rw [← hc.2.1] at hle
    rw [heq] at htaken
    refine .inr (.inl ?_)
    simp only [nextExchange]
    omega
  · -- from another source, the two are apart as a whole
    have hsources : Apart source'.physical source'.length source.physical source.length :=
      rel_of_getElem? hapart (fun h ↦ h.symm) hsource' hsource heq
    unfold Apart at hsources ⊢
    omega

/-- **A round that moves keeps the invariant**, with the cursor behind what it filled. -/
theorem Filling.advance (hgap : gaps[index]? = some gap) (hcursor : cursor < gap.physicalEnd)
    (hc : Chooses blockSize gap cursor st token move rest)
    (hopens : K.Opens (st.sources token).path fd) (w : σ) :
    Filling K blockSize gaps sources index (cursor + move) (donorLogical + move)
      (PassState.advance { st with heap := rest }
        (nextExchange st index gap cursor donorLogical token move fd) w) := by
  have hspec := moveLength_spec blockSize (gap.physicalEnd - cursor) (st.sources token).length
  rw [← hc.2.1] at hspec
  obtain ⟨hpath, hlogical, hphysical, hlength⟩ := advance_source { st with heap := rest }
    (nextExchange st index gap cursor donorLogical token move fd) w
  have hself : filled [nextExchange st index gap cursor donorLogical token move fd] index =
      move := by
    rw [filled_singleton, if_pos (by rfl)]
    rfl
  have hdown := h.down_snoc hwhole hoff hapart hgap hcursor hc hopens
  refine ⟨hdown, fun gap' hgap' ↦ ?_, fun j hj ↦ ?_, fun t ↦ ?_, fun x hx ↦ ?_⟩
  · have hfilled : filled (st.exchanges ++ [nextExchange st index gap cursor donorLogical token move
        fd]) index = filled st.exchanges index + move := by
      rw [filled_append, hself]
    obtain ⟨hat, hdonor⟩ := h.cursor gap' hgap'
    show _ = _ + filled (st.exchanges ++ [_]) index ∧ _ = _ + filled (st.exchanges ++ [_]) index
    rw [hfilled]
    omega
  · show filled (st.exchanges ++ [nextExchange st index gap cursor donorLogical token move fd]) j =
      0
    have hne : (nextExchange st index gap cursor donorLogical token move fd).gap ≠ j :=
      Nat.ne_of_lt hj
    rw [filled_append, h.later j hj, filled_singleton, if_neg hne]
  · obtain ⟨h₁, h₂, h₃, h₄, h₅⟩ := h.bottom t
    by_cases ht : t = token
    · subst ht
      refine ⟨hpath.trans h₁, hlogical.trans h₂, hphysical.trans h₃, ?_, ?_⟩
      · exact hlength.trans_le ((Nat.sub_le _ _).trans h₄)
      · exact hlength ▸ Nat.dvd_sub h₅ hspec.2.2
    · rw [advance_source_of_ne _ _ _ ht]
      exact ⟨h₁, h₂, h₃, h₄, h₅⟩
  · rcases mem_append.1 hx with hx | hx
    · have htaken := h.taken x hx
      by_cases ht : x.token = token
      · rw [ht] at htaken ⊢
        have hshort : (st.sources token).length - move ≤ (st.sources token).length := Nat.sub_le _ _
        calc _ = (st.sources token).physical + ((st.sources token).length - move) :=
              congrArg₂ (· + ·) hphysical hlength
          _ ≤ x.sourcePhysical := by omega
      · rw [advance_source_of_ne _ _ _ ht]
        exact htaken
    · obtain rfl := mem_singleton.1 hx
      calc _ = (st.sources token).physical + ((st.sources token).length - move) :=
            congrArg₂ (· + ·) hphysical hlength
        _ ≤ (st.sources token).physical + (st.sources token).length - move := by omega

end

/-! ### Whole runs -/

/-- **The work on one gap.** -/
theorem fillGap_done (hgap : gaps[index]? = some gap)
    (h : Filling K blockSize gaps sources index cursor donorLogical st)
    (hrun : fillGap K filesystem blockSize index gap fuel cursor donorLogical st = (e, st')) :
    GapDone K blockSize gaps sources index fuel st e st' := by
  induction fuel generalizing cursor donorLogical st with
  | zero =>
    obtain ⟨rfl, rfl⟩ := Prod.mk.inj hrun
    exact ⟨h.down, fun hlt ↦ absurd hlt (Nat.not_lt_zero _), by simp⟩
  | succ fuel ih =>
    rw [fillGap] at hrun
    by_cases hdone : gap.physicalEnd ≤ cursor
    · rw [if_pos hdone] at hrun
      obtain ⟨rfl, rfl⟩ := Prod.mk.inj hrun
      exact ⟨h.down, by simp, fun _ ↦ .inr (.inr ⟨le_rfl, cursor, _, h⟩)⟩
    rw [if_neg hdone] at hrun
    have hcursor := not_le.1 hdone
    cases hround : passRound K filesystem blockSize index gap cursor donorLogical st with
    | mk r st₁ =>
    rw [hround] at hrun
    rcases passRound_cases hround with ⟨e', rfl, hne, hret, hex⟩ |
      ⟨token, move, rest, w, hc, ⟨rfl, rfl⟩ | ⟨fd, hopens, rfl, rfl⟩⟩
    · obtain ⟨rfl, rfl⟩ := Prod.mk.inj hrun
      refine ⟨?_, fun _ ↦ hne, fun he ↦ ?_⟩
      · rcases hex with heq | ⟨token, move, rest, fd, hc, hopens, heq⟩
        · exact heq ▸ h.down
        · exact heq ▸ h.down_snoc hwhole hoff hapart hgap hcursor hc hopens
      · rcases hret he with hs | hb
        · exact .inl hs
        · exact .inr (.inl hb)
    · exact (ih (h.skip w) hrun).cons (weight_skip hc w)
    · exact (ih (h.advance hwhole hoff hapart hgap hcursor hc hopens w) hrun).cons
        (weight_advance hc w)

/-- **The work on all gaps.** -/
theorem fillGaps_down {left : List CollectorExtent} (hleft : gaps.drop index = left)
    (h : ∀ cursor donorLogical, (∀ gap, gaps[index]? = some gap → cursor = gap.physical ∧
        donorLogical = gap.logical) →
      Filling K blockSize gaps sources index cursor donorLogical st)
    (hrun : fillGaps K filesystem blockSize fuel index left st = (e, st')) :
    Down K blockSize gaps sources st'.exchanges ∧
      (weight st.sources st.heap < fuel → e ≠ .outOfFuel) := by
  induction left generalizing index st with
  | nil =>
    obtain ⟨rfl, rfl⟩ := Prod.mk.inj hrun
    have hnone : gaps[index]? = none := by
      rw [← head?_drop, hleft]
      rfl
    exact ⟨(h 0 0 (by simp [hnone])).down, by simp⟩
  | cons gap left ih =>
    have hgap : gaps[index]? = some gap := by
      rw [← head?_drop, hleft]
      rfl
    have hstart : Filling K blockSize gaps sources index gap.physical gap.logical st :=
      h _ _ fun gap' hgap' ↦ by simp [Option.some.inj (hgap.symm.trans hgap')]
    rw [fillGaps] at hrun
    cases hfill : fillGap K filesystem blockSize index gap fuel gap.physical gap.logical st with
    | mk e₁ st₁ =>
    have hgapDone := fillGap_done hwhole hoff hapart hgap hstart hfill
    rw [hfill] at hrun
    cases e₁ with
    | returned =>
      simp only at hrun
      split_ifs at hrun with hend
      · obtain ⟨rfl, rfl⟩ := Prod.mk.inj hrun
        exact ⟨hgapDone.down, by simp⟩
      · rcases hgapDone.goesOn rfl with hs | hb | ⟨hle, _, _, hfilling⟩
        · exact absurd (.inl hs) hend
        · exact absurd (.inr hb) hend
        · have hnext : ∀ cursor donorLogical, (∀ gap, gaps[index + 1]? = some gap →
              cursor = gap.physical ∧ donorLogical = gap.logical) →
              Filling K blockSize gaps sources (index + 1) cursor donorLogical st₁ := by
            -- nothing of the next gap has been filled
            intro cursor donorLogical hcur
            have hzero := hfilling.later (index + 1) (Nat.lt_succ_self _)
            refine ⟨hfilling.down, fun gap' hgap' ↦ ?_, fun j hj ↦ ?_, hfilling.bottom,
              hfilling.taken⟩
            · rw [hzero]
              exact hcur gap' hgap'
            · exact hfilling.later j (by omega)
          have hdrop : gaps.drop (index + 1) = left := by
            rw [← tail_drop, hleft, tail_cons]
          obtain ⟨hdown, hfuel⟩ := ih hdrop hnext hrun
          exact ⟨hdown, fun hw ↦ hfuel (by omega)⟩
    | raised err =>
      obtain ⟨rfl, rfl⟩ := Prod.mk.inj hrun
      exact ⟨hgapDone.down, hgapDone.ends⟩
    | outOfFuel =>
      obtain ⟨rfl, rfl⟩ := Prod.mk.inj hrun
      exact ⟨hgapDone.down, hgapDone.ends⟩

end Filling

/-- **The exchanges of a pass** are `Down`, and a number of rounds that depends on the sources alone
is enough for the pass to end. -/
theorem compactExtentPass_down {σ : Type} (K : Kernel σ) (filesystem : Filesystem) {blockSize : ℕ}
    (gaps : List CollectorExtent) {sources : List SourceExtent} (w : σ)
    (hwhole : ∀ s ∈ sources, s.Whole blockSize)
    (hapart : sources.Pairwise fun a b ↦ Apart a.physical a.length b.physical b.length)
    (hoff : ∀ s ∈ sources, ∀ g ∈ gaps, Apart s.physical s.length g.physical g.length) (fuel : ℕ) :
    Down K blockSize gaps sources
      (compactExtentPass K filesystem blockSize fuel gaps sources w).2.exchanges ∧
    ((sources.map fun s ↦ 1 + s.length).sum < fuel →
      (compactExtentPass K filesystem blockSize fuel gaps sources w).1 ≠ .outOfFuel) := by
  have hweight : weight (PassState.start w sources).sources (PassState.start w sources).heap =
      (sources.map fun s ↦ 1 + s.length).sum := by
    refine congrArg List.sum (ext_getElem (by simp [PassState.start]) fun i hi hi' ↦ ?_)
    simp only [PassState.start, getElem_map, getElem_mapIdx]
    rw [getD_eq_getElem _ _ (by simpa using hi')]
  have hstart : ∀ cursor donorLogical, (∀ gap, gaps[0]? = some gap → cursor = gap.physical ∧
      donorLogical = gap.logical) →
      Filling K blockSize gaps sources 0 cursor donorLogical (PassState.start w sources) := by
    intro cursor donorLogical hcur
    refine ⟨.nil, fun gap hgap ↦ hcur gap hgap, fun _ _ ↦ rfl, fun t ↦ ⟨rfl, rfl, rfl, le_rfl, ?_⟩,
      by simp [PassState.start]⟩
    show blockSize ∣ (sources.getD t default).length
    by_cases ht : t < sources.length
    · rw [getD_eq_getElem _ _ ht]
      exact (hwhole _ (getElem_mem ht)).length
    · rw [getD_eq_default _ _ (not_lt.1 ht)]
      exact Nat.dvd_zero _
  rw [compactExtentPass]
  split_ifs
  · exact ⟨.nil, by simp⟩
  · exact ⟨.nil, by simp⟩
  · exact hweight ▸ fillGaps_down hwhole hoff hapart rfl hstart rfl

/-- **The pass only moves data down, and ends.** For every kernel, every list of gaps and all
sources that are apart from each other and from the gaps: the exchanges of the pass are `Down`,
where the gaps are apart no byte is filled twice, and the pass ends. The same holds of the exchanges
that the kernel is asked for and does not refuse: on a kernel that notes them, they are the
exchanges of the pass. -/
theorem exchanges_go_down {σ : Type} (K : Kernel σ) (filesystem : Filesystem) {blockSize : ℕ}
    (gaps : List CollectorExtent) {sources : List SourceExtent} (w : σ)
    (hwhole : ∀ s ∈ sources, s.Whole blockSize)
    (hapart : sources.Pairwise fun a b ↦ Apart a.physical a.length b.physical b.length)
    (hoff : ∀ s ∈ sources, ∀ g ∈ gaps, Apart s.physical s.length g.physical g.length) :
    (∀ fuel, Down K blockSize gaps sources
      (compactExtentPass K filesystem blockSize fuel gaps sources w).2.exchanges ∧
      ((gaps.Pairwise fun a b ↦ Apart a.physical a.length b.physical b.length) →
        (compactExtentPass K filesystem blockSize fuel gaps sources w).2.exchanges.Pairwise
          fun x y ↦ Apart x.destination x.length y.destination y.length)) ∧
    (∀ fuel, (sources.map fun s ↦ 1 + s.length).sum < fuel →
      (compactExtentPass K filesystem blockSize fuel gaps sources w).1 ≠ .outOfFuel) ∧
    ∀ fuel, Down (K.logged blockSize) blockSize gaps sources
        (compactExtentPass (K.logged blockSize) filesystem blockSize fuel gaps sources
          (w, [])).2.exchanges ∧
      NotedAtEnd
        (compactExtentPass (K.logged blockSize) filesystem blockSize fuel gaps sources
          (w, [])) := by
  have hpass := compactExtentPass_down K filesystem gaps w hwhole hapart hoff
  refine ⟨fun fuel ↦ ⟨(hpass fuel).1, (hpass fuel).1.destinations_apart⟩, fun fuel ↦ (hpass fuel).2,
    fun fuel ↦ ⟨?_, compactExtentPass_noted K filesystem blockSize fuel gaps sources w⟩⟩
  exact (compactExtentPass_down _ filesystem gaps _ hwhole hapart hoff fuel).1

/-! ### Two gaps below two files -/

/-- Gaps of one and of two blocks, held by the collector file 100. -/
def twoGaps : List CollectorExtent := [⟨100, 0, 4096, 4096, 0⟩, ⟨100, 4096, 12288, 8192, 0⟩]

/-- Two files of two blocks each. -/
def twoSources : List SourceExtent := [⟨["a"], 0, 40960, 8192, 1, 0⟩, ⟨["b"], 0, 65536, 8192, 1, 0⟩]

/-- The extent maps of the files 5 and 6 and of the collector. -/
def twoMaps (i : ℕ) : List FiemapExtent :=
  if i = 5 then [⟨0, 40960, 8192, 1⟩]
  else if i = 6 then [⟨0, 65536, 8192, 1⟩]
  else [⟨0, 4096, 4096, 0⟩, ⟨4096, 12288, 8192, 0⟩]

/-- A kernel on which `a` is file 5 and every other path file 6. -/
def twoFileKernel : Kernel (ℕ → List FiemapExtent) :=
  mapKernel 4096 fun path ↦ some (if path = ["a"] then 5 else 6)

/-- The upper file goes down block by block, its lower block into the second gap, and the upper
block of the lower file behind it. -/
theorem exchanges_go_down_twoGaps :
    (compactExtentPass (twoFileKernel.logged 4096) .xfs 4096 16 twoGaps twoSources
        (twoMaps, [])).2.exchanges =
      [⟨0, 1, 6, 100, 4096, 0, 69632, 4096, 4096⟩, ⟨1, 1, 6, 100, 0, 4096, 65536, 12288, 4096⟩,
        ⟨1, 0, 5, 100, 4096, 8192, 45056, 16384, 4096⟩] ∧
    Down (twoFileKernel.logged 4096) 4096 twoGaps twoSources
        (compactExtentPass (twoFileKernel.logged 4096) .xfs 4096 16 twoGaps twoSources
          (twoMaps, [])).2.exchanges ∧
      NotedAtEnd
        (compactExtentPass (twoFileKernel.logged 4096) .xfs 4096 16 twoGaps twoSources
          (twoMaps, [])) := by
  refine ⟨by decide +kernel, (exchanges_go_down twoFileKernel .xfs twoGaps twoMaps ?_ ?_ ?_).2.2 16⟩
  · intro s hs
    rcases mem_pair.1 hs with rfl | rfl
    all_goals exact ⟨by decide, by decide, by decide⟩
  · decide
  · decide

end LinuxDefragger.Native
