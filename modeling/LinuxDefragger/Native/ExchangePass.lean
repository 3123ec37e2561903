import LinuxDefragger.Native.Kernel
import Mathlib.Data.List.Pairwise
import Mathlib.Algebra.Order.BigOperators.Group.List
import Mathlib.Tactic.Linarith

/-!
# The extent exchange pass

`compactExtentPass` fills free ranges from the bottom with slices of file extents from the top. The
collector's gaps are taken in order; for each, the source that ends highest is popped from a heap,
the top of it is exchanged with the next bytes of the gap, and what is left of it goes back.

The heap is modelled by the list of its entries and `heappop` by taking the first of them in the
order of the entries. Entries refer to the sources by token: a source is changed in place, and an
entry whose generation is no longer that of its source is skipped.

The sequence of exchanges is recorded in the state, one `Exchange` each, so that what the pass does
can be stated for whole runs (`Down`).
-/

open List

namespace LinuxDefragger.Native

/-! ### The heap of sources -/

/-- An entry `(-physical_end, token, generation, source)` of the heap. -/
structure HeapEntry where
  physicalEnd : ℕ
  token : ℕ
  generation : ℕ
  deriving DecidableEq, Repr

/-- The order of the tuples: higher ends first, then lower tokens and generations. -/
def HeapEntry.before (a b : HeapEntry) : Bool :=
  b.physicalEnd < a.physicalEnd || (a.physicalEnd = b.physicalEnd && (a.token < b.token ||
    (a.token = b.token && a.generation < b.generation)))

/-- `heapq.heappop` -/
def heappop : List HeapEntry → Option (HeapEntry × List HeapEntry)
  | [] => none
  | e :: rest =>
    let least := rest.foldl (fun m x ↦ if x.before m then x else m) e
    some (least, (e :: rest).erase least)

/-- `_pop_high_source`, with the number of entries as the bound of its loop. It returns the token of
the source, and the heap. -/
def popHighSource (sources : ℕ → SourceExtent) (above : ℕ) :
    ℕ → List HeapEntry → Option ℕ × List HeapEntry
  | 0, heap => (none, heap)
  | fuel + 1, heap =>
    match heappop heap with
    | none => (none, heap)
    | some (e, rest) =>
      if e.generation ≠ (sources e.token).generation ∨ (sources e.token).length = 0 then
        popHighSource sources above fuel rest
      else if (sources e.token).physicalEnd ≤ above then (none, rest)
      else (some e.token, rest)

/-! ### One pass -/

/-- A reason is a format with the numbers put into it. -/
structure ExtentPassResult where
  movedBytes : ℕ := 0
  transactions : ℕ := 0
  runtimeSkipped : ℕ := 0
  blockedReason : Option (String × List ℕ) := none
  stopped : Bool := false
  deriving DecidableEq, Repr

/-- An exchange that the kernel is asked for: a slice of the file `sourceFd` with a slice of the
collector file `donorFd`, and where the pass takes the two to lie on the device. -/
structure Exchange where
  gap : ℕ
  token : ℕ
  sourceFd : ℕ
  donorFd : ℕ
  sourceOffset : ℕ
  donorOffset : ℕ
  sourcePhysical : ℕ
  destination : ℕ
  length : ℕ
  deriving DecidableEq, Repr

/-- What the pass works on. -/
structure PassState (σ : Type) where
  world : σ
  heap : List HeapEntry
  /-- The source of each token. -/
  sources : ℕ → SourceExtent
  result : ExtentPassResult
  /-- The exchanges that were not refused, oldest first. -/
  exchanges : List Exchange

/-- How a pass, or its work on one gap, ends. -/
inductive Ending
  | returned
  | raised (e : NativeError)
  | outOfFuel
  deriving DecidableEq

/-- `MAX_TRANSACTION_BYTES` -/
def maxTransactionBytes : ℕ := 256 * 1024 * 1024

/-- The bytes one transaction moves: as many whole blocks as gap, source and limit allow. -/
def moveLength (blockSize available length : ℕ) : ℕ :=
  let move := min (min available length) maxTransactionBytes
  move - move % blockSize

/-- The extents show the slice as one movable extent at its place, the test of `_verify_source`. -/
def showsSlice (extents : List FiemapExtent) (logical physical length : ℕ) : Bool :=
  extents.any fun e ↦ e.logical ≤ logical && logical + length ≤ e.logical + e.length &&
    e.physical + (logical - e.logical) = physical && e.flags &&& unmovableFiemapFlags = 0

/-- The first extent that holds the offset shows the slice at its place, the test of
`SpaceCollector.verify_slice`. -/
def ownsSlice (extents : List FiemapExtent) (logical physical length : ℕ) : Bool :=
  match extents.find? fun e ↦ e.logical ≤ logical && logical < e.logical + e.length with
  | some e => e.physical + (logical - e.logical) = physical && length ≤
    e.length - (logical - e.logical)
  | none => false

section Pass

variable {σ : Type} (K : Kernel σ)

/-- `_verify_source` -/
def verifySource (fd : ℕ) (source : SourceExtent) (logical physical length : ℕ) : Sys σ Unit := do
  let extents ← call (K.fiemap fd logical length)
  if showsSlice extents logical physical length then pure ()
  else throw (.sourceChanged source.path)

/-- `SpaceCollector.verify_slice` -/
def verifySlice (gap : CollectorExtent) (logical physical length : ℕ) : Sys σ Unit := do
  let extents ← call (K.fiemap gap.fd logical length)
  if ownsSlice extents logical physical length then pure ()
  else throw (.compactError
    "the temporary space collector no longer owns the expected low physical range")

/-- Everything the pass does for a slice before the exchange. -/
def prepareSlice (fd : ℕ) (source : SourceExtent) (gap : CollectorExtent)
    (sourceOffset sourcePhysical donorLogical cursor move : ℕ) : Sys σ Unit := do
  verifySource K fd source sourceOffset sourcePhysical move
  verifySlice K gap donorLogical cursor move
  call (K.copyRange fd sourceOffset gap.fd move donorLogical)
  call (K.fsync gap.fd)

/-- The syncs after the exchange. -/
def settleSlice (fd : ℕ) (gap : CollectorExtent) : Sys σ Unit := do
  call (K.fsync fd)
  call (K.fsync gap.fd)

variable {K} in
/-- `source.length = 0` and the count of what was skipped. -/
def PassState.skip (st : PassState σ) (token : ℕ) (w : σ) : PassState σ :=
  { st with
    world := w
    sources := Function.update st.sources token { st.sources token with length := 0 }
    result := { st.result with runtimeSkipped := st.result.runtimeSkipped + 1 } }

/-- The exchange is made: the source loses its top, and what is left of it is queued again with
`_requeue_source`. -/
def PassState.advance (st : PassState σ) (x : Exchange) (w : σ) : PassState σ :=
  let source := { st.sources x.token with length := (st.sources x.token).length - x.length }
  let requeued := { source with generation := source.generation + 1 }
  { st with
    world := w
    sources := Function.update st.sources x.token (if source.length > 0 then requeued else source)
    heap := if source.length > 0 then
      ⟨requeued.physicalEnd, x.token, requeued.generation⟩ :: st.heap else st.heap
    result := { st.result with
      movedBytes := st.result.movedBytes + x.length
      transactions := st.result.transactions + 1 }
    exchanges := st.exchanges ++ [x] }

/-- `result.blocked_reason = …` -/
def PassState.block (st : PassState σ) (reason : String) (args : List ℕ) : PassState σ :=
  { st with result := { st.result with blockedReason := some (reason, args) } }

/-- What one round of the inner loop leads to. -/
inductive Round
  | ends (e : Ending)
  /-- The source was dropped; the cursor stays. -/
  | skips
  | moves (length : ℕ)

/-- The slice of a source, opened as `fd`, that goes to the cursor of a gap. -/
def nextExchange (st : PassState σ) (index : ℕ) (gap : CollectorExtent)
    (cursor donorLogical token move fd : ℕ) : Exchange where
  gap := index
  token := token
  sourceFd := fd
  donorFd := gap.fd
  sourceOffset := (st.sources token).logical + (st.sources token).length - move
  donorOffset := donorLogical
  sourcePhysical := (st.sources token).physical + (st.sources token).length - move
  destination := cursor
  length := move

/-- One round of the inner loop, once the slice has been chosen and its file is open. -/
def exchangeRound (filesystem : Filesystem) (blockSize : ℕ) (gap : CollectorExtent) (x : Exchange)
    (st : PassState σ) : Round × PassState σ :=
  match prepareSlice K x.sourceFd (st.sources x.token) gap x.sourceOffset x.sourcePhysical
    x.donorOffset x.destination x.length st.world with
  | .error e w => (.ends (.raised e), { st with world := w })
  | .ok _ w =>
    match exchange K filesystem blockSize x.sourceFd x.donorFd x.sourceOffset x.donorOffset x.length
      w with
    | .error (.sourceNotMovable _) w => (.skips, st.skip x.token w)
    | .error e w =>
      -- the kernel may have made a part of the exchange
      (.ends (.raised e), { st with world := w, exchanges := st.exchanges ++ [x] })
    | .ok _ w =>
      match settleSlice K x.sourceFd gap w with
      | .error e w => (.ends (.raised e), { st with world := w, exchanges := st.exchanges ++ [x] })
      | .ok _ w => (.moves x.length, st.advance x w)

/-- One round of the inner loop of `_compact_extent_pass`, with the cursor inside the gap. -/
def passRound (filesystem : Filesystem) (blockSize index : ℕ) (gap : CollectorExtent)
    (cursor donorLogical : ℕ) (st : PassState σ) : Round × PassState σ :=
  if K.stopRequested st.world then
    (.ends .returned, { st with result := { st.result with stopped := true } })
  else
    match popHighSource st.sources cursor st.heap.length st.heap with
    | (none, heap) => (.ends .returned, { st with heap }.block
        "no movable regular-file extent remains above the free range at byte %u" [cursor])
    | (some token, heap) =>
      let move := moveLength blockSize (gap.physicalEnd - cursor) (st.sources token).length
      if move = 0 then (.ends .returned, { st with heap }.block
        "the next source or destination is smaller than one filesystem block" [])
      else
        match K.openFile (st.sources token).path st.world with
        | .error _ w => (.skips, { st with heap }.skip token w)
        | .ok fd w => exchangeRound K filesystem blockSize gap
            (nextExchange st index gap cursor donorLogical token move fd)
            { st with world := w, heap }

/-- The inner loop of `_compact_extent_pass`. -/
def fillGap (filesystem : Filesystem) (blockSize index : ℕ) (gap : CollectorExtent) :
    ℕ → ℕ → ℕ → PassState σ → Ending × PassState σ
  | 0, _, _, st => (.outOfFuel, st)
  | fuel + 1, cursor, donorLogical, st =>
    if gap.physicalEnd ≤ cursor then (.returned, st)
    else
      match passRound K filesystem blockSize index gap cursor donorLogical st with
      | (.ends e, st) => (e, st)
      | (.skips, st) => fillGap filesystem blockSize index gap fuel cursor donorLogical st
      | (.moves n, st) =>
        fillGap filesystem blockSize index gap fuel (cursor + n) (donorLogical + n) st

/-- The outer loop, from the gap at position `index`. -/
def fillGaps (filesystem : Filesystem) (blockSize fuel : ℕ) :
    ℕ → List CollectorExtent → PassState σ → Ending × PassState σ
  | _, [], st => (.returned, st)
  | index, gap :: gaps, st =>
    match fillGap K filesystem blockSize index gap fuel gap.physical gap.logical st with
    | (.returned, st) =>
      if st.result.stopped ∨ st.result.blockedReason.isSome then (.returned, st)
      else fillGaps filesystem blockSize fuel (index + 1) gaps st
    | (e, st) => (e, st)

/-- The state of the pass once `scan_sources` has returned these sources. -/
def PassState.start (w : σ) (sources : List SourceExtent) : PassState σ where
  world := w
  heap := sources.mapIdx fun i s ↦ ⟨s.physicalEnd, i, s.generation⟩
  sources := fun token ↦ sources.getD token default
  result := {}
  exchanges := []

/-- `_compact_extent_pass`, from the collector's gaps and the scanned sources on. -/
def compactExtentPass (filesystem : Filesystem) (blockSize fuel : ℕ) (gaps : List CollectorExtent)
    (sources : List SourceExtent) (w : σ) : Ending × PassState σ :=
  if gaps = [] then
    (.returned, (PassState.start w sources).block "no accessible free range requires work" [])
  else if sources = [] then
    (.returned, (PassState.start w sources).block "no movable regular-file extents were found" [])
  else fillGaps K filesystem blockSize fuel 0 gaps (.start w sources)

end Pass

/-! ### What a round can do -/

theorem foldl_first_mem (l : List HeapEntry) (e : HeapEntry) :
    l.foldl (fun m x ↦ if x.before m then x else m) e ∈ e :: l := by
  induction l generalizing e with
  | nil => exact mem_cons_self
  | cons x l ih =>
    rw [foldl_cons]
    rcases mem_cons.1 (ih (if x.before e then x else e)) with h | h
    · rw [h]
      split
      · exact mem_cons_of_mem _ mem_cons_self
      · exact mem_cons_self
    · exact mem_cons_of_mem _ (mem_cons_of_mem _ h)

theorem heappop_eq_some {heap rest : List HeapEntry} {e : HeapEntry}
    (h : heappop heap = some (e, rest)) : heap.Perm (e :: rest) := by
  cases heap with
  | nil => cases h
  | cons a heap =>
    obtain ⟨rfl, rfl⟩ := Prod.mk.inj (Option.some.inj h)
    exact perm_cons_erase (foldl_first_mem heap a)

/-- The room a run has left: every entry of the heap counts once, and with the bytes of its
source. -/
def weight (sources : ℕ → SourceExtent) (heap : List HeapEntry) : ℕ :=
  (heap.map fun e ↦ 1 + (sources e.token).length).sum

theorem weight_perm {sources : ℕ → SourceExtent} {heap heap' : List HeapEntry}
    (h : heap.Perm heap') : weight sources heap = weight sources heap' :=
  (h.map _).sum_eq

theorem weight_cons (sources : ℕ → SourceExtent) (e : HeapEntry) (heap : List HeapEntry) :
    weight sources (e :: heap) = 1 + (sources e.token).length + weight sources heap :=
  sum_cons

/-- Sources that only lose bytes do not add weight. -/
theorem weight_le {sources sources' : ℕ → SourceExtent} (heap : List HeapEntry)
    (h : ∀ t, (sources' t).length ≤ (sources t).length) :
    weight sources' heap ≤ weight sources heap :=
  sum_le_sum fun e _ ↦ Nat.add_le_add_left (h e.token) 1

/-- **A popped source** ends above the bound, is not empty and has left the heap. -/
theorem popHighSource_eq_some {sources : ℕ → SourceExtent} {above fuel token : ℕ}
    {heap rest : List HeapEntry} (h : popHighSource sources above fuel heap = (some token, rest)) :
    0 < (sources token).length ∧ above < (sources token).physicalEnd ∧
      weight sources rest + 1 + (sources token).length ≤ weight sources heap := by
  induction fuel generalizing heap with
  | zero => cases (Prod.mk.inj h).1
  | succ fuel ih =>
    rw [popHighSource] at h
    cases hpop : heappop heap with
    | none =>
      rw [hpop] at h
      cases (Prod.mk.inj h).1
    | some popped =>
      obtain ⟨e, rest'⟩ := popped
      have hweight : weight sources heap = weight sources (e :: rest') :=
        weight_perm (heappop_eq_some hpop)
      rw [weight_cons] at hweight
      simp only [hpop] at h
      split_ifs at h with hstale hlow
      · obtain ⟨hpos, habove, hle⟩ := ih h
        exact ⟨hpos, habove, by omega⟩
      · cases (Prod.mk.inj h).1
      · obtain ⟨htoken, rfl⟩ := Prod.mk.inj h
        obtain rfl := Option.some.inj htoken
        push Not at hstale
        exact ⟨Nat.pos_of_ne_zero hstale.2, not_le.1 hlow, by omega⟩

theorem moveLength_spec (blockSize available length : ℕ) :
    moveLength blockSize available length ≤ available ∧
      moveLength blockSize available length ≤ length ∧
      blockSize ∣ moveLength blockSize available length := by
  refine ⟨?_, ?_, Nat.dvd_sub_mod _⟩
  · exact (Nat.sub_le _ _).trans ((min_le_left _ _).trans (min_le_left _ _))
  · exact (Nat.sub_le _ _).trans ((min_le_left _ _).trans (min_le_right _ _))

section Rounds

variable {σ : Type} {K : Kernel σ} {filesystem : Filesystem} {blockSize index : ℕ}
  {gap : CollectorExtent} {cursor donorLogical : ℕ} {st st' : PassState σ}

/-- The kernel has opened the file of a path as `fd`. -/
def Kernel.Opens (K : Kernel σ) (path : Path) (fd : ℕ) : Prop :=
  ∃ w w', K.openFile path w = .ok fd w'

/-- The round popped this source, left this heap and moves this many bytes. -/
def Chooses (blockSize : ℕ) (gap : CollectorExtent) (cursor : ℕ) (st : PassState σ)
    (token move : ℕ) (rest : List HeapEntry) : Prop :=
  popHighSource st.sources cursor st.heap.length st.heap = (some token, rest) ∧
    move = moveLength blockSize (gap.physicalEnd - cursor) (st.sources token).length ∧ 0 < move

/-- **Everything one round can do.** An exchange is asked for with the file that was opened for its
source. -/
theorem passRound_cases {r : Round}
    (h : passRound K filesystem blockSize index gap cursor donorLogical st = (r, st')) :
    (∃ e, r = .ends e ∧ e ≠ .outOfFuel ∧
      (e = .returned → st'.result.stopped = true ∨ st'.result.blockedReason.isSome) ∧
      (st'.exchanges = st.exchanges ∨ ∃ token move rest fd,
        Chooses blockSize gap cursor st token move rest ∧
        K.Opens (st.sources token).path fd ∧ st'.exchanges = st.exchanges ++
          [nextExchange st index gap cursor donorLogical token move fd])) ∨
    ∃ token move rest w, Chooses blockSize gap cursor st token move rest ∧
      (r = .skips ∧ st' = PassState.skip { st with heap := rest } token w ∨
        ∃ fd, K.Opens (st.sources token).path fd ∧ r = .moves move ∧
          st' = PassState.advance { st with heap := rest }
            (nextExchange st index gap cursor donorLogical token move fd) w) := by
  rw [passRound] at h
  split_ifs at h with hstop
  · obtain ⟨rfl, rfl⟩ := Prod.mk.inj h
    exact .inl ⟨_, rfl, by simp, fun _ ↦ .inl rfl, .inl rfl⟩
  cases hpop : popHighSource st.sources cursor st.heap.length st.heap with
  | mk popped rest =>
  rw [hpop] at h
  cases popped with
  | none =>
    obtain ⟨rfl, rfl⟩ := Prod.mk.inj h
    exact .inl ⟨_, rfl, by simp, fun _ ↦ .inr rfl, .inl rfl⟩
  | some token =>
  simp only at h
  set move := moveLength blockSize (gap.physicalEnd - cursor) (st.sources token).length with hmove
  split_ifs at h with hzero
  · obtain ⟨rfl, rfl⟩ := Prod.mk.inj h
    exact .inl ⟨_, rfl, by simp, fun _ ↦ .inr rfl, .inl rfl⟩
  have hchosen : Chooses blockSize gap cursor st token move rest :=
    ⟨hpop, hmove, Nat.pos_of_ne_zero hzero⟩
  -- the calls to the kernel, in the order they are made
  split at h
  · obtain ⟨rfl, rfl⟩ := Prod.mk.inj h
    exact .inr ⟨token, move, rest, _, hchosen, .inl ⟨rfl, rfl⟩⟩
  rename_i fd w hopen
  have hopens : K.Opens (st.sources token).path fd := ⟨_, _, hopen⟩
  rw [exchangeRound] at h
  split at h
  · obtain ⟨rfl, rfl⟩ := Prod.mk.inj h
    exact .inl ⟨_, rfl, by simp, by simp, .inl rfl⟩
  split at h
  · obtain ⟨rfl, rfl⟩ := Prod.mk.inj h
    exact .inr ⟨token, move, rest, _, hchosen, .inl ⟨rfl, rfl⟩⟩
  · obtain ⟨rfl, rfl⟩ := Prod.mk.inj h
    exact .inl ⟨_, rfl, by simp, by simp, .inr ⟨token, move, rest, fd, hchosen, hopens, rfl⟩⟩
  split at h
  · obtain ⟨rfl, rfl⟩ := Prod.mk.inj h
    exact .inl ⟨_, rfl, by simp, by simp, .inr ⟨token, move, rest, fd, hchosen, hopens, rfl⟩⟩
  · obtain ⟨rfl, rfl⟩ := Prod.mk.inj h
    exact .inr ⟨token, move, rest, _, hchosen, .inr ⟨fd, hopens, rfl, rfl⟩⟩

end Rounds

/-! ### Rules for the loops -/

section Rules

variable {σ : Type} {K : Kernel σ} {filesystem : Filesystem} {blockSize fuel : ℕ}
  {Q : Ending × PassState σ → Prop}

/-- What one round keeps is kept by the work on a gap: `I` holds before every round, at its cursor,
and `Q` of what the work ends with. -/
theorem fillGap_rule {index : ℕ} {gap : CollectorExtent} {cursor donorLogical : ℕ}
    {st : PassState σ}
    {I : ℕ → ℕ → PassState σ → Prop}
    (hround : ∀ c d st, I c d st →
      (∀ e st', passRound K filesystem blockSize index gap c d st = (.ends e, st') → Q (e, st')) ∧
      (∀ st', passRound K filesystem blockSize index gap c d st = (.skips, st') → I c d st') ∧
      ∀ n st', passRound K filesystem blockSize index gap c d st = (.moves n, st') →
        I (c + n) (d + n) st')
    (hstop : ∀ c d st, I c d st → Q (.outOfFuel, st) ∧ Q (.returned, st))
    (h : I cursor donorLogical st) :
    Q (fillGap K filesystem blockSize index gap fuel cursor donorLogical st) := by
  induction fuel generalizing cursor donorLogical st with
  | zero => exact (hstop _ _ _ h).1
  | succ fuel ih =>
    obtain ⟨hends, hskips, hmoves⟩ := hround _ _ _ h
    rw [fillGap]
    split_ifs
    · exact (hstop _ _ _ h).2
    split <;> rename_i hr
    · exact hends _ _ hr
    · exact ih (hskips _ hr)
    · exact ih (hmoves _ _ hr)

/-- What the work on a gap keeps is kept by the pass. -/
theorem fillGaps_rule {gaps : List CollectorExtent} {index : ℕ} {st : PassState σ}
    {I : PassState σ → Prop}
    (hgap : ∀ gap ∈ gaps, ∀ index st, I st →
      Q (fillGap K filesystem blockSize index gap fuel gap.physical gap.logical st))
    (hnext : ∀ st, Q (.returned, st) →
      ¬ (st.result.stopped ∨ st.result.blockedReason.isSome) → I st)
    (hstop : ∀ st, I st → Q (.returned, st)) (h : I st) :
    Q (fillGaps K filesystem blockSize fuel index gaps st) := by
  induction gaps generalizing index st with
  | nil => exact hstop st h
  | cons gap gaps ih =>
    have hfill := hgap gap mem_cons_self index st h
    rw [fillGaps]
    split <;> rename_i hr <;> rw [hr] at hfill
    · split_ifs with hend
      · exact hfill
      · exact ih (fun g hg ↦ hgap g (mem_cons_of_mem _ hg)) (hnext _ hfill hend)
    · exact hfill

end Rules

end LinuxDefragger.Native
