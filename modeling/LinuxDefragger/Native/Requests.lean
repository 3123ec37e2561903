import LinuxDefragger.Native.ExtentMaps

/-!
# What the kernel is asked for

`Kernel.logged` is a kernel that also keeps a list of the exchanges it was asked for and did not
refuse, with the arguments of its calls. A pass on it records the same exchanges
(`compactExtentPass_noted`), so that a statement about the exchanges of a pass is one about the
calls.
-/

open List

namespace LinuxDefragger.Native

/-- An exchange as the kernel is asked for it: two files, an offset in each and a length, in
bytes. -/
structure Request where
  sourceFd : ℕ
  donorFd : ℕ
  sourceOffset : ℕ
  donorOffset : ℕ
  length : ℕ
  deriving DecidableEq, Repr

/-- The call that an exchange of the pass is. -/
def Exchange.request (x : Exchange) : Request :=
  ⟨x.sourceFd, x.donorFd, x.sourceOffset, x.donorOffset, x.length⟩

section Logged

variable {σ α ε : Type}

/-- A call that leaves the log alone. -/
def beside (x : EStateM ε σ α) : EStateM ε (σ × List Request) α := fun w ↦
  match x w.1 with
  | .ok a v => .ok a (v, w.2)
  | .error e v => .error e (v, w.2)

/-- A request is noted if the kernel does not refuse it. -/
def note (refused : Bool) (r : Request) (log : List Request) : List Request :=
  if refused then log else log ++ [r]

/-- A call that is noted, unless the kernel refuses it. -/
def noting (refused : Errno → Bool) (r : Request) (x : EStateM Errno σ α) :
    EStateM Errno (σ × List Request) α := fun w ↦
  match x w.1 with
  | .ok a v => .ok a (v, w.2 ++ [r])
  | .error e v => .error e (v, note (refused e) r w.2)

/-- The kernel with a log of the exchanges it was asked for and did not refuse. -/
def Kernel.logged (K : Kernel σ) (blockSize : ℕ) : Kernel (σ × List Request) where
  stopRequested w := K.stopRequested w.1
  openFile path := beside (K.openFile path)
  fiemap fd start length := beside (K.fiemap fd start length)
  copyRange fd offset donor length donorOffset :=
    beside (K.copyRange fd offset donor length donorOffset)
  fsync fd := beside (K.fsync fd)
  moveExtents fd donor a b n :=
    noting (fun e ↦ decide (e = .einval ∨ e = .eopnotsupp ∨ e = .eperm ∨ e = .etxtbsy))
      ⟨fd, donor, a * blockSize, b * blockSize, n * blockSize⟩ (K.moveExtents fd donor a b n)
  exchangeRange fd donor a b n :=
    noting (fun e ↦ decide (e = .einval ∨ e = .eperm ∨ e = .etxtbsy)) ⟨fd, donor, a, b, n⟩
      (K.exchangeRange fd donor a b n)

/-! ### Calls and the log -/

/-- However the call ends, the log is the one before. -/
def KeepsLog (x : EStateM ε (σ × List Request) α) : Prop := ∀ w, (stateAfter (x w)).2 = w.2

theorem keepsLog_beside (x : EStateM ε σ α) : KeepsLog (beside x) := by
  intro w
  rw [beside]
  cases x w.1 <;> rfl

theorem KeepsLog.call {x : EStateM Fault (σ × List Request) α} (h : KeepsLog x) :
    KeepsLog (call x) := by
  intro w
  have hw := h w
  rw [Native.call, EStateM.adaptExcept]
  cases hx : x w <;> rw [hx] at hw <;> exact hw

theorem KeepsLog.bind {β : Type} {x : EStateM ε (σ × List Request) α}
    {k : α → EStateM ε (σ × List Request) β} (h : KeepsLog x) (hk : ∀ a, KeepsLog (k a)) :
    KeepsLog (x >>= k) := by
  intro w
  have hw := h w
  rw [show (x >>= k) w = EStateM.bind x k w from rfl, EStateM.bind]
  cases hx : x w with
  | ok a v =>
    rw [hx] at hw
    exact (hk a v).trans hw
  | error e v =>
    rw [hx] at hw
    exact hw

variable (K : Kernel σ) (blockSize : ℕ)

theorem keepsLog_prepareSlice (fd : ℕ) (source : SourceExtent) (gap : CollectorExtent)
    (sourceOffset sourcePhysical donorLogical cursor move : ℕ) :
    KeepsLog (prepareSlice (K.logged blockSize) fd source gap sourceOffset sourcePhysical
      donorLogical cursor move) := by
  refine .bind ?_ fun _ ↦ .bind ?_ fun _ ↦ .bind (keepsLog_beside _).call fun _ ↦
    (keepsLog_beside _).call
  · refine .bind (keepsLog_beside _).call fun extents ↦ ?_
    split_ifs <;> exact fun _ ↦ rfl
  · refine .bind (keepsLog_beside _).call fun extents ↦ ?_
    split_ifs <;> exact fun _ ↦ rfl

theorem keepsLog_settleSlice (fd : ℕ) (gap : CollectorExtent) :
    KeepsLog (settleSlice (K.logged blockSize) fd gap) :=
  .bind (keepsLog_beside _).call fun _ ↦ (keepsLog_beside _).call

/-- The log after an exchange: the exchange is noted unless it was refused, and may be missing where
the pass raises. -/
def NotedBy (r : Request) (log : List Request) :
    EStateM.Result NativeError (σ × List Request) Unit → Prop
  | .error (.sourceNotMovable _) w => w.2 = log
  | .error _ w => w.2 <+ log ++ [r]
  | .ok _ w => w.2 = log ++ [r]

theorem note_sublist (refused : Bool) (r : Request) (log : List Request) :
    note refused r log <+ log ++ [r] := by
  cases refused
  · exact Sublist.refl _
  · exact sublist_append_left _ _

/-- **An exchange of the pass is noted with its own arguments**, on either filesystem. -/
theorem exchange_logged (filesystem : Filesystem) (x : Exchange) (w : σ × List Request) :
    NotedBy x.request w.2 (exchange (K.logged blockSize) filesystem blockSize x.sourceFd x.donorFd
      x.sourceOffset x.donorOffset x.length w) := by
  cases filesystem with
  | ext4 =>
    simp only [exchange, ext4Exchange, Kernel.logged, noting]
    split_ifs with haligned
    · exact sublist_append_left _ _
    push Not at haligned
    -- whole blocks, so the blocks that are asked for are the bytes of the slice
    rw [Nat.div_mul_cancel (Nat.dvd_of_mod_eq_zero haligned.1),
      Nat.div_mul_cancel (Nat.dvd_of_mod_eq_zero haligned.2.1),
      Nat.div_mul_cancel (Nat.dvd_of_mod_eq_zero haligned.2.2)]
    cases K.moveExtents x.sourceFd x.donorFd (x.sourceOffset / blockSize)
      (x.donorOffset / blockSize)
      (x.length / blockSize) w.1 with
    | error e v =>
      simp only
      split_ifs with hrefused
      · simp [NotedBy, note, hrefused]
      · exact note_sublist _ _ _
    | ok moved v =>
      simp only
      split_ifs
      · exact Sublist.refl _
      · rfl
  | xfs =>
    simp only [exchange, xfsExchange, Kernel.logged, noting]
    cases K.exchangeRange x.sourceFd x.donorFd x.sourceOffset x.donorOffset x.length w.1 with
    | error e v =>
      simp only
      split_ifs with hnone hrefused
      · exact note_sublist _ _ _
      · simp [NotedBy, note, hrefused]
      · exact note_sublist _ _ _
    | ok u v => rfl

end Logged

/-! ### Runs -/

section Runs

variable {σ : Type} {K : Kernel σ} {filesystem : Filesystem} {blockSize index : ℕ}
  {gap : CollectorExtent} {cursor donorLogical fuel : ℕ} {st st' : PassState (σ × List Request)}

/-- The log has the exchanges of the pass. -/
def Noted (st : PassState (σ × List Request)) : Prop :=
  st.world.2 = st.exchanges.map Exchange.request

/-- How the log stands at the end: where the pass has raised, the last exchange may be missing. -/
def NotedAtEnd (out : Ending × PassState (σ × List Request)) : Prop :=
  out.2.world.2 <+ out.2.exchanges.map Exchange.request ∧
    ((∀ err, out.1 ≠ .raised err) → Noted out.2)

/-- The same after a round. -/
def NotedAfter : Round × PassState (σ × List Request) → Prop
  | (.ends e, st) => NotedAtEnd (e, st)
  | (_, st) => Noted st

theorem Noted.atEnd (h : Noted st) (e : Ending) : NotedAtEnd (e, st) :=
  ⟨(show st.world.2 = _ from h) ▸ Sublist.refl _, fun _ ↦ h⟩

theorem exchangeRound_noted (h : Noted st) (x : Exchange) :
    NotedAfter (exchangeRound (K.logged blockSize) filesystem blockSize gap x st) := by
  unfold Noted at h
  have hprep := keepsLog_prepareSlice K blockSize x.sourceFd (st.sources x.token) gap x.sourceOffset
    x.sourcePhysical x.donorOffset x.destination x.length st.world
  rw [exchangeRound]
  split <;> rename_i w hw <;> rw [hw, stateAfter, h] at hprep
  · exact (show Noted { st with world := w } from hprep).atEnd _
  have hex := exchange_logged K blockSize filesystem x w
  rw [hprep] at hex
  split <;> rename_i v hv <;> rw [hv] at hex
  · exact hex
  · refine ⟨?_, fun hno ↦ absurd rfl (hno _)⟩
    rw [map_append]
    revert hex
    unfold NotedBy
    split <;> simp_all
  have hsettle := keepsLog_settleSlice K blockSize x.sourceFd gap v
  have hv' : v.2 = (st.exchanges ++ [x]).map Exchange.request := by simpa [NotedBy] using hex
  split <;> rename_i u hu <;> rw [hu, stateAfter, hv'] at hsettle
  · exact (show Noted { st with world := u, exchanges := st.exchanges ++ [x] } from hsettle).atEnd _
  · exact hsettle

theorem passRound_noted (h : Noted st) : NotedAfter
    (passRound (K.logged blockSize) filesystem blockSize index gap cursor donorLogical st) := by
  rw [passRound]
  split_ifs
  · exact Noted.atEnd h _
  split
  · exact Noted.atEnd h _
  rename_i token heap _
  simp only
  split_ifs
  · exact Noted.atEnd h _
  have hopen := keepsLog_beside (K.openFile (st.sources token).path) st.world
  split <;> rename_i w hr <;>
    rw [show beside (K.openFile (st.sources token).path) st.world = _ from hr] at hopen
  · exact hopen.trans h
  · exact exchangeRound_noted (show Noted { st with world := w, heap } from hopen.trans h) _

/-- **The exchanges of a pass are the calls it makes.** -/
theorem compactExtentPass_noted (K : Kernel σ) (filesystem : Filesystem) (blockSize fuel : ℕ)
    (gaps : List CollectorExtent) (sources : List SourceExtent) (w : σ) : NotedAtEnd
      (compactExtentPass (K.logged blockSize) filesystem blockSize fuel gaps sources (w, [])) := by
  have hstart : Noted (PassState.start (w, []) sources) := rfl
  rw [compactExtentPass]
  split_ifs
  · exact hstart.atEnd _
  · exact hstart.atEnd _
  refine fillGaps_rule (I := Noted) (fun gap _ index st hst ↦ ?_) (fun st hst _ ↦ hst.2 nofun)
    (fun st hst ↦ hst.atEnd _) hstart
  refine fillGap_rule (I := fun _ _ ↦ Noted) (fun c d st hst ↦ ?_) (fun _ _ st hst ↦
    ⟨hst.atEnd _, hst.atEnd _⟩) hst
  have hround : NotedAfter (passRound (K.logged blockSize) filesystem blockSize index gap c d st) :=
    passRound_noted hst
  exact ⟨fun e st' hr ↦ by rwa [hr] at hround, fun st' hr ↦ by rwa [hr] at hround,
    fun n st' hr ↦ by rwa [hr] at hround⟩

end Runs

end LinuxDefragger.Native
