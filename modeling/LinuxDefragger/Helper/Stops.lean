import LinuxDefragger.Helper.Privileged

/-!
# Stopping a privileged operation

A `stop` request interrupts the recorded child. If the child has not printed a line yet, the request
is queued, and the worker delivers it after the first line.

`Watched` is the helper with a record of the children that were sent a signal. `stop_heeded` follows
one stop request through every later step: until the child is interrupted or has ended, the request
waits in one of the places listed by `Pending`. This needs that the child is recorded when the
request is read. Before that the request is answered with "no active operation" and forgotten, and
the child runs on (`stop_discarded`).
-/

open List Transition

namespace LinuxDefragger.Privileged

/-! ### Signals -/

/-- The helper, with the signals it has sent. -/
structure Watched where
  helper : Helper
  /-- The local variable `process` of `handle_stop` and of the branch `quit` of `main`. -/
  target : Option ℕ
  /-- The children whose process groups were sent `SIGINT`, in order. -/
  interrupted : List ℕ

/-- The helper at the top of its loop. -/
def Watched.initial : Watched := ⟨Helper.initial, none, []⟩

/-- The child that an event sends `SIGINT` to, if it is possible. -/
def Watched.interrupts (s : Watched) : Event → Option ℕ
  | .signal true => s.target
  | .leave => s.target
  | .worker i e =>
    match (s.helper.workers[i]?).map Worker.pc, e with
    | some (.relaying c true), .relay => some c
    -- the handler of an exception has sent the signal before it waited
    | some (.failing (some c)), .abandon => some c
    | _, _ => none
  | _ => none

/-- The local variable `process` after an event: `stop` and `quit` read the record. -/
def Watched.nextTarget (s : Watched) : Event → Option ℕ
  | .message (.stop _) | .message .quit => s.helper.activeProcess
  | _ => s.target

/-- A step of the helper. -/
def Watched.step (s : Watched) (e : Event) : Option Watched :=
  (s.helper.step e).map fun helper ↦
    ⟨helper, s.nextTarget e, s.interrupted ++ (s.interrupts e).toList⟩

/-- The helper with its signals as a transition system. -/
def watched : System Watched Event := ⟨Watched.initial, Watched.step⟩

/-- The condition on a run: requests are let through one after the other, a signal to a child that
is running arrives, and the input does not end while a worker is at work. -/
def attentive (s : Watched) : Event → Bool
  | .signal false => s.target.all (· ∉ s.helper.running)
  | .closed => s.helper.workers.all (·.pc = .done)
  | e => sequential s.helper e

/-- A worker holds a stop request for child `c`: it is queued and the child has not printed a line,
it is about to be delivered, or the child is about to be stopped after an exception. -/
def Holds (c : ℕ) (s : Helper) : WorkerPc → Prop
  | .registered c' | .reading c' | .waiting c' =>
    c' = c ∧ s.activeHasOutput = false ∧ s.pendingStop = true
  | .relaying c' deliver => c' = c ∧ deliver = true
  | .failing child => child = some c
  | _ => False

/-- Where a stop request for child `c` waits. -/
inductive Pending (c : ℕ) (s : Watched) : Prop
  /-- `handle_stop` is about to send the signal. -/
  | signalling {id activeId : Option ℤ} (hmain : s.helper.main = .signalling id activeId)
      (htarget : s.target = some c)
  /-- A worker holds the request. If the helper is about to leave, it is about to send the
  signal. -/
  | held {i : ℕ} {w : Worker} (hw : s.helper.workers[i]? = some w) (hheld : Holds c s.helper w.pc)
      (hquit : s.helper.main = .quitting → s.target = some c)

/-! ### One step -/

variable {e : Event} {pc : WorkerPc} {t : Helper}

variable {pc₀ : WorkerPc} {request : ℤ}

section

variable {s s' : Watched} {c : ℕ}

theorem Watched.step_eq_some (h : s.step e = some s') :
    s.helper.step e = some s'.helper ∧ s'.target = s.nextTarget e ∧
      s'.interrupted = s.interrupted ++ (s.interrupts e).toList := by
  obtain ⟨helper, hstep, rfl⟩ := Option.map_eq_some_iff.1 h
  exact ⟨hstep, rfl, rfl⟩

theorem alone_of_reachable (h : watched.Reachable attentive s) : Alone s.helper := by
  refine h.invariant (P := fun s ↦ Alone s.helper) Alone.initial fun s e s' hs hok hstep ↦ ?_
  refine hs.step ?_ (Watched.step_eq_some hstep).1
  unfold attentive at hok
  split at hok
  · rfl
  · rfl
  · exact hok

theorem Holds.recorded {s : Helper} (h : Holds c s pc) : pc.recorded = some c := by
  cases pc with
  | registered c' | reading c' | waiting c' | relaying c' deliver => exact congrArg some h.1
  | failing child => exact h
  | begin | spawned c' | clearing | done => cases h

/-- A step of the worker that holds a stop request. -/
theorem Advance.holds {s : Helper} {e : WorkerEvent} (h : Advance s request pc₀ e t pc)
    (hheld : Holds c s pc₀) :
    Holds c t pc ∨ (pc₀ = .relaying c true ∧ e = .relay) ∨
    (pc₀ = .failing (some c) ∧ e = .abandon) ∨
      c ∉ s.running := by
  cases h with
  | refused | spawn | register | clear => cases hheld
  | announce | closed => exact .inl hheld
  | line houtput =>
    rw [hheld.2.1] at houtput
    cases houtput
  | firstLine => exact .inl ⟨hheld.1, hheld.2.2⟩
  | relay => exact .inr (.inl ⟨by rw [hheld.1, hheld.2], rfl⟩)
  | reap hended => exact .inr (.inr (.inr (hheld.1 ▸ hended)))
  | raise hc₀ => exact .inl (hc₀.symm.trans hheld.recorded)
  | report hended => exact .inr (.inr (.inr (hended c hheld)))
  | abandon => exact .inr (.inr (.inl ⟨congrArg _ hheld, rfl⟩))

/-- A request that a worker holds stays where the two flags do. -/
theorem Holds.mono {s : Helper} (h : Holds c s pc) (houtput : t.activeHasOutput = s.activeHasOutput)
    (hpending : s.pendingStop = true → t.pendingStop = true) : Holds c t pc := by
  cases pc with
  | registered c' | reading c' | waiting c' => exact ⟨h.1, houtput.trans h.2.1, hpending h.2.2⟩
  | relaying c' deliver => exact h
  | failing child => exact h
  | begin | spawned c' | clearing | done => cases h

/-- What the message loop does to the variables it shares with a worker that holds a request. -/
theorem stepMessage_spec (s : Helper) (m : Message) : (s.stepMessage m).workers = s.workers ∧
      ((s.stepMessage m).running = s.running ∧ (s.stepMessage m).started = s.started) ∧
      (s.stepMessage m).activeHasOutput = s.activeHasOutput ∧
      (s.pendingStop = true → (s.stepMessage m).pendingStop = true) ∧
      ((s.stepMessage m).main = .quitting → s.main = .quitting ∨ m = .quit) := by
  cases m with
  | run id program argv =>
    cases id <;> cases argv <;> try exact ⟨rfl, ⟨rfl, rfl⟩, rfl, id, .inl⟩
    rw [Helper.stepMessage]
    split_ifs
    · exact ⟨rfl, ⟨rfl, rfl⟩, rfl, id, .inl⟩
    · exact ⟨rfl, ⟨rfl, rfl⟩, rfl, id, fun h ↦ by cases h⟩
  | stop id =>
    rw [Helper.stepMessage]
    split_ifs
    · exact ⟨rfl, ⟨rfl, rfl⟩, rfl, fun h ↦ h, .inl⟩
    · exact ⟨rfl, ⟨rfl, rfl⟩, rfl, fun h ↦ h, fun h ↦ by cases h⟩
    · exact ⟨rfl, ⟨rfl, rfl⟩, rfl, fun _ ↦ rfl, .inl⟩
  | quit => exact ⟨rfl, ⟨rfl, rfl⟩, rfl, id, fun _ ↦ .inr rfl⟩
  | ping id | unknown id | invalid => exact ⟨rfl, ⟨rfl, rfl⟩, rfl, fun h ↦ h, .inl⟩

theorem Advance.not_running {s : Helper} {e : WorkerEvent} (h : Advance s request pc₀ e t pc) :
    s.started ≤ t.started ∧ ∀ c < s.started, c ∉ s.running → c ∉ t.running := by
  cases h with
  | spawn =>
    refine ⟨Nat.le_succ _, fun c hc hended hin ↦ ?_⟩
    rcases Finset.mem_insert.1 hin with rfl | hin
    · exact lt_irrefl _ hc
    · exact hended hin
  | refused | register | announce | line | firstLine | relay | closed | reap | raise | report
  | abandon | clear => exact ⟨le_rfl, fun _ _ hended ↦ hended⟩

/-- A child that has ended does not run again. -/
theorem Watched.not_running (h : s.step e = some s') : s.helper.started ≤ s'.helper.started ∧
      ∀ c < s.helper.started, c ∉ s.helper.running → c ∉ s'.helper.running := by
  have hstep := (Watched.step_eq_some h).1
  cases e with
  | message m =>
    rw [Helper.step] at hstep
    split_ifs at hstep
    have hsame := (stepMessage_spec s.helper m).2.1
    rw [← Option.some.inj hstep, hsame.1, hsame.2]
    exact ⟨le_rfl, fun _ _ hended ↦ hended⟩
  | startThread | signal delivered =>
    rw [Helper.step] at hstep
    split at hstep
    · rw [← Option.some.inj hstep]
      exact ⟨le_rfl, fun _ _ hended ↦ hended⟩
    · cases hstep
  | leave | closed =>
    rw [Helper.step] at hstep
    split_ifs at hstep
    rw [← Option.some.inj hstep]
    exact ⟨le_rfl, fun _ _ hended ↦ hended⟩
  | worker j e =>
    obtain ⟨w, -, hstep⟩ := Option.bind_eq_some_iff.1 hstep
    obtain ⟨t, pc, hadvance, heq⟩ := advance_of_stepWorker hstep
    rw [heq]
    exact hadvance.not_running
  | exit c' =>
    rw [Helper.step] at hstep
    split_ifs at hstep
    rw [← Option.some.inj hstep]
    exact ⟨le_rfl, fun _ _ hended hin ↦ hended (Finset.mem_of_mem_erase hin)⟩

/-- A step while the loop is about to signal. -/
theorem Pending.step_signalling {id activeId : Option ℤ}
    (hmain : s.helper.main = .signalling id activeId) (ht : s.target = some c)
    (hok : attentive s e = true) (h : s.step e = some s') :
    Pending c s' ∨ c ∈ (s.interrupts e).toList ∨ c ∉ s.helper.running := by
  obtain ⟨hstep, htarget, -⟩ := Watched.step_eq_some h
  cases e with
  | message m | startThread | leave | closed =>
    rw [Helper.step, hmain] at hstep
    cases hstep
  | signal delivered =>
    cases delivered with
    | true => exact .inr (.inl (by rw [Watched.interrupts, ht]; exact mem_singleton_self c))
    | false =>
      rw [attentive, ht] at hok
      exact .inr (.inr (by simpa using hok))
  | worker j e =>
    obtain ⟨w, -, hstep⟩ := Option.bind_eq_some_iff.1 hstep
    obtain ⟨t, pc, hadvance, heq⟩ := advance_of_stepWorker hstep
    have hmain' : s'.helper.main = .signalling id activeId := by
      rw [heq]
      exact hadvance.same.1.trans hmain
    exact .inl (.signalling hmain' (htarget.trans ht))
  | exit c' =>
    rw [Helper.step] at hstep
    split_ifs at hstep
    have hmain' : s'.helper.main = .signalling id activeId := by
      rw [← Option.some.inj hstep]
      exact hmain
    exact .inl (.signalling hmain' (htarget.trans ht))

/-- A step of the worker that holds a stop request, the only one alive. -/
theorem Pending.step_worker {i j : ℕ} {w : Worker} {e : WorkerEvent} (hs : Alone s.helper)
    (hw : s.helper.workers[i]? = some w) (hheld : Holds c s.helper w.pc)
    (hquit : s.helper.main = .quitting → s.target = some c) (h : s.step (.worker j e) = some s') :
    Pending c s' ∨ c ∈ (s.interrupts (.worker j e)).toList ∨ c ∉ s.helper.running := by
  obtain ⟨hstep, htarget, -⟩ := Watched.step_eq_some h
  obtain ⟨v, hv, hstep⟩ := Option.bind_eq_some_iff.1 hstep
  obtain ⟨t, pc, hadvance, heq⟩ := advance_of_stepWorker hstep
  have hlive : s.helper.Live i :=
    ⟨w, hw, WorkerPc.ne_done_of_child (WorkerPc.child_of_recorded hheld.recorded)⟩
  obtain ⟨hne, -⟩ := hadvance.spec (hs.recorded j v · hv) (hs.started j v · hv)
  obtain rfl : j = i := hs.one j i ⟨v, hv, hne⟩ hlive
  obtain rfl := Option.some.inj (hv.symm.trans hw)
  rcases hadvance.holds hheld with hheld' | ⟨hpc, rfl⟩ | ⟨hpc, rfl⟩ | hended
  · have hlt : j < s.helper.workers.length := (List.getElem?_eq_some_iff.1 hw).1
    have hself : s'.helper.workers[j]? = some { v with pc } := by
      rw [heq]
      show (t.workers.set j _)[j]? = _
      rw [hadvance.same.2, getElem?_set_self hlt]
    refine .inl (.held hself ?_ fun hm ↦ ?_)
    · rw [heq]
      exact hheld'.mono rfl id
    · rw [heq] at hm
      exact htarget.trans (hquit (hadvance.same.1 ▸ hm))
  · exact .inr (.inl (by simp [Watched.interrupts, hw, hpc]))
  · exact .inr (.inl (by simp [Watched.interrupts, hw, hpc]))
  · exact .inr (.inr hended)

/-- **A step with a stop request waiting**: it waits on, the child is interrupted, or it has
ended. -/
theorem Pending.step (hs : Alone s.helper) (hp : Pending c s) (hok : attentive s e = true)
    (h : s.step e = some s') :
    Pending c s' ∨ c ∈ (s.interrupts e).toList ∨ c ∉ s.helper.running := by
  cases hp with
  | signalling hmain ht => exact Pending.step_signalling hmain ht hok h
  | @held i w hw hheld hquit =>
    have hactive := hs.recorded i w c hw hheld.recorded
    have hlive : s.helper.Live i :=
      ⟨w, hw, WorkerPc.ne_done_of_child (WorkerPc.child_of_recorded hheld.recorded)⟩
    obtain ⟨hstep, htarget, -⟩ := Watched.step_eq_some h
    cases e with
    | message m =>
      rw [Helper.step] at hstep
      split_ifs at hstep with hready
      obtain ⟨hworkers, -, houtput, hpending, hmain⟩ := stepMessage_spec s.helper m
      rw [Option.some.inj hstep] at hworkers houtput hpending hmain
      refine .inl (.held (hworkers ▸ hw) (hheld.mono houtput hpending) fun hm ↦ ?_)
      rcases hmain hm with hm | rfl
      · rw [hready] at hm
        cases hm
      · exact htarget.trans hactive
    | startThread =>
      rw [Helper.step] at hstep
      split at hstep
      · rename_i id program argv hmain
        exact absurd hlive (hs.quiet id program argv hmain i)
      · cases hstep
    | signal delivered =>
      rw [Helper.step] at hstep
      split at hstep
      · obtain ⟨helper, target, interrupted⟩ := s'
        obtain rfl := Option.some.inj hstep
        exact .inl (.held hw (hheld.mono rfl id) fun hm ↦ by cases hm)
      · cases hstep
    | leave =>
      rw [Helper.step] at hstep
      split_ifs at hstep with hmain
      exact .inr (.inl (by rw [Watched.interrupts, hquit hmain]; exact mem_singleton_self c))
    | closed =>
      have hdone := all_eq_true.1 hok w (mem_of_getElem? hw)
      exact absurd (by simpa using hdone) (WorkerPc.ne_done_of_child
        (WorkerPc.child_of_recorded hheld.recorded))
    | worker j e => exact Pending.step_worker hs hw hheld hquit h
    | exit c' =>
      rw [Helper.step] at hstep
      split_ifs at hstep
      obtain ⟨helper, target, interrupted⟩ := s'
      obtain rfl := Option.some.inj hstep
      exact .inl (.held hw (hheld.mono rfl id) fun hm ↦ htarget.trans (hquit hm))

/-! ### Whole runs -/

/-- What is left of a stop request for child `c` after a run from `s`: the child was interrupted in
the run, it has ended, or the request waits. -/
def Settled (c : ℕ) (s s' : Watched) : Prop :=
  c ∈ s'.interrupted.drop s.interrupted.length ∨ c ∉ s'.helper.running ∨ Pending c s'

/-- **A run with a stop request waiting.** -/
theorem Pending.run {es : List Event} (hs : watched.Reachable attentive s) (hp : Pending c s)
    (hc : c < s.helper.started) (h : watched.run attentive s es = some s') : Settled c s s' := by
  -- the signals of the run come behind those before it
  have hall : (s.interrupted.length ≤ s'.interrupted.length ∧ c < s'.helper.started) ∧
      Settled c s s' := by
    refine System.run_invariant (P := fun t ↦ (s.interrupted.length ≤ t.interrupted.length ∧
      c < t.helper.started) ∧ Settled c s t) (fun t e t' ht hinv hok hstep ↦ ?_) hs
      ⟨⟨le_rfl, hc⟩, .inr (.inr hp)⟩ h
    obtain ⟨⟨hlen, hc⟩, hsettled⟩ := hinv
    have hlog := (Watched.step_eq_some hstep).2.2
    obtain ⟨hstarted, hgone⟩ := Watched.not_running hstep
    have hdrop : t'.interrupted.drop s.interrupted.length =
        t.interrupted.drop s.interrupted.length ++ (t.interrupts e).toList := by
      rw [hlog, drop_append_of_le_length hlen]
    refine ⟨⟨by rw [hlog, length_append]; omega, hc.trans_le hstarted⟩, ?_⟩
    rw [Settled, hdrop, mem_append]
    rcases hsettled with hin | hended | hpending
    · exact .inl (.inl hin)
    · exact .inr (.inl (hgone c hc hended))
    · rcases hpending.step (alone_of_reachable ht) hok hstep with hp | hin | hended
      · exact .inr (.inr hp)
      · exact .inl (.inr hin)
      · exact .inr (.inl (hgone c hc hended))
  exact hall.2

/-- A worker relays a line only after it has recorded that there is output. -/
def Relays (s : Helper) : Prop :=
  ∀ (i : ℕ) (w : Worker) (c : ℕ) (deliver : Bool), s.workers[i]? = some w →
    w.pc = .relaying c deliver → s.activeHasOutput = true

theorem Advance.relays {s : Helper} {e : WorkerEvent} (h : Advance s request pc₀ e t pc)
    {deliver : Bool} (hpc : pc = .relaying c deliver) :
    t.activeHasOutput = true := by
  cases h with
  | line houtput => exact houtput
  | firstLine => rfl
  | refused | spawn | register | announce | relay | closed | reap | raise | report | abandon
  | clear => cases hpc

theorem Relays.step {s s' : Helper} (hr : Relays s) (hs : Alone s) (h : s.step e = some s') :
    Relays s' := by
  intro i w c deliver hw hpc
  cases e with
  | message m =>
    rw [Helper.step] at h
    split_ifs at h
    obtain ⟨hworkers, -, houtput, -⟩ := stepMessage_spec s m
    rw [Option.some.inj h] at hworkers houtput
    rw [houtput]
    exact hr i w c deliver (hworkers ▸ hw) hpc
  | startThread =>
    rw [Helper.step] at h
    split at h
    · obtain rfl := Option.some.inj h
      rcases Nat.lt_or_ge i s.workers.length with hlt | hge
      · exact hr i w c deliver (by rwa [getElem?_append_left hlt] at hw) hpc
      · -- the new worker is at its beginning
        rw [getElem?_append_right hge] at hw
        obtain ⟨hlen, rfl⟩ := List.getElem?_eq_some_iff.1 hw
        simp at hpc
    · cases h
  | signal delivered =>
    rw [Helper.step] at h
    split at h
    · obtain rfl := Option.some.inj h
      exact hr i w c deliver hw hpc
    · cases h
  | leave | closed =>
    rw [Helper.step] at h
    split_ifs at h
    obtain rfl := Option.some.inj h
    exact hr i w c deliver hw hpc
  | worker j e =>
    obtain ⟨v, hv, h⟩ := Option.bind_eq_some_iff.1 h
    obtain ⟨t, pc, hadvance, rfl⟩ := advance_of_stepWorker h
    obtain ⟨hne, -⟩ := hadvance.spec (hs.recorded j v · hv) (hs.started j v · hv)
    have hw : (s.workers.set j { v with pc })[i]? = some w := hadvance.same.2 ▸ hw
    rcases eq_or_ne j i with rfl | hji
    · have hlt : j < s.workers.length := (List.getElem?_eq_some_iff.1 hv).1
      rw [getElem?_set_self hlt] at hw
      obtain rfl := Option.some.inj hw
      exact hadvance.relays hpc
    · rw [getElem?_set_ne hji] at hw
      exact absurd (hs.one j i ⟨v, hv, hne⟩ ⟨w, hw, by rw [hpc]; simp⟩) hji
  | exit c' =>
    rw [Helper.step] at h
    split_ifs at h
    obtain rfl := Option.some.inj h
    exact hr i w c deliver hw hpc

theorem relays_of_reachable (h : watched.Reachable attentive s) : Relays s.helper := by
  induction h with
  | init => exact fun i w c deliver hw ↦ by cases hw
  | step hs _ hstep ih => exact ih.step (alone_of_reachable hs) (Watched.step_eq_some hstep).1

/-- A stop request that is read while the child is recorded waits. -/
theorem pending_of_stop {id : Option ℤ} {i : ℕ} {w : Worker} (hs : Alone s.helper)
    (hr : Relays s.helper) (hw : s.helper.workers[i]? = some w) (hc : w.pc.recorded = some c)
    (h : s.step (.message (.stop id)) = some s') : Pending c s' := by
  obtain ⟨helper, target, interrupted⟩ := s'
  obtain ⟨hstep, htarget, -⟩ := Watched.step_eq_some h
  have hactive := hs.recorded i w c hw hc
  rw [Helper.step] at hstep
  split_ifs at hstep with hready
  obtain rfl := Option.some.inj hstep
  rw [Helper.stepMessage, if_neg (by rw [hactive]; simp)]
  split_ifs with houtput
  · exact .signalling rfl (htarget.trans hactive)
  · have hno : s.helper.activeHasOutput = false := Bool.eq_false_of_not_eq_true houtput
    refine .held hw ?_ fun hm ↦ ?_
    · cases hpc : w.pc with
      | registered c' | reading c' | waiting c' =>
        rw [hpc] at hc
        exact ⟨Option.some.inj hc, hno, rfl⟩
      | relaying c' deliver => exact absurd (hr i w c' deliver hw hpc) houtput
      | failing child =>
        rw [hpc] at hc
        exact hc
      | begin | spawned c' | clearing | done =>
        rw [hpc] at hc
        cases hc
    · exact absurd (hready.symm.trans hm) (by simp)

end

/-- **No stop request is lost once the child is recorded.** In a run in which requests are let
through one after the other, a stop request that is read while a worker has its child recorded (from
the registration until `finished` is sent) is settled after every continuation: the child was
interrupted since, it has ended, or the request still waits to be delivered. -/
theorem stop_heeded {s s₁ s₂ : Watched} {id : Option ℤ} {w : Worker} {c : ℕ} {es : List Event}
    (hs : watched.Reachable attentive s) (hw : w ∈ s.helper.workers) (hc : w.pc.recorded = some c)
    (hstop : watched.step s (.message (.stop id)) = some s₁)
    (hrun : watched.run attentive s₁ es = some s₂) : Settled c s₁ s₂ := by
  have halone := alone_of_reachable hs
  obtain ⟨i, hi, rfl⟩ := getElem_of_mem hw
  have hwi := getElem?_eq_getElem hi
  refine Pending.run (hs.step rfl hstop) ?_ ?_ hrun
  · exact pending_of_stop halone (relays_of_reachable hs) hwi hc hstop
  · exact (halone.started i _ c hwi (WorkerPc.child_of_recorded hc)).trans_le
      (Watched.not_running hstop).1

/-- A stop request before the first line is delivered after it. -/
theorem stop_heeded_queued :
    ∃ s s₁ s₂ : Watched, watched.run attentive Watched.initial
        [mapRequest 1, .startThread, spawnIn 0, .worker 0 .register, .worker 0 .announce] = some s ∧
      watched.step s (.message (.stop none)) = some s₁ ∧
      watched.run attentive s₁ [.worker 0 .line, .worker 0 .relay] = some s₂ ∧
      s₂.interrupted = [0] ∧ Settled 0 s₁ s₂ :=
  ⟨_, _, _, rfl, rfl, rfl, rfl, @stop_heeded _ _ _ none ⟨1, "mapper", [], .reading 0⟩ 0
    [.worker 0 .line, .worker 0 .relay] (System.reachable_of_run [mapRequest 1, .startThread,
      spawnIn 0, .worker 0 .register, .worker 0 .announce] rfl) (List.Mem.head []) rfl rfl rfl⟩

/-- **What goes wrong without the conditions.** A stop request that is read after the run request
was accepted and before the child is recorded is answered with "no active operation", and the child
runs on without a signal. A queued request is dropped when a second worker records its child. -/
theorem stop_discarded :
    (∃ s, watched.run System.free Watched.initial [mapRequest 1, .startThread,
        .message (.stop (some 2)), spawnIn 0, .worker 0 .register, .worker 0 .announce,
        .worker 0 .line, .worker 0 .relay] = some s ∧
      .stopResult (some 2) none false ∈ s.helper.sent ∧
      0 ∈ s.helper.running ∧ s.interrupted = [] ∧ s.helper.pendingStop = false ∧
      s.helper.workers.map Worker.pc = [.reading 0]) ∧
    ∃ s, watched.run System.free Watched.initial [mapRequest 1, .startThread, mapRequest 2,
        .startThread, spawnIn 0, .worker 0 .register, .message (.stop (some 3)), spawnIn 1,
        .worker 1 .register, .worker 0 .announce, .worker 0 .line, .worker 0 .relay] = some s ∧
      .stopResult (some 3) (some 1) true ∈ s.helper.sent ∧
      0 ∈ s.helper.running ∧ s.interrupted = [] ∧ s.helper.pendingStop = false ∧
      s.helper.workers.map Worker.pc = [.reading 0, .registered 1] := by
  refine ⟨⟨_, rfl, ?_⟩, ⟨_, rfl, ?_⟩⟩
  · decide
  · decide

end LinuxDefragger.Privileged
