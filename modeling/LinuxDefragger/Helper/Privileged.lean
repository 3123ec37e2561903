import LinuxDefragger.Transition
import Mathlib.Data.Finset.Card

/-!
# The privileged helper

One process runs as root. Its message loop reads requests from the user interface; a `run` request
is answered by a worker thread that starts a child process, records it as the active one, relays its
output and clears the record when the child has ended.

The threads share four variables under one lock. A step of a thread here is one critical section, or
one action that another thread or the outside can see: starting a child, sending a message or a
signal. What the outside decides is part of the event.

The loop tests that no child is recorded, but the record is made later, by the worker. So two
workers may be on their way at once.
-/

open List Transition

namespace LinuxDefragger.Privileged

/-! ### Commands -/

/-- `OPERATION_ENGINE`, `MAPPER` and `UDISKSCTL` -/
def operationEngine : String := "/usr/lib/linux-defragger/operation_engine.py"

/-- The program that draws allocation maps. -/
@[inherit_doc operationEngine]
def mapper : String := "/usr/lib/linux-defragger/allocation_mapper.py"

/-- The program that mounts and unmounts. -/
@[inherit_doc operationEngine]
def udisksctl : String := "/usr/bin/udisksctl"

/-- `allowed_command`; `available` says which programs are installed and executable. -/
def allowedCommand (available : String → Bool) (program : String) (argv : List String) :
    Except String (List String) :=
  if program = "operation-engine" then
    if ¬available operationEngine then
      .error ("operation engine is unavailable: " ++ operationEngine)
    else if ¬(argv.head?.any fun a ↦ a ∈ ["compact", "defrag", "growth-defrag", "recover"]) then
      .error "operation-engine command is not allowed"
    else if "--filesystem" ∉ argv then .error "operation-engine request has no filesystem plugin"
    else .ok (operationEngine :: argv)
  else if program = "mapper" then
    if ¬available mapper then .error ("allocation mapper is unavailable: " ++ mapper)
    else .ok (mapper :: argv)
  else if program = "udisksctl" then
    if ¬available udisksctl then .error ("udisksctl is unavailable: " ++ udisksctl)
    else match argv with
      | [verb, flag, target] =>
        if verb ≠ "unmount" ∨ flag ≠ "-b" ∨ ¬target.startsWith "/dev/" then
          .error "only udisksctl unmount -b /dev/... is allowed"
        else .ok (udisksctl :: argv)
      | _ => .error "only udisksctl unmount -b /dev/... is allowed"
  else .error "unknown helper program"

/-! ### Messages -/

/-- A line that the loop reads, as far as it looks at it. The request number of `run` is missing
where `int` raises, its arguments where they are not a list of strings. -/
inductive Message
  | run (id : Option ℤ) (program : String) (argv : Option (List String))
  | stop (id : Option ℤ)
  | ping (id : Option ℤ)
  | quit
  | unknown (id : Option ℤ)
  | invalid

/-- What the helper sends; lines of output and texts of exceptions are left out. -/
inductive Reply
  | ready
  | error (id : Option ℤ) (message : String)
  | failed (id : Option ℤ)
  | started (id : ℤ) (child : ℕ)
  | output (id : ℤ)
  | stopResult (id activeId : Option ℤ) (delivered : Bool)
  | finished (id : ℤ)
  | pong (id : Option ℤ)
  | bye
  deriving DecidableEq

/-! ### Threads -/

/-- Where a worker is in `run_request`; children are numbered as they are started. -/
inductive WorkerPc
  /-- Before `allowed_command`. -/
  | begin
  | spawned (child : ℕ)
  | registered (child : ℕ)
  | reading (child : ℕ)
  /-- A line is to be relayed, and perhaps a queued stop to be delivered. -/
  | relaying (child : ℕ) (deliver : Bool)
  | waiting (child : ℕ)
  /-- In the handler of an exception, with the child if there is one. -/
  | failing (child : Option ℕ)
  /-- Before the `finally` block. -/
  | clearing
  | done
  deriving DecidableEq

/-- A worker thread. -/
structure Worker where
  request : ℤ
  program : String
  argv : List String
  pc : WorkerPc

/-- Where the message loop is. -/
inductive MainPc
  | ready
  /-- `handle_run` has made its test and will start a thread. -/
  | accepted (id : ℤ) (program : String) (argv : List String)
  /-- `handle_stop` is about to send a signal. -/
  | signalling (id : Option ℤ) (activeId : Option ℤ)
  /-- `quit` is about to stop the child and to leave. -/
  | quitting
  | exited
  deriving DecidableEq

/-- The helper and the children it has started. -/
structure Helper where
  main : MainPc
  workers : List Worker
  activeProcess : Option ℕ
  activeRequestId : Option ℤ
  activeHasOutput : Bool
  pendingStop : Bool
  running : Finset ℕ
  started : ℕ
  sent : List Reply

/-- The helper at the top of its loop. -/
def Helper.initial : Helper where
  main := .ready
  workers := []
  activeProcess := none
  activeRequestId := none
  activeHasOutput := false
  pendingStop := false
  running := ∅
  started := 0
  sent := [.ready]

/-- `emit` -/
def Helper.emit (s : Helper) (r : Reply) : Helper := { s with sent := s.sent ++ [r] }

/-! ### Steps -/

/-- What a worker does next, or what happens to it. -/
inductive WorkerEvent
  /-- `allowed_command` and `Popen`, which may raise. -/
  | spawn (available : String → Bool) (popen : Bool)
  | register
  | announce
  | line
  | relay
  /-- The child has closed its output. -/
  | closed
  | reap
  /-- An exception in the `try` block. -/
  | raise
  /-- The handler of an exception is through, and the child has ended. -/
  | report
  /-- The handler has waited in vain for the child. -/
  | abandon
  | clear

/-- The events of the helper. -/
inductive Event
  | message (m : Message)
  | startThread
  | signal (delivered : Bool)
  | leave
  /-- The input ends, or the loop dies of an exception. -/
  | closed
  | worker (i : ℕ) (e : WorkerEvent)
  | exit (child : ℕ)

/-- One round of `main` up to the first step that is not determined. -/
def Helper.stepMessage (s : Helper) : Message → Helper
  | .run none _ _ => s.emit (.failed none)
  | .run (some id) _ none => s.emit (.error (some id) "argv must be a list of strings")
  | .run (some id) program (some argv) =>
    if s.activeProcess ≠ none then
      s.emit (.error (some id) "another privileged operation is already active")
    else { s with main := .accepted id program argv }
  | .stop id =>
    if s.activeProcess = none then s.emit (.stopResult id s.activeRequestId false)
    else if s.activeHasOutput then { s with main := .signalling id s.activeRequestId }
    else { s with pendingStop := true }.emit (.stopResult id s.activeRequestId true)
  | .ping id => s.emit (.pong id)
  | .quit => { s with main := .quitting }
  | .unknown id => s.emit (.error id "unknown helper action")
  | .invalid => s.emit (.failed none)

/-- Move worker `i` on. -/
def Helper.setPc (s : Helper) (i : ℕ) (w : Worker) (pc : WorkerPc) : Helper :=
  { s with workers := s.workers.set i { w with pc } }

/-- A step of `run_request` in worker `i`. -/
def Helper.stepWorker (s : Helper) (i : ℕ) (w : Worker) (e : WorkerEvent) : Option Helper :=
  match w.pc, e with
  | .begin, .spawn available popen =>
    match allowedCommand available w.program w.argv with
    | .error _ => some (s.setPc i w (.failing none))
    | .ok _ =>
      if popen then
        some ({ s with running := insert s.started s.running, started := s.started + 1 }.setPc i w
          (.spawned s.started))
      else some (s.setPc i w (.failing none))
  | .spawned c, .register =>
    some ({ s with
      activeProcess := some c, activeRequestId := some w.request
      activeHasOutput := false, pendingStop := false }.setPc i w (.registered c))
  | .registered c, .announce => some ((s.emit (.started w.request c)).setPc i w (.reading c))
  | .reading c, .line =>
    if s.activeHasOutput then some (s.setPc i w (.relaying c false))
    else some ({ s with activeHasOutput := true, pendingStop := false }.setPc i w
      (.relaying c s.pendingStop))
  | .relaying c deliver, .relay =>
    let s := s.emit (.output w.request)
    let s := if deliver then s.emit (.stopResult none (some w.request) true) else s
    some (s.setPc i w (.reading c))
  | .reading c, .closed => some (s.setPc i w (.waiting c))
  | .waiting c, .reap =>
    if c ∈ s.running then none else some ((s.emit (.finished w.request)).setPc i w .clearing)
  | .registered c, .raise | .reading c, .raise | .relaying c _, .raise | .waiting c, .raise =>
    some (s.setPc i w (.failing (some c)))
  | .failing child, .report =>
    if child.any (· ∈ s.running) then none
    else some (((s.emit (.failed (some w.request))).emit (.finished w.request)).setPc i w .clearing)
  | .failing (some _), .abandon =>
    some (((s.emit (.failed (some w.request))).emit (.finished w.request)).setPc i w .clearing)
  | .clearing, .clear =>
    some ({ s with
      activeProcess := none, activeRequestId := none
      activeHasOutput := false, pendingStop := false }.setPc i w .done)
  | _, _ => none

/-- A step of the helper. -/
def Helper.step (s : Helper) : Event → Option Helper
  | .message m => if s.main = .ready then some (s.stepMessage m) else none
  | .startThread =>
    match s.main with
    | .accepted id program argv =>
      some { s with main := .ready, workers := s.workers ++ [⟨id, program, argv, .begin⟩] }
    | _ => none
  | .signal delivered =>
    match s.main with
    | .signalling id activeId =>
      some ({ s with main := .ready }.emit (.stopResult id activeId delivered))
    | _ => none
  | .leave => if s.main = .quitting then some ({ s with main := .exited }.emit .bye) else none
  | .closed => if s.main = .ready then some { s with main := .exited } else none
  | .worker i e => (s.workers[i]?).bind fun w ↦ s.stepWorker i w e
  | .exit c => if c ∈ s.running then some { s with running := s.running.erase c } else none

/-- The helper as a transition system. -/
def helper : System Helper Event := ⟨Helper.initial, Helper.step⟩

/-! ### One worker at a time -/

/-- The child of a worker. -/
def WorkerPc.child : WorkerPc → Option ℕ
  | .spawned c | .registered c | .reading c | .relaying c _ | .waiting c => some c
  | .failing child => child
  | _ => none

/-- The child that a worker has recorded. -/
def WorkerPc.recorded : WorkerPc → Option ℕ
  | .spawned _ => none
  | pc => pc.child

theorem WorkerPc.ne_done_of_child {pc : WorkerPc} {c : ℕ} (h : pc.child = some c) : pc ≠ .done := by
  rintro rfl
  cases h

theorem WorkerPc.child_of_recorded {pc : WorkerPc} {c : ℕ} (h : pc.recorded = some c) :
    pc.child = some c := by
  cases pc <;> first | exact h | cases h

/-- Worker `i` has not ended. -/
def Helper.Live (s : Helper) (i : ℕ) : Prop := ∃ w, s.workers[i]? = some w ∧ w.pc ≠ .done

/-- The condition on requests: `run` finds a child recorded, or every earlier worker has ended. -/
def sequential (s : Helper) : Event → Bool
  | .message (.run (some _) _ (some _)) => s.activeProcess.isSome || s.workers.all (·.pc = .done)
  | _ => true

/-- **The invariant of such a run**: one worker at most is alive, none while a request is being
accepted, and what it has recorded is recorded. -/
structure Alone (s : Helper) : Prop where
  one : ∀ i j, s.Live i → s.Live j → i = j
  quiet : ∀ id program argv, s.main = .accepted id program argv → ∀ i, ¬s.Live i
  recorded : ∀ (i : ℕ) (w : Worker) (c : ℕ), s.workers[i]? = some w → w.pc.recorded = some c →
    s.activeProcess = some c
  started : ∀ (i : ℕ) (w : Worker) (c : ℕ), s.workers[i]? = some w → w.pc.child = some c →
    c < s.started

section Alone

variable {s s' : Helper} {i : ℕ} {w : Worker} {pc : WorkerPc}

/-- Steps of the loop that do not start a thread. -/
theorem Alone.of_main (hs : Alone s) (hworkers : s'.workers = s.workers)
    (hactive : s'.activeProcess = s.activeProcess) (hstarted : s'.started = s.started)
    (hmain : ∀ id program argv, s'.main = .accepted id program argv → ∀ i, ¬s.Live i) :
    Alone s' := by
  have hlive : ∀ i, s'.Live i → s.Live i := fun i h ↦ by rwa [Helper.Live, hworkers] at h
  refine ⟨fun i j hi hj ↦ hs.one i j (hlive i hi) (hlive j hj),
    fun id program argv h i hi ↦ hmain id program argv h i (hlive i hi), ?_, ?_⟩
  · rw [hactive, hworkers]
    exact hs.recorded
  · rw [hstarted, hworkers]
    exact hs.started

theorem Alone.of_same_main (hs : Alone s) (hworkers : s'.workers = s.workers)
    (hactive : s'.activeProcess = s.activeProcess) (hstarted : s'.started = s.started)
    (hmain : s'.main = s.main) : Alone s' :=
  hs.of_main hworkers hactive hstarted fun id program argv h ↦ hs.quiet id program argv (hmain ▸ h)

/-- What a step of a worker changes, up to the place where the worker goes on. -/
inductive Advance (s : Helper) (request : ℤ) : WorkerPc → WorkerEvent → Helper → WorkerPc → Prop
  | refused {available : String → Bool} {popen : Bool} :
    Advance s request .begin (.spawn available popen) s (.failing none)
  | spawn {available : String → Bool} {popen : Bool} :
    Advance s request .begin (.spawn available popen)
      { s with running := insert s.started s.running, started := s.started + 1 }
        (.spawned s.started)
  | register {c : ℕ} : Advance s request (.spawned c) .register
      { s with
        activeProcess := some c, activeRequestId := some request
        activeHasOutput := false, pendingStop := false } (.registered c)
  | announce {c : ℕ} :
    Advance s request (.registered c) .announce (s.emit (.started request c)) (.reading c)
  | line {c : ℕ} (h : s.activeHasOutput = true) :
    Advance s request (.reading c) .line s (.relaying c false)
  | firstLine {c : ℕ} (h : s.activeHasOutput = false) :
    Advance s request (.reading c) .line { s with activeHasOutput := true, pendingStop := false }
      (.relaying c s.pendingStop)
  | relay {c : ℕ} {deliver : Bool} {sent : List Reply} :
    Advance s request (.relaying c deliver) .relay { s with sent } (.reading c)
  | closed {c : ℕ} : Advance s request (.reading c) .closed s (.waiting c)
  | reap {c : ℕ} (h : c ∉ s.running) :
    Advance s request (.waiting c) .reap (s.emit (.finished request)) .clearing
  | raise {pc : WorkerPc} {c : ℕ} (h : pc.recorded = some c) :
    Advance s request pc .raise s (.failing (some c))
  | report {child : Option ℕ} {sent : List Reply} (h : ∀ c ∈ child, c ∉ s.running) :
    Advance s request (.failing child) .report { s with sent } .clearing
  | abandon {c : ℕ} {sent : List Reply} :
    Advance s request (.failing (some c)) .abandon { s with sent } .clearing
  | clear : Advance s request .clearing .clear
      { s with
        activeProcess := none, activeRequestId := none
        activeHasOutput := false, pendingStop := false } .done

theorem advance_of_stepWorker {e : WorkerEvent} (h : s.stepWorker i w e = some s') :
    ∃ t pc, Advance s w.request w.pc e t pc ∧ s' = t.setPc i w pc := by
  obtain ⟨request, program, argv, pc⟩ := w
  unfold Helper.stepWorker at h
  dsimp only at h
  split at h
  · split at h
    · exact ⟨_, _, .refused, (Option.some.inj h).symm⟩
    · split_ifs at h
      · exact ⟨_, _, .spawn, (Option.some.inj h).symm⟩
      · exact ⟨_, _, .refused, (Option.some.inj h).symm⟩
  · exact ⟨_, _, .register, (Option.some.inj h).symm⟩
  · exact ⟨_, _, .announce, (Option.some.inj h).symm⟩
  · split_ifs at h with houtput
    · exact ⟨_, _, .line houtput, (Option.some.inj h).symm⟩
    · exact ⟨_, _, .firstLine (Bool.eq_false_of_not_eq_true houtput), (Option.some.inj h).symm⟩
  · rename_i c deliver
    cases deliver <;> exact ⟨_, _, .relay, (Option.some.inj h).symm⟩
  · exact ⟨_, _, .closed, (Option.some.inj h).symm⟩
  · split_ifs at h with hrunning
    exact ⟨_, _, .reap hrunning, (Option.some.inj h).symm⟩
  · exact ⟨_, _, .raise rfl, (Option.some.inj h).symm⟩
  · exact ⟨_, _, .raise rfl, (Option.some.inj h).symm⟩
  · exact ⟨_, _, .raise rfl, (Option.some.inj h).symm⟩
  · exact ⟨_, _, .raise rfl, (Option.some.inj h).symm⟩
  · rename_i child
    split_ifs at h with hrunning
    refine ⟨_, _, @Advance.report _ _ _ _ fun c hc hin ↦ hrunning ?_, (Option.some.inj h).symm⟩
    rw [Option.mem_def.1 hc]
    simpa using hin
  · exact ⟨_, _, .abandon, (Option.some.inj h).symm⟩
  · exact ⟨_, _, .clear, (Option.some.inj h).symm⟩
  · cases h

section Advance

variable {request : ℤ} {pc₀ : WorkerPc} {e : WorkerEvent}

theorem Advance.same (h : Advance s request pc₀ e s' pc) :
    s'.main = s.main ∧ s'.workers = s.workers := by
  cases h <;> exact ⟨rfl, rfl⟩

/-- What a step of a worker means for the invariant. -/
theorem Advance.spec (h : Advance s request pc₀ e s' pc)
    (hrecorded : ∀ c, pc₀.recorded = some c → s.activeProcess = some c)
    (hstarted : ∀ c, pc₀.child = some c → c < s.started) :
    pc₀ ≠ .done ∧ (∀ c, pc.recorded = some c → s'.activeProcess = some c) ∧
      ∀ c, pc.child = some c → c < s'.started := by
  cases h with
  | spawn =>
    refine ⟨by simp, (fun c hc ↦ by cases hc), fun c hc ↦ ?_⟩
    rw [← Option.some.inj hc]
    exact Nat.lt_succ_self _
  | register => exact ⟨by simp, fun c hc ↦ hc, hstarted⟩
  | announce | line | firstLine | relay | closed => exact ⟨by simp, hrecorded, hstarted⟩
  | refused | reap | report | abandon | clear =>
    exact ⟨by simp, (fun c hc ↦ by cases hc), fun c hc ↦ by cases hc⟩
  | raise hc₀ =>
    refine ⟨fun hdone ↦ ?_, fun c hc ↦ ?_, fun c hc ↦ ?_⟩
    · rw [hdone] at hc₀
      cases hc₀
    · exact hrecorded c (hc₀.trans hc)
    · exact hstarted c ((WorkerPc.child_of_recorded hc₀).trans hc)

end Advance

theorem Alone.stepWorker {e : WorkerEvent} (hs : Alone s) (hw : s.workers[i]? = some w)
    (h : s.stepWorker i w e = some s') : Alone s' := by
  obtain ⟨t, pc, hadvance, rfl⟩ := advance_of_stepWorker h
  obtain ⟨hmain, hworkers⟩ := hadvance.same
  obtain ⟨hlive, hrecorded, hchild⟩ := hadvance.spec (hs.recorded i w · hw) (hs.started i w · hw)
  have hlt : i < s.workers.length := (List.getElem?_eq_some_iff.1 hw).1
  have hself : (t.setPc i w pc).workers[i]? = some { w with pc } := by
    show (t.workers.set i _)[i]? = _
    rw [hworkers, getElem?_set_self hlt]
  have hother : ∀ j, j ≠ i → (t.setPc i w pc).workers[j]? = s.workers[j]? := fun j hj ↦ by
    show (t.workers.set i _)[j]? = _
    rw [hworkers, getElem?_set_ne hj.symm]
  have hi : s.Live i := ⟨w, hw, hlive⟩
  -- no other worker is alive, before or after the step
  have honly : ∀ j, (t.setPc i w pc).Live j → j = i := by
    intro j hj
    by_contra hne
    rw [Helper.Live, hother j hne] at hj
    exact hne (hs.one j i hj hi)
  refine ⟨fun j k hj hk ↦ (honly j hj).trans (honly k hk).symm, ?_, ?_, ?_⟩
  · intro id program argv hacc
    exact absurd hi (hs.quiet id program argv (hmain ▸ hacc) i)
  · intro j v c hv hrec
    obtain rfl : j = i :=
      honly j ⟨v, hv, WorkerPc.ne_done_of_child (WorkerPc.child_of_recorded hrec)⟩
    obtain rfl := Option.some.inj (hself.symm.trans hv)
    exact hrecorded c hrec
  · intro j v c hv hc
    obtain rfl : j = i := honly j ⟨v, hv, WorkerPc.ne_done_of_child hc⟩
    obtain rfl := Option.some.inj (hself.symm.trans hv)
    exact hchild c hc

/-- The thread of an accepted request is the only one alive. -/
theorem Alone.startThread (hs : Alone s) {id : ℤ} {program : String} {argv : List String}
    (hmain : s.main = .accepted id program argv) :
    Alone { s with main := .ready, workers := s.workers ++ [⟨id, program, argv, .begin⟩] } := by
  have hended := hs.quiet id program argv hmain
  have hcases : ∀ (j : ℕ) (v : Worker), (s.workers ++ [⟨id, program, argv, .begin⟩])[j]? = some v →
      s.workers[j]? = some v ∨ j = s.workers.length ∧ v.pc = .begin := by
    intro j v hv
    rcases Nat.lt_or_ge j s.workers.length with hlt | hge
    · rw [getElem?_append_left hlt] at hv
      exact .inl hv
    · rw [getElem?_append_right hge] at hv
      obtain ⟨hlen, rfl⟩ := List.getElem?_eq_some_iff.1 hv
      rw [length_singleton] at hlen
      exact .inr ⟨by omega, by simp⟩
  have honly : ∀ j, Helper.Live { s with
      main := .ready, workers := s.workers ++ [⟨id, program, argv, .begin⟩] } j →
      j = s.workers.length := by
    rintro j ⟨v, hv, hlive⟩
    rcases hcases j v hv with hold | ⟨hj, -⟩
    · exact absurd ⟨v, hold, hlive⟩ (hended j)
    · exact hj
  refine ⟨fun j k hj hk ↦ (honly j hj).trans (honly k hk).symm,
    fun _ _ _ (h : MainPc.ready = _) ↦ (by cases h), ?_, ?_⟩
  · intro j v c hv hrec
    rcases hcases j v hv with hold | ⟨-, hpc⟩
    · exact hs.recorded j v c hold hrec
    · rw [hpc] at hrec
      cases hrec
  · intro j v c hv hc
    rcases hcases j v hv with hold | ⟨-, hpc⟩
    · exact hs.started j v c hold hc
    · rw [hpc] at hc
      cases hc

theorem Alone.step {e : Event} (hs : Alone s) (hok : sequential s e = true)
    (h : s.step e = some s') : Alone s' := by
  cases e with
  | message m =>
    rw [Helper.step] at h
    split_ifs at h
    obtain rfl := Option.some.inj h
    cases m with
    | run id program argv =>
      cases id with
      | none => exact hs.of_same_main rfl rfl rfl rfl
      | some id =>
        cases argv with
        | none => exact hs.of_same_main rfl rfl rfl rfl
        | some argv =>
          rw [Helper.stepMessage]
          split_ifs with hactive
          · exact hs.of_same_main rfl rfl rfl rfl
          · -- nothing is recorded, so every earlier worker has ended
            refine hs.of_main rfl rfl rfl fun _ _ _ _ i ⟨w, hw, hlive⟩ ↦ hlive ?_
            rw [sequential, not_not.1 hactive] at hok
            simpa using all_eq_true.1 hok w (mem_of_getElem? hw)
    | stop id =>
      rw [Helper.stepMessage]
      split_ifs
      · exact hs.of_same_main rfl rfl rfl rfl
      · exact hs.of_main rfl rfl rfl fun id program argv hm ↦ by cases hm
      · exact hs.of_same_main rfl rfl rfl rfl
    | quit => exact hs.of_main rfl rfl rfl fun id program argv hm ↦ by cases hm
    | ping id | unknown id | invalid => exact hs.of_same_main rfl rfl rfl rfl
  | startThread =>
    rw [Helper.step] at h
    split at h
    · rename_i id program argv hmain
      obtain rfl := Option.some.inj h
      exact hs.startThread hmain
    · cases h
  | signal delivered =>
    rw [Helper.step] at h
    split at h
    · obtain rfl := Option.some.inj h
      exact hs.of_main rfl rfl rfl fun id program argv hm ↦ by cases hm
    · cases h
  | leave | closed =>
    rw [Helper.step] at h
    split_ifs at h
    obtain rfl := Option.some.inj h
    exact hs.of_main rfl rfl rfl fun id program argv hm ↦ by cases hm
  | worker i e =>
    obtain ⟨w, hw, h⟩ := Option.bind_eq_some_iff.1 h
    exact hs.stepWorker hw h
  | exit c =>
    rw [Helper.step] at h
    split_ifs at h
    obtain rfl := Option.some.inj h
    exact hs.of_same_main rfl rfl rfl rfl

theorem Alone.initial : Alone Helper.initial where
  one i j := by rintro ⟨w, hw, -⟩; cases hw
  quiet id program argv h := by cases h
  recorded i w c hw := by cases hw
  started i w c hw := by cases hw

end Alone

/-! ### Children and their workers -/

/-- Whether a worker gives up on its child. -/
def Event.abandons : Event → Bool
  | .worker _ .abandon => true
  | _ => false

/-- The condition on a run: a `run` request finds a child recorded, or every earlier worker has
ended; and no worker gives up on a child that does not end. -/
def orderly (s : Helper) (e : Event) : Bool := sequential s e && !e.abandons

/-- Every running child belongs to a worker. -/
def Owned (s : Helper) : Prop :=
  ∀ c ∈ s.running, ∃ (i : ℕ) (w : Worker), s.workers[i]? = some w ∧ w.pc.child = some c

section Owned

variable {s s' : Helper} {i : ℕ} {w : Worker} {pc : WorkerPc}

/-- The children that run after a step of a worker are its own or belong to another worker. -/
theorem Advance.running {request : ℤ} {pc₀ : WorkerPc} {e : WorkerEvent}
    (h : Advance s request pc₀ e s' pc) (he : e ≠ .abandon) :
    ∀ c ∈ s'.running, pc.child = some c ∨ c ∈ s.running ∧ pc₀.child ≠ some c := by
  intro c hc
  -- a worker that keeps its child
  have hsame : pc₀.child = pc.child → s'.running = s.running →
      pc.child = some c ∨ c ∈ s.running ∧ pc₀.child ≠ some c := fun hchild hrunning ↦ by
    rw [hchild, ← hrunning]
    exact (em (pc.child = some c)).imp_right fun hne ↦ ⟨hc, hne⟩
  cases h with
  | spawn =>
    rcases Finset.mem_insert.1 hc with rfl | hold
    · exact .inl rfl
    · exact .inr ⟨hold, by simp [WorkerPc.child]⟩
  | refused | register | announce | line | firstLine | relay | closed | clear => exact hsame rfl rfl
  | raise hc₀ => exact hsame (WorkerPc.child_of_recorded hc₀) rfl
  | reap hended => exact .inr ⟨hc, fun hchild ↦ hended ((Option.some.inj hchild) ▸ hc)⟩
  | report hended => exact .inr ⟨hc, fun hchild ↦ hended c hchild hc⟩
  | abandon => exact absurd rfl he

theorem Owned.stepWorker {e : WorkerEvent} (hs : Owned s) (hw : s.workers[i]? = some w)
    (he : e ≠ .abandon) (h : s.stepWorker i w e = some s') : Owned s' := by
  obtain ⟨t, pc, hadvance, rfl⟩ := advance_of_stepWorker h
  have hlt : i < s.workers.length := (List.getElem?_eq_some_iff.1 hw).1
  intro c hc
  rcases hadvance.running he c hc with hchild | ⟨hold, hne⟩
  · refine ⟨i, { w with pc }, ?_, hchild⟩
    show (t.workers.set i _)[i]? = _
    rw [hadvance.same.2, getElem?_set_self hlt]
  · obtain ⟨j, v, hv, hchild⟩ := hs c hold
    have hji : i ≠ j := by
      rintro rfl
      obtain rfl := Option.some.inj (hv.symm.trans hw)
      exact hne hchild
    refine ⟨j, v, ?_, hchild⟩
    show (t.workers.set i _)[j]? = _
    rw [hadvance.same.2, getElem?_set_ne hji, hv]

theorem Owned.step {e : Event} (hs : Owned s) (hok : orderly s e = true)
    (h : s.step e = some s') : Owned s' := by
  cases e with
  | message m =>
    rw [Helper.step] at h
    split_ifs at h
    obtain rfl := Option.some.inj h
    have hsame : (s.stepMessage m).workers = s.workers ∧ (s.stepMessage m).running = s.running := by
      unfold Helper.stepMessage
      split <;> first | exact ⟨rfl, rfl⟩ | (split_ifs <;> exact ⟨rfl, rfl⟩)
    rw [Owned, hsame.1, hsame.2]
    exact hs
  | startThread =>
    rw [Helper.step] at h
    split at h
    · obtain rfl := Option.some.inj h
      intro c hc
      obtain ⟨j, v, hv, hchild⟩ := hs c hc
      have hlt := (List.getElem?_eq_some_iff.1 hv).1
      exact ⟨j, v, by rw [getElem?_append_left hlt, hv], hchild⟩
    · cases h
  | signal delivered =>
    rw [Helper.step] at h
    split at h
    · obtain rfl := Option.some.inj h
      exact hs
    · cases h
  | leave | closed =>
    rw [Helper.step] at h
    split_ifs at h
    obtain rfl := Option.some.inj h
    exact hs
  | worker i e =>
    obtain ⟨w, hw, h⟩ := Option.bind_eq_some_iff.1 h
    refine hs.stepWorker hw ?_ h
    rintro rfl
    simp [orderly, Event.abandons] at hok
  | exit c =>
    rw [Helper.step] at h
    split_ifs at h
    obtain rfl := Option.some.inj h
    exact fun c' hc ↦ hs c' (Finset.mem_of_mem_erase hc)

/-- **The invariants of an orderly run.** -/
theorem alone_and_owned (h : helper.Reachable orderly s) : Alone s ∧ Owned s := by
  refine h.invariant (P := fun s ↦ Alone s ∧ Owned s) ⟨Alone.initial, ?_⟩ ?_
  · exact fun c hc ↦ absurd hc (Finset.notMem_empty c)
  · exact fun _ _ _ hs hok hstep ↦
      ⟨hs.1.step (Bool.and_eq_true_iff.1 hok).1 hstep, hs.2.step hok hstep⟩

end Owned

/-- **A single privileged writer.** In a run in which a request is let through only when every
earlier worker has ended, and in which no worker gives up on its child, at most one child is
running, and it is the recorded one as soon as its worker has registered it. -/
theorem running_child_recorded (s : Helper) (h : helper.Reachable orderly s) :
    s.running.card ≤ 1 ∧ ∀ c ∈ s.running,
      s.activeProcess = some c ∨ ∃ w ∈ s.workers, w.pc = .spawned c := by
  obtain ⟨hs, howned⟩ := alone_and_owned h
  constructor
  · rw [Finset.card_le_one]
    intro c hc c' hc'
    obtain ⟨i, w, hw, hchild⟩ := howned c hc
    obtain ⟨j, v, hv, hchild'⟩ := howned c' hc'
    obtain rfl := hs.one i j ⟨w, hw, WorkerPc.ne_done_of_child hchild⟩
      ⟨v, hv, WorkerPc.ne_done_of_child hchild'⟩
    obtain rfl := Option.some.inj (hw.symm.trans hv)
    exact Option.some.inj (hchild.symm.trans hchild')
  · intro c hc
    obtain ⟨i, w, hw, hchild⟩ := howned c hc
    cases hpc : w.pc with
    | spawned c' =>
      rw [hpc] at hchild
      exact .inr ⟨w, mem_of_getElem? hw, by rw [hpc, Option.some.inj hchild]⟩
    | begin | registered | reading | relaying | waiting | failing | clearing | done =>
      refine .inl (hs.recorded i w c hw ?_)
      rw [hpc] at hchild ⊢
      exact hchild

/-! ### Runs of the helper -/

/-- A request for an allocation map. -/
def mapRequest (id : ℤ) : Event := .message (.run (some id) "mapper" (some []))

/-- Start a child in worker `i`. -/
def spawnIn (i : ℕ) : Event := .worker i (.spawn (fun _ ↦ true) true)

/-- An orderly run of two requests: the second is let through when the first worker has ended. -/
def orderlyRun : List Event :=
  [mapRequest 1, .startThread, spawnIn 0, .worker 0 .register, mapRequest 2, .worker 0 .announce,
    .exit 0, .worker 0 .closed, .worker 0 .reap, .worker 0 .clear,
    mapRequest 3, .startThread, spawnIn 1, .worker 1 .register]

theorem running_child_recorded_two :
    ∃ s, helper.run orderly Helper.initial orderlyRun = some s ∧ s.running = {1} ∧
      s.running.card ≤ 1 ∧
      ∀ c ∈ s.running, s.activeProcess = some c ∨ ∃ w ∈ s.workers, w.pc = .spawned c :=
  ⟨_, rfl, by decide, running_child_recorded _ (System.reachable_of_run orderlyRun rfl)⟩

/-- **What goes wrong without the condition.** Two requests that are read before the first child is
recorded give two children; with one request, the child runs before it is recorded; and a child that
its worker has given up on runs without a record. -/
theorem writers_not_exclusive :
    (∃ s, helper.Reachable System.free s ∧ s.running.card = 2) ∧
    (∃ s, helper.Reachable System.free s ∧ s.running = {0} ∧ s.activeProcess = none ∧
      s.workers.length = 1 ∧ s.started = 1) ∧
    ∃ s, helper.Reachable System.free s ∧ s.running = {0} ∧ s.activeProcess = none ∧
      ∀ w ∈ s.workers, w.pc = .done := by
  refine ⟨⟨_, System.reachable_of_run [mapRequest 1, .startThread, mapRequest 2, .startThread,
      spawnIn 0, spawnIn 1] rfl, by decide⟩,
    ⟨_, System.reachable_of_run [mapRequest 1, .startThread, spawnIn 0] rfl, by decide⟩,
    ⟨_, System.reachable_of_run [mapRequest 1, .startThread, spawnIn 0, .worker 0 .register,
      .worker 0 .raise, .worker 0 .abandon, .worker 0 .clear] rfl, by decide⟩⟩

/-! ### Answers -/

/-- The worker has sent `finished` for its request, which is `id`. -/
def Worker.answered (id : ℤ) (w : Worker) : Bool :=
  w.request = id ∧ (w.pc = .clearing ∨ w.pc = .done)

/-- A worker sends `finished` in the step in which it comes to count as one that has. -/
theorem stepWorker_finished {s s' : Helper} {i : ℕ} {w : Worker} {e : WorkerEvent}
    (h : s.stepWorker i w e = some s') :
    ∃ pc, s'.workers = s.workers.set i { w with pc } ∧ ∀ id,
      s'.sent.count (.finished id) + (if w.answered id then 1 else 0) =
        s.sent.count (.finished id) + if Worker.answered id { w with pc } then 1 else 0 := by
  obtain ⟨request, program, argv, pc⟩ := w
  unfold Helper.stepWorker at h
  dsimp only at h
  repeat' split at h
  all_goals cases h
  all_goals
    refine ⟨_, rfl, fun id ↦ ?_⟩
    simp [Helper.setPc, Helper.emit, Worker.answered, count_cons]

theorem stepMessage_finished (s : Helper) (m : Message) (id : ℤ) :
    (s.stepMessage m).workers = s.workers ∧
      (s.stepMessage m).sent.count (.finished id) = s.sent.count (.finished id) := by
  unfold Helper.stepMessage
  repeat' split
  all_goals exact ⟨rfl, by simp [Helper.emit]⟩

/-- **Every request is answered once.** In any interleaving of the loop, the workers and their
children, as many `finished` messages were sent for a request number as workers with it are past
their answer: none while a worker is at work, and one when it has ended, however it ended. -/
theorem answered_once (s : Helper) (hs : helper.Reachable System.free s) (id : ℤ) :
    s.sent.count (.finished id) = s.workers.countP (Worker.answered id) := by
  refine hs.invariant
    (P := fun s ↦ s.sent.count (.finished id) = s.workers.countP (Worker.answered id))
    rfl fun s e s' hs _ h ↦ ?_
  cases e with
  | message m =>
    simp only [helper, Helper.step] at h
    split_ifs at h
    obtain rfl := Option.some.inj h
    rw [(stepMessage_finished s m id).1, (stepMessage_finished s m id).2, hs]
  | worker i e =>
    obtain ⟨w, hw, h⟩ := Option.bind_eq_some_iff.1 h
    obtain ⟨hi, rfl⟩ := List.getElem?_eq_some_iff.1 hw
    obtain ⟨pc, hworkers, hsent⟩ := stepWorker_finished h
    have hcount := hsent id
    have hle :
        (if s.workers[i].answered id then 1 else 0) ≤ s.workers.countP (Worker.answered id) := by
      split_ifs with hanswered
      · exact countP_pos_iff.2 ⟨_, getElem_mem hi, hanswered⟩
      · exact Nat.zero_le _
    rw [hworkers, countP_set hi]
    omega
  | startThread | signal | leave | closed | exit =>
    simp only [helper, Helper.step] at h
    split at h <;> cases h
    all_goals simpa [Helper.emit, Worker.answered] using hs

/-- A request for an unknown program is answered too. -/
theorem answered_once_unknown : ∃ s, helper.Reachable System.free s ∧
    s.workers.countP (Worker.answered 7) = 1 ∧ s.sent.count (.finished 7) = 1 := by
  obtain ⟨s, hrun, hcount⟩ : ∃ s, helper.run System.free helper.init
      [.message (.run (some 7) "rm" (some [])), .startThread,
        .worker 0 (.spawn (fun _ ↦ true) true),
        .worker 0 .report] = some s ∧ s.workers.countP (Worker.answered 7) =
          1 := ⟨_, rfl, by decide⟩
  have hs := System.reachable_of_run _ hrun
  exact ⟨s, hs, hcount, (answered_once s hs 7).trans hcount⟩

end LinuxDefragger.Privileged
