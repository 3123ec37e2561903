import Mathlib.Data.List.Basic

/-!
# Transition systems

A system is an initial state and a *guarded, executable* step: `step s e` is `none` where the event
`e` is not possible in `s`. Everything that is not determined (scheduling, the environment) is an
event.

A run may be restricted by a condition on its steps: `Reachable ok s` says that `s` is reached by
steps that all satisfy `ok`, a test of the event and of the state before it. With the test that is
always true these are all runs.
-/

namespace Transition

/-- An initial state and a guarded step. -/
structure System (S E : Type) where
  init : S
  step : S → E → Option S

namespace System

variable {S E : Type} (sys : System S E)

/-- The states reached by steps that satisfy `ok`. -/
inductive Reachable (ok : S → E → Bool) : S → Prop
  | init : Reachable ok sys.init
  | step {s s' : S} {e : E} (hs : Reachable ok s) (hok : ok s e = true)
      (h : sys.step s e = some s') : Reachable ok s'

/-- Steps without a condition. -/
def free : S → E → Bool := fun _ _ ↦ true

/-- Replaying events, each of which must be possible and satisfy `ok`. -/
def run (ok : S → E → Bool) : S → List E → Option S
  | s, [] => some s
  | s, e :: es => if ok s e then (sys.step s e).bind fun s' ↦ run ok s' es else none

variable {sys} {ok : S → E → Bool}

/-- **The invariant rule.** -/
theorem Reachable.invariant {P : S → Prop} (hinit : P sys.init)
    (hstep : ∀ s e s', P s → ok s e = true → sys.step s e = some s' → P s') {s : S}
    (h : sys.Reachable ok s) : P s := by
  induction h with
  | init => exact hinit
  | step _ hok h ih => exact hstep _ _ _ ih hok h

/-- **The invariant rule for a run from a reachable state.** -/
theorem run_invariant {P : S → Prop} (hstep : ∀ s e s', sys.Reachable ok s → P s → ok s e = true →
    sys.step s e = some s' → P s') {s s' : S} {es : List E} (hs : sys.Reachable ok s) (hp : P s)
    (h : sys.run ok s es = some s') : P s' := by
  induction es generalizing s with
  | nil =>
    obtain rfl := Option.some.inj h
    exact hp
  | cons e es ih =>
    rw [run] at h
    split_ifs at h with hok
    obtain ⟨s₁, hstep₁, hrest⟩ := Option.bind_eq_some_iff.1 h
    exact ih (hs.step hok hstep₁) (hstep s e s₁ hs hp hok hstep₁) hrest

theorem Reachable.of_run {s s' : S} {es : List E} (hs : sys.Reachable ok s)
    (h : sys.run ok s es = some s') : sys.Reachable ok s' :=
  run_invariant (fun _ _ _ hs _ hok hstep ↦ hs.step hok hstep) hs hs h

/-- The end of a replayed run is reachable. -/
theorem reachable_of_run (es : List E) {s : S} (h : sys.run ok sys.init es = some s) :
    sys.Reachable ok s :=
  Reachable.init.of_run h

end System

end Transition
