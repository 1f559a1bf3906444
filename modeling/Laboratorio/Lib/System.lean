import Laboratorio.Lib.Table

/-! # Labelled transition systems

A system is a predicate on initial states and an executable step function.  A
label that is not enabled in a state has no step (`none`).

* `ReachableWhen allowed` — the states of the runs whose every step is
  `allowed` in the state it starts from; `Reachable` puts no condition on the
  steps.
* `ReachableWhen.invariant` — the only induction over runs in this library: a
  predicate that holds initially and is kept by every allowed step from a reachable
  state holds in every state reached.
* `runWhen` — a run given as a list of labels, to be evaluated.
* `Run` — a run with all its states, for statements about what lies between two of them.
* `of_guard`, `of_unless` — what is known when a step with a guard has been taken.
-/

namespace Laboratorio.Lib

open Option

section

variable {Result : Type} {guard : Prop} [Decidable guard] {result result' : Result}

theorem of_guard (taken : (if guard then some result else none) = some result') :
    guard ∧ result = result' := by
  rwa [ite_none_right_eq_some, some.injEq] at taken

theorem of_unless (taken : (if guard then none else some result) = some result') :
    ¬ guard ∧ result = result' := by
  rwa [ite_none_left_eq_some, some.injEq] at taken

end

structure System (State Label : Type) where
  init : State → Prop
  step : State → Label → Option State

namespace System

variable {State Label : Type} (sys : System State Label)

inductive ReachableWhen (allowed : State → Label → Prop) : State → Prop
  | init {state : State} : sys.init state → ReachableWhen allowed state
  | step {state next : State} (label : Label) : ReachableWhen allowed state →
      allowed state label → sys.step state label = some next → ReachableWhen allowed next

def Reachable (state : State) : Prop :=
  sys.ReachableWhen (fun _ _ => True) state

/-- Runs the labels in order; `none` as soon as one is not allowed or not enabled. -/
def runWhen (allowed : State → Label → Prop) [∀ state label, Decidable (allowed state label)] :
    State → List Label → Option State
  | state, [] => some state
  | state, label :: labels =>
    if allowed state label then
      match sys.step state label with
      | some next => runWhen allowed next labels
      | none => none
    else none

variable {sys} {allowed : State → Label → Prop} {state : State} {labels : List Label}

theorem ReachableWhen.invariant {Inv : State → Prop}
    (reachable : sys.ReachableWhen allowed state)
    (initial : ∀ {state}, sys.init state → Inv state)
    (preserved : ∀ state label next, sys.ReachableWhen allowed state → Inv state →
      allowed state label → sys.step state label = some next → Inv next) : Inv state := by
  induction reachable with
  | init start => exact initial start
  | step label before permitted taken ih =>
    exact preserved _ label _ before ih permitted taken

theorem ReachableWhen.mono {permitted : State → Label → Prop}
    (weaker : ∀ state label, allowed state label → permitted state label)
    (reachable : sys.ReachableWhen allowed state) : sys.ReachableWhen permitted state := by
  induction reachable with
  | init start => exact .init start
  | step label _ holds taken ih =>
    exact .step label ih (weaker _ _ holds) taken

theorem ReachableWhen.of_runWhen [∀ state label, Decidable (allowed state label)] {final : State}
    (reachable : sys.ReachableWhen allowed state)
    (ran : sys.runWhen allowed state labels = some final) : sys.ReachableWhen allowed final := by
  induction labels generalizing state with
  | nil =>
    simp only [runWhen, some.injEq] at ran
    exact ran ▸ reachable
  | cons label labels ih =>
    simp only [runWhen] at ran
    split at ran
    · rename_i permitted
      cases taken : sys.step state label with
      | none => simp [taken] at ran
      | some next =>
        simp only [taken] at ran
        exact ih (.step label reachable permitted taken) ran
    · cases ran

/-- A run that is evaluated to its end, and what holds of the state it reaches. -/
theorem ReachableWhen.exists_of_runWhen [∀ state label, Decidable (allowed state label)]
    {holds : State → Prop} (reachable : sys.ReachableWhen allowed state)
    (ran : ∃ final ∈ sys.runWhen allowed state labels, holds final) :
    ∃ final, sys.ReachableWhen allowed final ∧ holds final := by
  obtain ⟨final, ended, passes⟩ := ran
  exact ⟨final, .of_runWhen reachable ended, passes⟩

/-! ## Runs with their states -/

/-- Only the first `length` steps are taken; later states and labels mean nothing. -/
structure Run (sys : System State Label) (allowed : State → Label → Prop) where
  length : Nat
  state : Nat → State
  label : Nat → Label
  start : sys.init (state 0)
  permitted : ∀ k < length, allowed (state k) (label k)
  taken : ∀ k < length, sys.step (state k) (label k) = some (state (k + 1))

theorem Run.reachable (run : sys.Run allowed) {k : Nat}
    (bound : k ≤ run.length) : sys.ReachableWhen allowed (run.state k) := by
  induction k with
  | zero => exact .init run.start
  | succ k ih =>
    exact .step (run.label k) (ih (by omega)) (run.permitted k (by omega))
      (run.taken k (by omega))

end System

end Laboratorio.Lib
