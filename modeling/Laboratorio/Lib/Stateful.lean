import Mathlib.Init

/-! # Stateful code that may have no result

Code in `StateT State Option`, where `none` is a computation without a result.

* `Ensures` — what holds of every result the code has.
* `Returns` — the code has a result, and what holds of it.

Each has a rule for each way of putting code together; `Returns.and` adds what is known of every
result to a result that exists.
-/

namespace Laboratorio.Lib

variable {State Value Result : Type}

structure Ensures (code : StateT State Option Result) (state : State)
    (post : Result → State → Prop) : Prop where
  intro ::
  of_run : ∀ result state', code state = some (result, state') → post result state'

def Returns (code : StateT State Option Result) (state : State) (post : Result → State → Prop) :
    Prop :=
  ∃ result state', code state = some (result, state') ∧ post result state'

variable {code : StateT State Option Result} {first : StateT State Option Value}
  {rest : Value → StateT State Option Result} {state : State} {result : Result}
  {post weaker : Result → State → Prop} {mid : Value → State → Prop}

namespace Ensures

theorem pure (holds : post result state) :
    Ensures (Pure.pure result : StateT State Option Result) state post := by
  apply Ensures.intro
  intro result' state' ended
  cases ended
  exact holds

theorem failure : Ensures (Alternative.failure : StateT State Option Result) state post := by
  apply Ensures.intro
  intro result' state' ended
  cases ended

theorem mono (holds : Ensures code state post)
    (implies : ∀ result state, post result state → weaker result state) :
    Ensures code state weaker :=
  ⟨fun result' state' ended => implies result' state' (holds.of_run result' state' ended)⟩

theorem bind (holds : Ensures first state mid)
    (next : ∀ value state, mid value state → Ensures (rest value) state post) :
    Ensures (first >>= rest) state post := by
  apply Ensures.intro
  intro result' state' ended
  replace ended : (first state >>= fun pair => rest pair.1 pair.2) = some (result', state') := ended
  cases begun : first state with
  | none =>
    rw [begun] at ended
    cases ended
  | some pair =>
    rw [begun] at ended
    exact (next pair.1 pair.2 (holds.of_run pair.1 pair.2 begun)).of_run result' state' ended

/-- Code that does not touch the state. -/
theorem lift {code : Option Value} (next : ∀ value, Ensures (rest value) state post) :
    Ensures ((liftM code : StateT State Option Value) >>= rest) state post := by
  cases code with
  | none =>
    apply Ensures.intro
    intro result' state' ended
    cases ended
  | some value => exact ⟨(next value).of_run⟩

end Ensures

namespace Returns

theorem pure (holds : post result state) :
    Returns (Pure.pure result : StateT State Option Result) state post :=
  ⟨result, state, rfl, holds⟩

theorem mono (holds : Returns code state post)
    (implies : ∀ result state, post result state → weaker result state) :
    Returns code state weaker := by
  obtain ⟨result', state', ended, ends⟩ := holds
  exact ⟨result', state', ended, implies result' state' ends⟩

theorem bind (holds : Returns first state mid)
    (next : ∀ value state, mid value state → Returns (rest value) state post) :
    Returns (first >>= rest) state post := by
  obtain ⟨value, between, begun, reached⟩ := holds
  obtain ⟨result', state', ended, ends⟩ := next value between reached
  refine ⟨result', state', ?_, ends⟩
  show (first state >>= fun pair => rest pair.1 pair.2) = _
  rw [begun]
  exact ended

theorem and (holds : Returns code state post) (ensures : Ensures code state weaker) :
    Returns code state fun result state => post result state ∧ weaker result state := by
  obtain ⟨result', state', ended, ends⟩ := holds
  exact ⟨result', state', ended, ends, ensures.of_run result' state' ended⟩

end Returns

end Laboratorio.Lib
