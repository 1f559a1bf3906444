import Mathlib.Logic.Basic

/-! # Comparing two computations that may fail

`Agree E R` relates two outcomes that both succeed, with results related by `R`, or both
fail, with errors related by `E`.  It goes through `bind`, so two programs of the same
shape are compared call by call.
-/

namespace Laboratorio.Lib

universe u
variable {ε ε' α α' β β' : Type u} {E : ε → ε' → Prop} {R : α → α' → Prop} {Q : β → β' → Prop}
  {outcome' : Except ε' α'} {outcome first : Except ε α} {next : α → Except ε β}

def Agree (E : ε → ε' → Prop) (R : α → α' → Prop) : Except ε α → Except ε' α' → Prop
  | .ok result, .ok result' => R result result'
  | .error error, .error error' => E error error'
  | _, _ => False

namespace Agree

theorem bind {first' : Except ε' α'} {next' : α' → Except ε' β'} (agree : Agree E R first first')
    (then' : ∀ result result', R result result' → Agree E Q (next result) (next' result')) :
    Agree E Q (first >>= next) (first' >>= next') := by
  cases first with
  | error error =>
    cases first' with
    | error error' => exact agree
    | ok result' => exact agree.elim
  | ok result =>
    cases first' with
    | error error' => exact agree.elim
    | ok result' => exact then' result result' agree

theorem of_ok {result : α} (agree : Agree E R outcome outcome') (ok : outcome = .ok result) :
    ∃ result', outcome' = .ok result' ∧ R result result' := by
  subst ok
  cases outcome' with
  | error error' => exact agree.elim
  | ok result' => exact ⟨result', rfl, agree⟩

theorem of_ok' {result' : α'} (agree : Agree E R outcome outcome') (ok : outcome' = .ok result') :
    ∃ result, outcome = .ok result ∧ R result result' := by
  subst ok
  cases outcome with
  | error error => exact agree.elim
  | ok result => exact ⟨result, rfl, agree⟩

theorem of_error {error : ε}
    (agree : Agree E R outcome outcome') (failed : outcome = .error error) :
    ∃ error', outcome' = .error error' ∧ E error error' := by
  subst failed
  cases outcome' with
  | error error' => exact ⟨error', rfl, agree⟩
  | ok result' => exact agree.elim

theorem of_error' {error' : ε'} (agree : Agree E R outcome outcome')
    (failed : outcome' = .error error') : ∃ error, outcome = .error error ∧ E error error' := by
  subst failed
  cases outcome with
  | error error => exact ⟨error, rfl, agree⟩
  | ok result => exact agree.elim

end Agree

theorem bind_eq_ok {result : β} :
    first >>= next = .ok result ↔ ∃ between, first = .ok between ∧ next between = .ok result := by
  cases first with
  | error error =>
    constructor
    · intro ok
      cases ok
    · intro steps
      obtain ⟨between, ok, rest⟩ := steps
      cases ok
  | ok between =>
    constructor
    · intro ok
      exact ⟨between, rfl, ok⟩
    · intro steps
      obtain ⟨between', ok, rest⟩ := steps
      cases ok
      exact rest

theorem bind_eq_error {error : ε} :
    first >>= next = .error error ↔
      first = .error error ∨ ∃ between, first = .ok between ∧ next between = .error error := by
  cases first with
  | error error' =>
    constructor
    · intro failed
      cases failed
      exact .inl rfl
    · intro cases'
      cases cases' with
      | inl failed =>
        cases failed
        rfl
      | inr steps =>
        obtain ⟨between, ok, rest⟩ := steps
        cases ok
  | ok between =>
    constructor
    · intro failed
      exact .inr ⟨between, rfl, failed⟩
    · intro cases'
      cases cases' with
      | inl failed => cases failed
      | inr steps =>
        obtain ⟨between', ok, rest⟩ := steps
        cases ok
        exact rest

end Laboratorio.Lib
