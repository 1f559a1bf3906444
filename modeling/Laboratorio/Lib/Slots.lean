import Laboratorio.Lib.Sum

/-! # Slots guarded by two semaphores and a mutex

Processes put things into a store of `capacity` slots and take things out of it.  Whoever puts
waits on the semaphore `empty`, changes the store under the mutex and posts `full`; whoever
takes does the same with the semaphores exchanged.  The semaphores are not changed together
with the store: `level`, the number of things in the store, is `full` with the processes
counted that have changed the store but not posted yet, or waited but not changed it yet.

`Inv.room` and `Inv.stock` are what the protocol is for: under the mutex there is a free slot
for whoever puts, and a thing for whoever takes.
-/

namespace Laboratorio.Lib.Slots

open Function

inductive Kind
  | put
  | take
  deriving DecidableEq

/-- Where a process is in the protocol. -/
inductive Place
  | outside
  /-- It has waited. -/
  | granted (kind : Kind)
  /-- It has the mutex, and has not changed the store yet. -/
  | inside (kind : Kind)
  | changed (kind : Kind)
  /-- It has given the mutex up, and has not posted yet. -/
  | leaving (kind : Kind)
  deriving DecidableEq

structure State (Proc : Type) where
  empty : Nat
  full : Nat
  level : Nat
  mutex : Option Proc
  place : Proc → Place

variable {Proc : Type}

/-- Whether a process has taken a unit from a semaphore that it has to give to the other. -/
def Place.owes : Place → Nat
  | .outside => 0
  | _ => 1

/-- Whether a thing in the store is not counted by `full`. -/
def Place.hides : Place → Nat
  | .outside => 0
  | .granted .put => 0
  | .inside .put => 0
  | .changed .put => 1
  | .leaving .put => 1
  | .granted .take => 1
  | .inside .take => 1
  | .changed .take => 0
  | .leaving .take => 0

def Place.holds : Place → Bool
  | .inside _ => true
  | .changed _ => true
  | _ => false

section

variable [DecidableEq Proc]

def State.goto (s : State Proc) (p : Proc) (place : Place) : State Proc :=
  { s with place := update s.place p place }

theorem State.goto_self {s : State Proc} {p : Proc} {place : Place} (here : s.place p = place) :
    s.goto p place = s := by
  rw [State.goto, ← here, update_eq_self]

inductive Move : State Proc → State Proc → Prop
  | stay (s : State Proc) : Move s s
  | waitEmpty {s : State Proc} {p : Proc} : s.place p = .outside → 0 < s.empty →
      Move s ({ s with empty := s.empty - 1 }.goto p (.granted .put))
  | waitFull {s : State Proc} {p : Proc} : s.place p = .outside → 0 < s.full →
      Move s ({ s with full := s.full - 1 }.goto p (.granted .take))
  | lock {s : State Proc} {p : Proc} {kind : Kind} : s.place p = .granted kind → s.mutex = none →
      Move s ({ s with mutex := some p }.goto p (.inside kind))
  | put {s : State Proc} {p : Proc} : s.place p = .inside .put →
      Move s ({ s with level := s.level + 1 }.goto p (.changed .put))
  | take {s : State Proc} {p : Proc} : s.place p = .inside .take →
      Move s ({ s with level := s.level - 1 }.goto p (.changed .take))
  | unlock {s : State Proc} {p : Proc} {kind : Kind} : s.place p = .changed kind →
      Move s ({ s with mutex := none }.goto p (.leaving kind))
  | postFull {s : State Proc} {p : Proc} : s.place p = .leaving .put →
      Move s ({ s with full := s.full + 1 }.goto p .outside)
  | postEmpty {s : State Proc} {p : Proc} : s.place p = .leaving .take →
      Move s ({ s with empty := s.empty + 1 }.goto p .outside)

theorem Move.still {s : State Proc} {p : Proc} {place : Place} (here : s.place p = place) :
    Move s (s.goto p place) :=
  (State.goto_self here).symm ▸ .stay s

end

section

variable [Fintype Proc]

structure Inv (capacity : Nat) (s : State Proc) : Prop where
  slots : s.empty + s.full + ∑ p, (s.place p).owes = capacity
  level : s.level = s.full + ∑ p, (s.place p).hides
  holder : ∀ p, (s.place p).holds = true ↔ s.mutex = some p

namespace Inv

variable {capacity : Nat} {s s' : State Proc} {p : Proc}

theorem initial (s : State Proc) (empty : s.empty = capacity) (full : s.full = 0)
    (level : s.level = 0) (mutex : s.mutex = none) (outside : ∀ p, s.place p = .outside) :
    Inv capacity s := by
  constructor
  case slots => simp [empty, full, outside, Place.owes]
  case level => simp [level, full, outside, Place.hides]
  case holder => simp [outside, mutex, Place.holds]

theorem hides_le_owes (place : Place) : place.hides ≤ place.owes := by
  cases place with
  | outside => exact Nat.le_refl _
  | granted kind => cases kind <;> decide
  | inside kind => cases kind <;> decide
  | changed kind => cases kind <;> decide
  | leaving kind => cases kind <;> decide

theorem bound (inv : Inv capacity s) : s.level ≤ capacity := by
  have counted : ∑ q, (s.place q).hides ≤ ∑ q, (s.place q).owes :=
    Finset.sum_le_sum fun q _ => hides_le_owes (s.place q)
  have slots := inv.slots
  have level := inv.level
  omega

/-- Who puts has taken a unit of `empty` that nothing in the store stands for yet. -/
theorem room (inv : Inv capacity s) (inside : s.place p = .inside .put) : s.level < capacity := by
  have counted : ∑ q, (s.place q).hides < ∑ q, (s.place q).owes := by
    apply Finset.sum_lt_sum
    · exact fun q _ => hides_le_owes (s.place q)
    · refine ⟨p, Finset.mem_univ p, ?_⟩
      rw [inside]
      decide
  have slots := inv.slots
  have level := inv.level
  omega

theorem stock (inv : Inv capacity s) (inside : s.place p = .inside .take) : 0 < s.level := by
  have one : (s.place p).hides ≤ _ := le_sum (fun q => (s.place q).hides) p
  have level := inv.level
  have hides : (s.place p).hides = 1 := by rw [inside]; rfl
  omega

theorem quiet (inv : Inv capacity s) (outside : ∀ p, s.place p = .outside) :
    s.empty + s.full = capacity ∧ s.level = s.full := by
  have slots := inv.slots
  have level := inv.level
  simp only [outside, Place.owes, Place.hides, Finset.sum_const_zero] at slots level
  exact ⟨slots, level⟩

variable [DecidableEq Proc] {before place : Place} {empty full level : Nat}

/-- One process goes on; what it owes and hides accounts for every change of the numbers. -/
theorem goto (inv : Inv capacity s) {mutex : Option Proc} (here : s.place p = before)
    (slots : empty + full + place.owes = s.empty + s.full + before.owes)
    (levels : level + s.full + before.hides = s.level + full + place.hides)
    (others : ∀ q, q ≠ p → (mutex = some q ↔ s.mutex = some q))
    (self : place.holds = true ↔ mutex = some p) :
    Inv capacity ⟨empty, full, level, mutex, update s.place p place⟩ := by
  have owed := sum_update Place.owes s.place p place
  have hidden := sum_update Place.hides s.place p place
  have before := inv.slots
  have stored := inv.level
  rw [here] at owed hidden
  constructor
  case slots => dsimp only; omega
  case level => dsimp only; omega
  case holder =>
    intro q
    dsimp only
    induction q using update_cases with
    | own => exact self
    | others q same =>
      rw [others q same]
      exact inv.holder q

/-- The same, where nobody takes or gives up the mutex. -/
theorem pass (inv : Inv capacity s) (here : s.place p = before)
    (holds : place.holds = before.holds)
    (slots : empty + full + place.owes = s.empty + s.full + before.owes)
    (levels : level + s.full + before.hides = s.level + full + place.hides) :
    Inv capacity ⟨empty, full, level, s.mutex, update s.place p place⟩ := by
  apply inv.goto here slots levels (fun _ _ => Iff.rfl)
  rw [holds, ← here]
  exact inv.holder p

theorem move (inv : Inv capacity s) (moves : Move s s') : Inv capacity s' := by
  cases moves with
  | stay => exact inv
  | waitEmpty outside positive =>
    refine inv.pass outside rfl ?_ rfl
    simp only [Place.owes]
    omega
  | waitFull outside positive =>
    refine inv.pass outside rfl ?_ ?_
    · simp only [Place.owes]
      omega
    · simp only [Place.hides]
      omega
  | @lock p kind granted free =>
    refine inv.goto granted rfl ?_ ?_ ?_
    · cases kind <;> rfl
    · intro q different
      rw [free]
      exact iff_of_false (fun same => different (Option.some.inj same).symm) nofun
    · exact iff_of_true rfl rfl
  | put inside =>
    refine inv.pass inside rfl rfl ?_
    simp only [Place.hides]
    omega
  | take inside =>
    have positive := inv.stock inside
    refine inv.pass inside rfl rfl ?_
    simp only [Place.hides]
    omega
  | @unlock p kind changed =>
    have held : s.mutex = some p := (inv.holder p).mp (by rw [changed]; rfl)
    refine inv.goto changed rfl ?_ ?_ ?_
    · cases kind <;> rfl
    · intro q different
      rw [held]
      exact iff_of_false nofun fun same => different (Option.some.inj same).symm
    · exact iff_of_false Bool.false_ne_true nofun
  | postFull leaving =>
    refine inv.pass leaving rfl ?_ ?_
    · simp only [Place.owes]
      omega
    · simp only [Place.hides]
      omega
  | postEmpty leaving =>
    refine inv.pass leaving rfl ?_ rfl
    simp only [Place.owes]
    omega

end Inv

end

end Laboratorio.Lib.Slots
