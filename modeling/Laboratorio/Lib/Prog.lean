import Laboratorio.Lib.System

/-! # Programs on shared state with locks

A program is a tree of atomic actions on a shared state and of lock operations.  `Prog.exec` runs
it alone, from beginning to end.  `Prog.wp` is its weakest precondition, and `Prog.wp_sound`
connects the two.

`mark` does nothing: it records the lock whose resource a process works on.
-/

namespace Laboratorio.Lib

open Function

inductive Prog (State Lock Panic Result : Type) : Type
  | ret (result : Result)
  /-- The rest of the program depends on the state before the update. -/
  | act (update : State → State) (next : State → Prog State Lock Panic Result)
  | acquire (lock : Lock) (next : Prog State Lock Panic Result)
  | release (lock : Lock) (next : Prog State Lock Panic Result)
  /-- Whether the running process holds a lock. -/
  | holding (lock : Lock) (next : Bool → Prog State Lock Panic Result)
  | mark (place : Option Lock) (next : Prog State Lock Panic Result)
  | panic (reason : Panic)

namespace Prog

variable {State Lock Panic Proc Result Value : Type}

protected def bind : Prog State Lock Panic Value → (Value → Prog State Lock Panic Result) →
    Prog State Lock Panic Result
  | .ret value, rest => rest value
  | .act update next, rest => .act update fun state => (next state).bind rest
  | .acquire lock next, rest => .acquire lock (next.bind rest)
  | .release lock next, rest => .release lock (next.bind rest)
  | .holding lock next, rest => .holding lock fun held => (next held).bind rest
  | .mark place next, rest => .mark place (next.bind rest)
  | .panic reason, _ => .panic reason

instance : Monad (Prog State Lock Panic) where
  pure := .ret
  bind := Prog.bind

def get (read : State → Value) : Prog State Lock Panic Value :=
  .act id fun state => .ret (read state)

def modify (update : State → State) : Prog State Lock Panic Unit :=
  .act update fun _ => .ret ()

/-! ## Running alone -/

inductive Outcome (State Lock Panic Proc Result : Type) : Type
  | done (result : Result) (state : State) (locks : Lock → Option Proc)
  | panicked (reason : Panic)
  /-- The program waits for a lock that nobody will release. -/
  | blocked

section Alone

variable [DecidableEq Lock] [DecidableEq Proc] {first : Prog State Lock Panic Value}
  {rest : Value → Prog State Lock Panic Result}

def exec (proc : Proc) : Prog State Lock Panic Result → State → (Lock → Option Proc) →
    Outcome State Lock Panic Proc Result
  | .ret result, state, locks => .done result state locks
  | .act update next, state, locks => (next state).exec proc (update state) locks
  | .acquire lock next, state, locks =>
    match locks lock with
    | none => next.exec proc state (update locks lock (some proc))
    | some _ => .blocked
  | .release lock next, state, locks => next.exec proc state (update locks lock none)
  | .holding lock next, state, locks => (next (locks lock = some proc)).exec proc state locks
  | .mark _ next, state, locks => next.exec proc state locks
  | .panic reason, _, _ => .panicked reason

theorem exec_bind {proc : Proc} {value : Value} {state state' : State}
    {locks locks' : Lock → Option Proc}
    (ended : first.exec proc state locks = .done value state' locks') :
    (first >>= rest).exec proc state locks = (rest value).exec proc state' locks' := by
  show (first.bind rest).exec proc state locks = _
  induction first generalizing state locks with
  | ret value =>
    cases ended
    rfl
  | act update next ih => exact ih _ ended
  | acquire lock next ih =>
    simp only [Prog.bind, exec] at ended ⊢
    split at ended
    case h_1 => exact ih ended
    case h_2 => cases ended
  | release lock next ih => exact ih ended
  | holding lock next ih => exact ih _ ended
  | mark place next ih => exact ih ended
  | panic reason => cases ended

/-- The program ends in `post`, or panics with an `allowed` reason, or waits for ever. -/
def wp (proc : Proc) (allowed : Panic → Prop) : Prog State Lock Panic Result →
    (Result → State → (Lock → Option Proc) → Prop) → State → (Lock → Option Proc) → Prop
  | .ret result, post, state, locks => post result state locks
  | .act update next, post, state, locks => (next state).wp proc allowed post (update state) locks
  | .acquire lock next, post, state, locks =>
    locks lock = none → next.wp proc allowed post state (update locks lock (some proc))
  | .release lock next, post, state, locks =>
    next.wp proc allowed post state (update locks lock none)
  | .holding lock next, post, state, locks =>
    (next (locks lock = some proc)).wp proc allowed post state locks
  | .mark _ next, post, state, locks => next.wp proc allowed post state locks
  | .panic reason, _, _, _ => allowed reason

variable {proc : Proc} {allowed : Panic → Prop}
  {post : Result → State → (Lock → Option Proc) → Prop} {state : State} {locks : Lock → Option Proc}
  {prog : Prog State Lock Panic Result}

theorem wp_bind :
    (first >>= rest).wp proc allowed post state locks ↔
      first.wp proc allowed (fun value state locks => (rest value).wp proc allowed post state locks)
        state locks := by
  show (first.bind rest).wp proc allowed post state locks ↔ _
  induction first generalizing state locks with
  | ret value => rfl
  | act update next ih => exact ih state
  | acquire lock next ih =>
    simp [Prog.bind, wp, ih]
  | release lock next ih => exact ih
  | holding lock next ih => exact ih _
  | mark place next ih => exact ih
  | panic reason => rfl

theorem wp_mono {weaker : Result → State → (Lock → Option Proc) → Prop}
    (implies : ∀ result state locks, post result state locks → weaker result state locks)
    (holds : prog.wp proc allowed post state locks) : prog.wp proc allowed weaker state locks := by
  induction prog generalizing state locks with
  | ret value => exact implies _ _ _ holds
  | act update next ih => exact ih _ holds
  | acquire lock next ih =>
    intro free
    exact ih (holds free)
  | release lock next ih => exact ih holds
  | holding lock next ih => exact ih _ holds
  | mark place next ih => exact ih holds
  | panic reason => exact holds

theorem wp_sound (holds : prog.wp proc allowed post state locks) :
    match prog.exec proc state locks with
    | .done result final locks => post result final locks
    | .panicked reason => allowed reason
    | .blocked => True := by
  induction prog generalizing state locks with
  | ret value => exact holds
  | act update next ih => exact ih _ holds
  | acquire lock next ih =>
    unfold exec
    cases free : locks lock with
    | none => exact ih (holds free)
    | some holder => trivial
  | release lock next ih => exact ih holds
  | holding lock next ih => exact ih _ holds
  | mark place next ih => exact ih holds
  | panic reason => exact holds

/-! ### Whatever the locks -/

/-- The weakest precondition of a `post` that does not look at the locks, for a program
that may find any locks free. -/
def Ends (proc : Proc) (allowed : Panic → Prop) (prog : Prog State Lock Panic Result)
    (post : Result → State → Prop) (state : State) : Prop :=
  ∀ locks : Lock → Option Proc, prog.wp proc allowed (fun result state _ => post result state) state locks

namespace Ends

variable {prog : Prog State Lock Panic Result} {post weaker : Result → State → Prop} {lock : Lock}
  {update : State → State}

theorem ret {result : Result} (holds : post result state) :
    Ends proc allowed (.ret result : Prog State Lock Panic Result) post state :=
  fun _ => holds

theorem act {next : State → Prog State Lock Panic Result}
    (holds : Ends proc allowed (next state) post (update state)) :
    Ends proc allowed (.act update next) post state :=
  holds

theorem acquire (holds : Ends proc allowed prog post state) :
    Ends proc allowed (.acquire lock prog) post state :=
  fun _ _ => holds _

theorem release (holds : Ends proc allowed prog post state) :
    Ends proc allowed (.release lock prog) post state :=
  fun _ => holds _

theorem holding {next : Bool → Prog State Lock Panic Result}
    (holds : ∀ held, Ends proc allowed (next held) post state) :
    Ends proc allowed (.holding lock next) post state :=
  fun locks => holds _ locks

theorem mark {place : Option Lock} (holds : Ends proc allowed prog post state) :
    Ends proc allowed (.mark place prog) post state :=
  holds

theorem panic {reason : Panic} (holds : allowed reason) :
    Ends proc allowed (.panic reason : Prog State Lock Panic Result) post state :=
  fun _ => holds

theorem get {read : State → Result} (holds : post (read state) state) :
    Ends proc allowed (Prog.get read : Prog State Lock Panic Result) post state :=
  fun _ => holds

theorem modify {post : Unit → State → Prop} (holds : post () (update state)) :
    Ends proc allowed (Prog.modify update : Prog State Lock Panic Unit) post state :=
  fun _ => holds

theorem mono (implies : ∀ result state, post result state → weaker result state)
    (holds : Ends proc allowed prog post state) : Ends proc allowed prog weaker state :=
  fun locks => wp_mono (fun result state _ => implies result state) (holds locks)

theorem bind
    (holds : Ends proc allowed first (fun value state => Ends proc allowed (rest value) post state) state) :
    Ends proc allowed (first >>= rest) post state :=
  fun locks => wp_bind.mpr (wp_mono (fun _ _ locks holds => holds locks) (holds locks))

theorem seq {between : Value → State → Prop} (begins : Ends proc allowed first between state)
    (next : ∀ value state, between value state → Ends proc allowed (rest value) post state) :
    Ends proc allowed (first >>= rest) post state :=
  bind (mono next begins)

theorem andRet {result : Value → Result}
    (holds : Ends proc allowed first (fun value => post (result value)) state) :
    Ends proc allowed (first >>= fun value => .ret (result value)) post state :=
  seq holds fun _ _ holds => ret holds

theorem done {result : Result} {final : State} {finalLocks : Lock → Option Proc}
    (holds : Ends proc allowed prog post state)
    (ended : prog.exec proc state locks = .done result final finalLocks) : post result final := by
  have sound := wp_sound (holds locks)
  rwa [ended] at sound

theorem panicked {reason : Panic} (holds : Ends proc allowed prog post state)
    (ended : prog.exec proc state locks = .panicked reason) : allowed reason := by
  have sound := wp_sound (holds locks)
  rwa [ended] at sound

end Ends

end Alone

end Prog

end Laboratorio.Lib
