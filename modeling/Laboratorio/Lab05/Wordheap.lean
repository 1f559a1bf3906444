import Laboratorio.Lib.CString
import Laboratorio.Lib.Slots
import Laboratorio.Lib.System

/-! # The shared stack of words of `wordheap.c`

Any number of processes run the commands `-w` and `-r` on the stack that one `-c` has created,
one call or one assignment a step.  The memory of `heap` is a function on all indices, so that
a wrong index would be seen: `wordstack_lifo` says which indices are used.

Two fields are history.  `events` has the critical sections in their order, each entered when
it changes `free`; `printed` has what the pop of an event printed.  `replay` is what the stack
is for: a bounded LIFO that runs over the events, and fails on a push that finds it full or a
pop that finds it empty.
-/

namespace Laboratorio.Lab05.Wordheap

open Laboratorio.Lib Laboratorio.Lib.CString Function

variable {argument : Word} {event : Nat} {before : Int}

def ITEMS : Nat := 15

def MAX_WORD : Nat := 50

/-! ## The commands -/

section

variable (Proc : Type)

inductive Command
  | w
  | r
  deriving DecidableEq

/-- Where a process is; `idle` is before and after a command.  `terminate` is the assignment
of the NUL, `change` is `free++` or `free--`. -/
inductive Pos
  | idle
  | semWait
  | lock
  | strncpy
  | terminate
  | change
  | unlock
  | semPost
  | print
  deriving DecidableEq

/-- `word` is the local array of `-r`, `event` is history: the number of the critical section,
and the value `free` had before it. -/
structure Frame where
  command : Command
  pos : Pos
  argument : Word
  word : Chars
  event : Nat
  before : Int

inductive Event
  | push (p : Proc) (word : Word)
  | pop (p : Proc)

structure State where
  free : Int
  maxWord : Nat
  mutex : Option Proc
  full : Nat
  empty : Nat
  heap : Int → Chars
  frames : Proc → Frame
  events : List (Event Proc)
  printed : Nat → Option (Option (List UInt8))

inductive Label
  | exec (p : Proc) (command : Command) (argument : Word) (word : Chars)
  | go (p : Proc)

end

section

variable {Proc : Type} [DecidableEq Proc]

namespace State

def setFrame (s : State Proc) (p : Proc) (frame : Frame) : State Proc :=
  { s with frames := update s.frames p frame }

def goto (s : State Proc) (p : Proc) (pos : Pos) : State Proc :=
  s.setFrame p { s.frames p with pos }

end State

def stepW (s : State Proc) (p : Proc) : Option (State Proc) :=
  let frame := s.frames p
  match frame.pos with
  | .idle => none
  | .semWait => if 0 < s.empty then some ({ s with empty := s.empty - 1 }.goto p .lock) else none
  | .lock =>
    if s.mutex = none then some ({ s with mutex := some p }.goto p .strncpy) else none
  | .strncpy =>
    let row := strncpy (s.heap s.free) frame.argument.chars (s.maxWord - 1)
    some ({ s with heap := update s.heap s.free row }.goto p .terminate)
  | .terminate =>
    let row := update (s.heap s.free) (s.maxWord - 1) 0
    some ({ s with heap := update s.heap s.free row }.goto p .change)
  | .change =>
    some
      { s with
        free := s.free + 1
        events := s.events ++ [.push p frame.argument]
        frames := update s.frames p
          { frame with pos := .unlock, event := s.events.length, before := s.free } }
  | .unlock => some ({ s with mutex := none }.goto p .semPost)
  | .semPost => some ({ s with full := s.full + 1 }.goto p .print)
  | .print => some (s.goto p .idle)

def stepR (s : State Proc) (p : Proc) : Option (State Proc) :=
  let frame := s.frames p
  match frame.pos with
  | .idle => none
  | .semWait => if 0 < s.full then some ({ s with full := s.full - 1 }.goto p .lock) else none
  | .lock =>
    if s.mutex = none then some ({ s with mutex := some p }.goto p .change) else none
  | .change =>
    some
      { s with
        free := s.free - 1
        events := s.events ++ [.pop p]
        frames := update s.frames p
          { frame with pos := .strncpy, event := s.events.length, before := s.free } }
  | .strncpy =>
    let word := strncpy frame.word (s.heap s.free) s.maxWord
    some (s.setFrame p { frame with pos := .unlock, word })
  -- the array has been filled by `strncpy`
  | .terminate => none
  | .unlock => some ({ s with mutex := none }.goto p .semPost)
  | .semPost => some ({ s with empty := s.empty + 1 }.goto p .print)
  | .print =>
    some ({ s with
      printed := update s.printed frame.event (some (text frame.word MAX_WORD)) }.goto
        p .idle)

def step (s : State Proc) : Label Proc → Option (State Proc)
  | .exec p command argument word =>
    if (s.frames p).pos = .idle then
      some (s.setFrame p ⟨command, .semWait, argument, word, 0, 0⟩)
    else none
  | .go p =>
    match (s.frames p).command with
    | .w => stepW s p
    | .r => stepR s p

/-- What `-c` leaves: the rows of `heap` hold anything. -/
structure Created (s : State Proc) : Prop where
  free : s.free = 0
  maxWord : s.maxWord = MAX_WORD
  mutex : s.mutex = none
  full : s.full = 0
  empty : s.empty = ITEMS
  idle : ∀ p, (s.frames p).pos = .idle
  events : s.events = []
  printed : ∀ k, s.printed k = none

def system : System (State Proc) (Label Proc) where
  init := Created
  step := step

end

/-! ## The bounded stack -/

section

variable {Proc : Type} {events : List (Event Proc)} {event : Event Proc}

def Event.apply : Event Proc → List Word → Option (List Word)
  | .push _ word, words => if words.length < ITEMS then some (word :: words) else none
  | .pop _, _ :: words => some words
  | .pop _, [] => none

def replay (events : List (Event Proc)) : Option (List Word) :=
  events.foldlM (fun words event => event.apply words) []

theorem replay_append {words : List Word} (replayed : replay events = some words) :
    replay (events ++ [event]) = event.apply words := by
  rw [replay, List.foldlM_append, ← replay, replayed]
  exact Option.bind_fun_some _

def Event.isPopOf [DecidableEq Proc] (p : Proc) : Event Proc → Bool
  | .push _ _ => false
  | .pop q => q = p

theorem Event.isPopOf_iff [DecidableEq Proc] {p : Proc} :
    event.isPopOf p = true ↔ event = .pop p := by
  cases event with
  | push q word => exact iff_of_false Bool.false_ne_true nofun
  | pop q => rw [Event.isPopOf, decide_eq_true_eq, Event.pop.injEq]

/-- The event is a pop of `p` that finds `word` on top. -/
structure Pops (events : List (Event Proc)) (k : Nat) (p : Proc) (word : Word) : Prop where
  isPop : events[k]? = some (.pop p)
  top : ∃ rest, replay (events.take k) = some (word :: rest)

theorem Pops.append {k : Nat} {p : Proc} {word : Word}
    (pops : Pops events k p word) (event : Event Proc) : Pops (events ++ [event]) k p word := by
  have below : k < events.length := (List.getElem?_eq_some_iff.mp pops.isPop).choose
  constructor
  · rw [List.getElem?_append_left below]
    exact pops.isPop
  · rw [List.take_append_of_le_length (by omega)]
    exact pops.top

end

/-! ## What holds between two steps -/

def Command.kind : Command → Slots.Kind
  | .w => .put
  | .r => .take

def Frame.place (frame : Frame) : Slots.Place :=
  match frame.command, frame.pos with
  | _, .idle => .outside
  | _, .semWait => .outside
  | command, .lock => .granted command.kind
  | .w, .strncpy => .inside .put
  | .w, .terminate => .inside .put
  | .w, .change => .inside .put
  | .r, .change => .inside .take
  | .r, .strncpy => .changed .take
  | .r, .terminate => .changed .take
  | command, .unlock => .changed command.kind
  | command, .semPost => .leaving command.kind
  | _, .print => .outside

section

variable {Proc : Type} {s : State Proc} {frame : Frame}

def State.slots (s : State Proc) : Slots.State Proc where
  empty := s.empty
  full := s.full
  level := s.free.toNat
  mutex := s.mutex
  place p := (s.frames p).place

def Holds (row : Chars) (word : Word) : Prop :=
  ∀ j < MAX_WORD, row j = (word.cut MAX_WORD).getD j 0

/-- What a process has done so far in its command. -/
def Frame.Fine (s : State Proc) (p : Proc) (frame : Frame) : Prop :=
  match frame.command, frame.pos with
  | .w, .terminate => ∀ j < MAX_WORD - 1, s.heap s.free j = (frame.argument.cut MAX_WORD).getD j 0
  | .w, .change => Holds (s.heap s.free) frame.argument
  | .r, .strncpy =>
    s.free < frame.before ∧
      ∃ word, Pops s.events frame.event p word ∧ Holds (s.heap s.free) word
  | .r, .unlock =>
    ∃ word, Pops s.events frame.event p word ∧ text frame.word MAX_WORD = some (word.cut MAX_WORD)
  | .r, .semPost =>
    ∃ word, Pops s.events frame.event p word ∧ text frame.word MAX_WORD = some (word.cut MAX_WORD)
  | .r, .print =>
    ∃ word, Pops s.events frame.event p word ∧ text frame.word MAX_WORD = some (word.cut MAX_WORD)
  | _, _ => True

def Frame.pending (frame : Frame) : Prop :=
  frame.command = .r ∧
    (frame.pos = .strncpy ∨ frame.pos = .unlock ∨ frame.pos = .semPost ∨ frame.pos = .print)

/-- The words are in their rows, the oldest one in row 0. -/
structure Stored (s : State Proc) (words : List Word) : Prop where
  replayed : replay s.events = some words
  free : s.free = words.length
  rows : ∀ (i : Nat) (word : Word), words.reverse[i]? = some word → Holds (s.heap i) word

def Printed (s : State Proc) (k : Nat) (p : Proc) : Prop :=
  ∃ word, Pops s.events k p word ∧ s.printed k = some (some (word.cut MAX_WORD))

structure Inv [Fintype Proc] (s : State Proc) : Prop where
  slots : Slots.Inv ITEMS s.slots
  maxWord : s.maxWord = MAX_WORD
  stored : ∃ words, Stored s words
  fine : ∀ p, (s.frames p).Fine s p
  pops : ∀ k p, s.events[k]? = some (.pop p) →
    Printed s k p ∨ ((s.frames p).pending ∧ (s.frames p).event = k)

/-- Without the mutex a process relies on nothing but the events so far. -/
theorem Frame.Fine.away {s' : State Proc} {p : Proc} (fine : frame.Fine s p)
    (outside : frame.place.holds = false)
    (pops : ∀ k word, Pops s.events k p word → Pops s'.events k p word) : frame.Fine s' p := by
  rcases frame with ⟨command, pos, argument, word, event, before⟩
  have printing : (∃ popped, Pops s.events event p popped ∧ text word MAX_WORD = some (popped.cut MAX_WORD)) →
      ∃ popped, Pops s'.events event p popped ∧ text word MAX_WORD = some (popped.cut MAX_WORD) :=
    fun ⟨popped, atEvent, isText⟩ => ⟨popped, pops event popped atEvent, isText⟩
  cases command with
  | w =>
    cases pos with
    | terminate => cases outside
    | change => cases outside
    | _ => exact trivial
  | r =>
    cases pos with
    | strncpy => cases outside
    | unlock => cases outside
    | semPost => exact printing fine
    | print => exact printing fine
    | _ => exact trivial

theorem Frame.Fine.pops {p : Proc} (fine : frame.Fine s p)
    (pends : frame.pending) : ∃ word, Pops s.events frame.event p word := by
  obtain ⟨command, pos⟩ := pends
  obtain pos | pos | pos | pos := pos <;> simp only [Frame.Fine, command, pos] at fine
  · obtain ⟨-, word, pops, -⟩ := fine
    exact ⟨word, pops⟩
  all_goals
    obtain ⟨word, pops, -⟩ := fine
    exact ⟨word, pops⟩

theorem Inv.others [Fintype Proc] {p q : Proc} (inv : Inv s)
    (holds : (s.frames p).place.holds = true) (different : q ≠ p) :
    (s.frames q).place.holds = false := by
  have isHolder : s.mutex = some p := (inv.slots.holder p).mp holds
  cases other : (s.frames q).place.holds with
  | false => rfl
  | true =>
    have mutex : s.mutex = some q := (inv.slots.holder q).mp other
    rw [isHolder] at mutex
    exact absurd (Option.some.inj mutex).symm different

variable [DecidableEq Proc]

theorem slots_setFrame (s : State Proc) (p : Proc) (frame : Frame) :
    (s.setFrame p frame).slots = s.slots.goto p frame.place := by
  have place : (s.setFrame p frame).slots.place = update s.slots.place p frame.place :=
    funext (apply_update (fun _ => Frame.place) s.frames p frame)
  rw [Slots.State.goto, ← place]
  rfl

variable [Fintype Proc] {s s' base : State Proc} {p q : Proc} {word : Chars}

/-- The holder of the mutex goes on; the others rely on nothing but the events. -/
theorem Inv.fine_update (inv : Inv s) (holds : (s.frames p).place.holds = true)
    (fine : frame.Fine s' p) (pops : ∀ k q word, Pops s.events k q word → Pops s'.events k q word)
    (q : Proc) : (update s.frames p frame q).Fine s' q := by
  induction q using update_cases with
  | own => exact fine
  | others q different => exact (inv.fine q).away (inv.others holds different) (pops · q)

omit [Fintype Proc] in
theorem pends_setFrame {k : Nat} (different : q ≠ p) (frame : Frame)
    (pends : (s.frames q).pending ∧ (s.frames q).event = k) :
    ((s.setFrame p frame).frames q).pending ∧ ((s.setFrame p frame).frames q).event = k := by
  simp only [State.setFrame, update_of_ne different]
  exact pends

/-- The states agree on the stack itself. -/
structure SameStack (s base : State Proc) : Prop where
  frames : base.frames = s.frames
  heap : base.heap = s.heap
  free : base.free = s.free
  maxWord : base.maxWord = s.maxWord
  events : base.events = s.events
  printed : base.printed = s.printed

theorem Inv.quiet (inv : Inv s) (p : Proc) (frame : Frame) (base : State Proc)
    (same : SameStack s base)
    (moves : Slots.Move s.slots (base.slots.goto p frame.place)) (fine : frame.Fine s p)
    (pending : (s.frames p).pending → frame.pending ∧ frame.event = (s.frames p).event) :
    Inv (base.setFrame p frame) := by
  have fineSame : ∀ q other, Frame.Fine s q other →
      Frame.Fine (base.setFrame p frame) q other := by
    intro q other fine
    simp only [State.setFrame, same.heap, same.free, same.events]
    exact fine
  constructor
  case slots =>
    rw [slots_setFrame]
    exact inv.slots.move moves
  case maxWord => exact same.maxWord.trans inv.maxWord
  case stored =>
    obtain ⟨words, replayed, free, rows⟩ := inv.stored
    refine ⟨words, ?_, ?_, ?_⟩
    · exact same.events.symm ▸ replayed
    · exact same.free.trans free
    · exact same.heap.symm ▸ rows
  case fine =>
    intro q
    show (update base.frames p frame q).Fine _ q
    rw [same.frames]
    induction q using update_cases with
    | own => exact fineSame p frame fine
    | others q _ => exact fineSame q (s.frames q) (inv.fine q)
  case pops =>
    intro k q isPop
    have isPop : s.events[k]? = some (.pop q) := same.events ▸ isPop
    obtain printed | ⟨pends, event⟩ := inv.pops k q isPop
    · refine .inl ?_
      simp only [State.setFrame, same.events, same.printed]
      exact printed
    · refine .inr ?_
      simp only [State.setFrame, same.frames]
      induction q using update_cases with
      | own =>
        obtain ⟨stillPends, sameEvent⟩ := pending pends
        exact ⟨stillPends, sameEvent.trans event⟩
      | others q _ => exact ⟨pends, event⟩

theorem Inv.writes (inv : Inv s) (p : Proc) (frame : Frame) (row : Chars)
    (inside : (s.frames p).place = .inside .put) (stays : frame.place = .inside .put)
    (fine : frame.Fine { s with heap := update s.heap s.free row } p)
    (notPending : ¬ (s.frames p).pending) :
    Inv ({ s with heap := update s.heap s.free row }.setFrame p frame) := by
  constructor
  case slots =>
    rw [slots_setFrame, stays]
    exact inv.slots.move (.still inside)
  case maxWord => exact inv.maxWord
  case stored =>
    obtain ⟨words, replayed, free, rows⟩ := inv.stored
    refine ⟨words, replayed, free, ?_⟩
    intro i word isWord
    have below : i < words.reverse.length := (List.getElem?_eq_some_iff.mp isWord).choose
    rw [List.length_reverse] at below
    have other : (i : Int) ≠ s.free := by omega
    simp only [State.setFrame, update_of_ne other]
    exact rows i word isWord
  case fine =>
    exact inv.fine_update (by rw [inside]; rfl) fine fun _ _ _ pops => pops
  case pops =>
    intro k q isPop
    obtain printed | pends := inv.pops k q isPop
    · exact .inl printed
    · have different : q ≠ p := fun same => notPending (same ▸ pends.1)
      exact .inr (pends_setFrame different frame pends)

theorem Inv.changes (inv : Inv s) (p : Proc) (frame : Frame) (event : Event Proc) (free : Int)
    (moves : Slots.Move s.slots ({ s.slots with level := free.toNat }.goto p frame.place))
    (holds : (s.frames p).place.holds = true)
    (stored : ∃ words, Stored { s with free, events := s.events ++ [event] } words)
    (fine : frame.Fine { s with free, events := s.events ++ [event] } p)
    (notPending : ¬ (s.frames p).pending)
    (pending : ∀ q, event = .pop q → q = p ∧ frame.pending ∧ frame.event = s.events.length) :
    Inv ({ s with free, events := s.events ++ [event] }.setFrame p frame) := by
  constructor
  case slots =>
    rw [slots_setFrame]
    exact inv.slots.move moves
  case maxWord => exact inv.maxWord
  case stored =>
    obtain ⟨words, replayed, isFree, rows⟩ := stored
    exact ⟨words, replayed, isFree, rows⟩
  case fine => exact inv.fine_update holds fine fun _ _ _ pops => pops.append event
  case pops =>
    intro k q isPop
    have isPop : (s.events ++ [event])[k]? = some (.pop q) := isPop
    obtain ⟨bound, -⟩ := List.getElem?_eq_some_iff.mp isPop
    rw [List.length_append, List.length_singleton] at bound
    by_cases before : k < s.events.length
    · rw [List.getElem?_append_left before] at isPop
      obtain ⟨word, pops, printed⟩ | pends := inv.pops k q isPop
      · exact .inl ⟨word, pops.append event, printed⟩
      · have different : q ≠ p := fun same => notPending (same ▸ pends.1)
        exact .inr (pends_setFrame different frame pends)
    · -- the event that has been added
      obtain rfl : k = s.events.length := by omega
      rw [List.getElem?_concat_length, Option.some.injEq] at isPop
      obtain ⟨rfl, pends, isEvent⟩ := pending q isPop
      refine .inr ?_
      simp only [State.setFrame, update_self]
      exact ⟨pends, isEvent⟩

theorem Inv.pushes (inv : Inv s) (here : s.frames p = ⟨.w, .change, argument, word, event, before⟩) :
    Inv ({ s with free := s.free + 1, events := s.events ++ [Event.push p argument] }.setFrame p
      ⟨.w, .unlock, argument, word, s.events.length, s.free⟩) := by
  have inside : s.slots.place p = .inside .put := by
    simp [State.slots, here, Frame.place]
  obtain ⟨words, replayed, free, rows⟩ := inv.stored
  have room : s.free.toNat < ITEMS := inv.slots.room inside
  have holdsWord : Holds (s.heap s.free) argument := by
    have fine := inv.fine p
    rw [here] at fine
    exact fine
  apply inv.changes
  case moves =>
    have level : (s.free + 1).toNat = s.free.toNat + 1 := by omega
    rw [level]
    exact .put inside
  case holds => rw [here]; rfl
  case stored =>
    refine ⟨argument :: words, ?_, ?_, ?_⟩
    · rw [replay_append replayed, Event.apply, if_pos (by omega)]
    · dsimp only
      rw [List.length_cons]
      omega
    · intro i word isWord
      rw [List.reverse_cons] at isWord
      by_cases below : i < words.reverse.length
      · rw [List.getElem?_append_left below] at isWord
        exact rows i word isWord
      · have bound := (List.getElem?_eq_some_iff.mp isWord).choose
        rw [List.length_append, List.length_singleton] at bound
        obtain rfl : i = words.reverse.length := by omega
        rw [List.getElem?_concat_length, Option.some.injEq] at isWord
        rw [← isWord, List.length_reverse, ← free]
        exact holdsWord
  case fine => exact trivial
  case notPending =>
    rw [here]
    intro pends
    cases pends.1
  case pending => nofun

theorem Inv.takes (inv : Inv s) (here : s.frames p = ⟨.r, .change, argument, word, event, before⟩) :
    Inv ({ s with free := s.free - 1, events := s.events ++ [Event.pop p] }.setFrame p
      ⟨.r, .strncpy, argument, word, s.events.length, s.free⟩) := by
  have inside : s.slots.place p = .inside .take := by
    simp [State.slots, here, Frame.place]
  obtain ⟨words, replayed, free, rows⟩ := inv.stored
  have stock : 0 < s.free.toNat := inv.slots.stock inside
  cases words with
  | nil =>
    rw [List.length_nil] at free
    omega
  | cons top rest =>
    rw [List.length_cons] at free
    have isTop : Holds (s.heap (s.free - 1)) top := by
      have row := rows rest.length top
      rw [List.reverse_cons, List.getElem?_append_right (by rw [List.length_reverse]),
        List.length_reverse, Nat.sub_self] at row
      have index : s.free - 1 = (rest.length : Int) := by omega
      rw [index]
      exact row rfl
    apply inv.changes
    case moves =>
      have level : (s.free - 1).toNat = s.free.toNat - 1 := by omega
      rw [level]
      exact .take inside
    case holds => rw [here]; rfl
    case stored =>
      refine ⟨rest, ?_, ?_, ?_⟩
      · rw [replay_append replayed, Event.apply]
      · dsimp only
        omega
      · intro i word isWord
        apply rows i word
        rw [List.reverse_cons, List.getElem?_append_left]
        · exact isWord
        · exact (List.getElem?_eq_some_iff.mp isWord).choose
    case fine =>
      refine ⟨by dsimp only; omega, top, ⟨?_, rest, ?_⟩, isTop⟩
      · exact List.getElem?_concat_length ..
      · rw [List.take_left']
        · exact replayed
        · rfl
    case notPending =>
      rw [here]
      intro pends
      obtain ⟨-, pos⟩ := pends
      simp only [reduceCtorEq, or_self] at pos
    case pending =>
      intro q isPop
      cases isPop
      exact ⟨rfl, ⟨rfl, .inl rfl⟩, rfl⟩

theorem Inv.prints (inv : Inv s) (here : s.frames p = ⟨.r, .print, argument, word, event, before⟩) :
    Inv ({ s with
      printed := update s.printed event (some (text word MAX_WORD)) }.setFrame p
        ⟨.r, .idle, argument, word, event, before⟩) := by
  have outside : s.slots.place p = .outside := by
    simp [State.slots, here, Frame.place]
  have fine := inv.fine p
  rw [here] at fine
  obtain ⟨popped, popsNow, isText⟩ := fine
  constructor
  case slots =>
    rw [slots_setFrame]
    exact inv.slots.move (.still outside)
  case maxWord => exact inv.maxWord
  case stored =>
    obtain ⟨words, replayed, free, rows⟩ := inv.stored
    exact ⟨words, replayed, free, rows⟩
  case fine =>
    intro q
    show (update s.frames p _ q).Fine _ q
    induction q using update_cases with
    | own => exact trivial
    | others q _ => exact inv.fine q
  case pops =>
    intro k q isPop
    by_cases now : k = event
    · subst now
      obtain rfl : q = p := by
        have same := isPop.symm.trans popsNow.isPop
        simp only [Option.some.injEq, Event.pop.injEq] at same
        exact same
      refine .inl ⟨popped, popsNow, ?_⟩
      simp [State.setFrame, isText]
    · obtain ⟨word, pops, printed⟩ | pends := inv.pops k q isPop
      · refine .inl ⟨word, pops, ?_⟩
        simp only [State.setFrame, update_of_ne now]
        exact printed
      · have different : q ≠ p := by
          rintro rfl
          rw [here] at pends
          exact now pends.2.symm
        exact .inr (pends_setFrame different _ pends)

/-! ## Steps -/

theorem cut_getD (word : Word) {j : Nat} (below : j < MAX_WORD - 1) :
    (word.cut MAX_WORD).getD j 0 = word.bytes.getD j 0 := by
  rw [Word.cut, List.getD_eq_getElem?_getD, List.getElem?_take_of_lt below,
    ← List.getD_eq_getElem?_getD]

theorem stepW_inv (inv : Inv s) (command : (s.frames p).command = .w)
    (taken : stepW s p = some s') : Inv s' := by
  have isPlace : s.slots.place p = (s.frames p).place := rfl
  have fine := inv.fine p
  have quiet := inv.quiet p
  have writes := inv.writes p
  rcases here : s.frames p with ⟨_, pos, argument, word, event, before⟩
  rw [here] at command isPlace fine quiet writes
  cases command
  -- a push prints no word of the stack
  have notPending : ∀ pos, ¬ Frame.pending ⟨.w, pos, argument, word, event, before⟩ :=
    fun _ pends => nomatch pends.1
  have goesOn := fun next base same moves fine =>
    quiet ⟨.w, next, argument, word, event, before⟩ base same moves fine
      fun pends => absurd pends (notPending pos)
  have same : ∀ empty full mutex, SameStack s { s with empty, full, mutex } :=
    fun _ _ _ => ⟨rfl, rfl, rfl, rfl, rfl, rfl⟩
  simp only [stepW, here, State.goto] at taken
  cases pos with
  | idle => cases taken
  | semWait =>
    obtain ⟨positive, rfl⟩ := of_guard taken
    exact goesOn .lock _ (same ..) (.waitEmpty isPlace positive) trivial
  | lock =>
    obtain ⟨free, rfl⟩ := of_guard taken
    exact goesOn .strncpy _ (same ..) (.lock isPlace free) trivial
  | strncpy =>
    cases taken
    apply writes _ _ rfl rfl _ (notPending _)
    intro j below
    show update s.heap s.free _ s.free j = _
    rw [update_self, cut_getD _ below, inv.maxWord]
    exact strncpy_eq argument.noNul (fun _ _ _ => rfl) below
  | terminate =>
    cases taken
    apply writes _ _ rfl rfl _ (notPending _)
    intro j below
    show update s.heap s.free _ s.free j = _
    rw [update_self, inv.maxWord]
    by_cases last : j = MAX_WORD - 1
    · rw [last, update_self, List.getD_eq_default _ _ (argument.cut_length _)]
    · rw [update_of_ne last]
      exact fine j (by omega)
  | change =>
    cases taken
    exact inv.pushes here
  | unlock =>
    cases taken
    exact goesOn .semPost _ (same ..) (.unlock isPlace) trivial
  | semPost =>
    cases taken
    exact goesOn .print _ (same ..) (.postFull isPlace) trivial
  | print =>
    cases taken
    exact goesOn .idle s (same ..) (.still isPlace) trivial

theorem stepR_inv (inv : Inv s) (command : (s.frames p).command = .r)
    (taken : stepR s p = some s') : Inv s' := by
  have isPlace : s.slots.place p = (s.frames p).place := rfl
  have fine := inv.fine p
  have quiet := inv.quiet p
  rcases here : s.frames p with ⟨_, pos, argument, word, event, before⟩
  rw [here] at command isPlace fine quiet
  cases command
  have same : ∀ empty full mutex, SameStack s { s with empty, full, mutex } :=
    fun _ _ _ => ⟨rfl, rfl, rfl, rfl, rfl, rfl⟩
  have stillPending : ∀ {P : Prop} {next},
      Frame.pending ⟨.r, next, argument, word, event, before⟩ →
      P → Frame.pending ⟨.r, next, argument, word, event, before⟩ ∧ event = event :=
    fun pends _ => ⟨pends, rfl⟩
  simp only [stepR, here, State.goto] at taken
  cases pos with
  | idle => cases taken
  | terminate => cases taken
  | semWait =>
    obtain ⟨positive, rfl⟩ := of_guard taken
    apply quiet ⟨.r, .lock, argument, word, event, before⟩ _ (same ..)
    · exact .waitFull isPlace positive
    · exact trivial
    · intro pends
      simp only [Frame.pending, reduceCtorEq, or_self, and_false] at pends
  | lock =>
    obtain ⟨free, rfl⟩ := of_guard taken
    apply quiet ⟨.r, .change, argument, word, event, before⟩ _ (same ..)
    · exact .lock isPlace free
    · exact trivial
    · intro pends
      simp only [Frame.pending, reduceCtorEq, or_self, and_false] at pends
  | change =>
    cases taken
    exact inv.takes here
  | strncpy =>
    cases taken
    obtain ⟨-, popped, pops, holds⟩ := fine
    apply quiet ⟨.r, .unlock, argument, _, event, before⟩ s (same ..)
    · exact .still isPlace
    · refine ⟨popped, pops, ?_⟩
      have fits : (popped.cut MAX_WORD).length < MAX_WORD := Nat.lt_of_le_of_lt (popped.cut_length _) (by decide)
      rw [inv.maxWord]
      apply text_eq (popped.cut_noNul _) fits
      intro j inside
      exact strncpy_eq (popped.cut_noNul _) (fun j below _ => holds j below) (by omega)
    · exact fun _ => ⟨⟨rfl, .inr (.inl rfl)⟩, rfl⟩
  | unlock =>
    cases taken
    apply quiet ⟨.r, .semPost, argument, word, event, before⟩ _ (same ..)
    · exact .unlock isPlace
    · exact fine
    · exact stillPending ⟨rfl, .inr (.inr (.inl rfl))⟩
  | semPost =>
    cases taken
    apply quiet ⟨.r, .print, argument, word, event, before⟩ _ (same ..)
    · exact .postEmpty isPlace
    · exact fine
    · exact stillPending ⟨rfl, .inr (.inr (.inr rfl))⟩
  | print =>
    cases taken
    exact inv.prints here

theorem step_inv {label : Label Proc} (inv : Inv s) (taken : step s label = some s') :
    Inv s' := by
  cases label with
  | exec p command argument word =>
    obtain ⟨idle, rfl⟩ := of_guard taken
    have outside : s.slots.place p = .outside := by
      simp [State.slots, Frame.place, idle]
    apply inv.quiet p ⟨command, .semWait, argument, word, 0, 0⟩ s
      ⟨rfl, rfl, rfl, rfl, rfl, rfl⟩
    · have place : Frame.place ⟨command, .semWait, argument, word, 0, 0⟩ = .outside := by
        cases command <;> rfl
      exact .still outside
    · cases command <;> exact trivial
    · intro pends
      simp only [Frame.pending, idle, reduceCtorEq, or_self, and_false] at pends
  | go p =>
    simp only [step] at taken
    split at taken
    · exact stepW_inv inv ‹_› taken
    · exact stepR_inv inv ‹_› taken

omit [DecidableEq Proc] in
theorem inv_created (created : Created s) : Inv s := by
  constructor
  case slots =>
    apply Slots.Inv.initial
    · exact created.empty
    · exact created.full
    · simp [State.slots, created.free]
    · exact created.mutex
    · intro p
      simp [State.slots, Frame.place, created.idle]
  case maxWord => exact created.maxWord
  case stored =>
    refine ⟨[], ?_, created.free, ?_⟩
    · rw [created.events]
      rfl
    · intro i word isWord
      simp only [List.reverse_nil, List.getElem?_nil, reduceCtorEq] at isWord
  case fine =>
    intro p
    simp only [Frame.Fine, created.idle]
    cases (s.frames p).command <;> exact trivial
  case pops =>
    intro k p isPop
    simp only [created.events, List.getElem?_nil, reduceCtorEq] at isPop

theorem reachable_inv (reachable : system.Reachable s) : Inv s := by
  refine reachable.invariant inv_created ?_
  intro state label next _ inv _ taken
  exact step_inv inv taken

/-! ## The stack -/

/-- The shared stack is a bounded LIFO.  `replay` runs over the critical sections in their
order and never fails: no push finds the stack full, no pop finds it empty.  A pop prints the
word that the replay has on top at that moment, cut and with its NUL, unless its process is
still on the way to `printf`. -/
theorem wordstack_lifo (s : State Proc) (reachable : system.Reachable s) :
    (0 ≤ s.free ∧ s.free ≤ ITEMS) ∧
      -- the index of `heap` that `-w` writes to
      (∀ p, (s.frames p).command = .w →
        (s.frames p).pos = .strncpy ∨ (s.frames p).pos = .terminate →
        0 ≤ s.free ∧ s.free < ITEMS) ∧
      -- the index of `heap` that `-r` reads from
      (∀ p, (s.frames p).command = .r → (s.frames p).pos = .strncpy →
        0 ≤ s.free ∧ s.free < (s.frames p).before) ∧
      (∃ words, replay s.events = some words) ∧
      ∀ k p, s.events[k]? = some (.pop p) →
        ∃ word rest, replay (s.events.take k) = some (word :: rest) ∧
          (s.printed k = some (some (word.bytes.take (MAX_WORD - 1))) ∨
            ((s.frames p).pending ∧ (s.frames p).event = k)) := by
  have inv := reachable_inv reachable
  obtain ⟨words, replayed, free, -⟩ := inv.stored
  have bound : s.free.toNat ≤ ITEMS := inv.slots.bound
  refine ⟨by omega, ?_, ?_, ⟨words, replayed⟩, ?_⟩
  · intro p command pos
    have inside : s.slots.place p = .inside .put := by
      obtain pos | pos := pos
      · simp [State.slots, Frame.place, command, pos]
      · simp [State.slots, Frame.place, command, pos]
    have room : s.free.toNat < ITEMS := inv.slots.room inside
    omega
  · intro p command pos
    have fine := inv.fine p
    simp only [Frame.Fine, command, pos] at fine
    exact ⟨by omega, fine.1⟩
  · intro k p isPop
    obtain ⟨word, pops, printed⟩ | ⟨pends, event⟩ := inv.pops k p isPop
    · obtain ⟨rest, top⟩ := pops.top
      exact ⟨word, rest, top, .inl printed⟩
    · obtain ⟨word, pops⟩ := (inv.fine p).pops pends
      obtain ⟨rest, top⟩ := pops.top
      exact ⟨word, rest, event ▸ top, .inr ⟨pends, event⟩⟩

/-- Two processes push, and what one of them pops is the word of the other. -/
theorem second_word_popped_first :
    ∃ s : State (Fin 2), system.Reachable s ∧ s.events[2]? = some (.pop 0) ∧
      ∃ word rest, replay (s.events.take 2) = some (word :: rest) ∧
        s.printed 2 = some (some (word.bytes.take (MAX_WORD - 1))) := by
  let hola : Word := ⟨[104, 111, 108, 97], by decide⟩
  let adios : Word := ⟨[97, 100, 105, 111, 115], by decide⟩
  let idle : Frame := ⟨.r, .idle, hola, fun _ => 1, 0, 0⟩
  let start : State (Fin 2) :=
    { free := 0, maxWord := MAX_WORD, mutex := none, full := 0, empty := ITEMS
      heap := fun _ _ => 1, frames := fun _ => idle, events := [], printed := fun _ => none }
  have created : Created start :=
    ⟨rfl, rfl, rfl, rfl, rfl, fun _ => rfl, rfl, fun _ => rfl⟩
  have ran : ∃ s ∈ system.runWhen (fun _ _ => True) start
      (.exec 0 .w hola (fun _ => 1) :: List.replicate 8 (.go 0) ++
        .exec 1 .w adios (fun _ => 1) :: List.replicate 8 (.go 1) ++
        .exec 0 .r hola (fun _ => 1) :: List.replicate 7 (.go 0)),
      (s.frames 0).pos = .idle ∧ ∃ event ∈ s.events[2]?, event.isPopOf 0 := by
    decide +kernel
  obtain ⟨final, reachable, ended, event, atTwo, isPop⟩ :=
    System.ReachableWhen.exists_of_runWhen (.init created) ran
  have isPop : final.events[2]? = some (.pop 0) := by
    rw [atTwo, Event.isPopOf_iff.mp isPop]
  obtain ⟨-, -, -, -, prints⟩ := wordstack_lifo final reachable
  obtain ⟨word, rest, top, printed | ⟨⟨-, pos⟩, -⟩⟩ := prints 2 0 isPop
  · exact ⟨final, reachable, isPop, word, rest, top, printed⟩
  · simp only [ended, reduceCtorEq, or_self] at pos

end

end Laboratorio.Lab05.Wordheap
