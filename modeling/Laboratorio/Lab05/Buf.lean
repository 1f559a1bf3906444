import Laboratorio.Lib.Slots
import Laboratorio.Lib.System

/-! # The bounded buffer of `buf.c`

The producer and the consumer of `lab-05`, one call or one assignment a step.  `usleep` has no
step: it changes nothing, and steps may come in any order anyway.  `unread` is a history
variable: the cells that have been written and not read since.

The semaphores and the mutex are those of `Lib/Slots`; the order of the items comes on top of
it.  The item that is written next is the producer's counter, and it goes to the cell of that
number modulo the size.
-/

namespace Laboratorio.Lab05.Buf

open Laboratorio.Lib Function Nat Option

structure Params where
  size : Nat
  items : Nat
  sizePos : 0 < size
  itemsPos : 0 < items

inductive Thread
  | producer
  | consumer
  deriving DecidableEq

instance : Fintype Thread := ⟨{.producer, .consumer}, fun thread => by cases thread <;> decide⟩

/-- Where a thread is in its loop; `test` is the test of the `for` loop. -/
inductive Pos
  | test
  | semWait
  | lock
  | access
  | index
  | unlock
  | semPost
  | ended
  deriving DecidableEq

structure Frame where
  i : Nat
  pos : Pos

structure State where
  buf : Nat → Int
  entrada : Nat
  salida : Nat
  vacios : Nat
  llenos : Nat
  mutex : Option Thread
  frames : Thread → Frame
  readerResults : Nat → Int
  unread : Nat → Bool

namespace State

def setFrame (s : State) (thread : Thread) (frame : Frame) : State :=
  { s with frames := update s.frames thread frame }

def goto (s : State) (thread : Thread) (pos : Pos) : State :=
  s.setFrame thread { s.frames thread with pos }

end State

/-- What the two loops do differently. -/
structure Body where
  semWait : State → Option State
  access : Nat → State → State
  index : State → State
  semPost : State → State

def producer (params : Params) : Body where
  semWait s := if 0 < s.vacios then some { s with vacios := s.vacios - 1 } else none
  access i s :=
    { s with
      buf := update s.buf s.entrada i
      unread := update s.unread s.entrada true }
  index s := { s with entrada := (s.entrada + 1) % params.size }
  semPost s := { s with llenos := s.llenos + 1 }

def consumer (params : Params) : Body where
  semWait s := if 0 < s.llenos then some { s with llenos := s.llenos - 1 } else none
  access i s :=
    { s with
      readerResults := update s.readerResults i (s.buf s.salida)
      unread := update s.unread s.salida false }
  index s := { s with salida := (s.salida + 1) % params.size }
  semPost s := { s with vacios := s.vacios + 1 }

def Thread.body (params : Params) : Thread → Body
  | .producer => Buf.producer params
  | .consumer => Buf.consumer params

def step (params : Params) (s : State) (thread : Thread) : Option State :=
  let frame := s.frames thread
  let body := thread.body params
  match frame.pos with
  | .test => some (s.goto thread (if frame.i < params.items then .semWait else .ended))
  | .semWait => (body.semWait s).map fun s => s.goto thread .lock
  | .lock =>
    if s.mutex = none then some ({ s with mutex := some thread }.goto thread .access) else none
  | .access => some ((body.access frame.i s).goto thread .index)
  | .index => some ((body.index s).goto thread .unlock)
  | .unlock => some ({ s with mutex := none }.goto thread .semPost)
  | .semPost => some ((body.semPost s).setFrame thread ⟨frame.i + 1, .test⟩)
  | .ended => none

/-- Both arrays come from `malloc` with any contents. -/
structure Initial (params : Params) (s : State) : Prop where
  entrada : s.entrada = 0
  salida : s.salida = 0
  vacios : s.vacios = params.size
  llenos : s.llenos = 0
  mutex : s.mutex = none
  frames : ∀ thread, s.frames thread = ⟨0, .test⟩
  unread : ∀ cell, s.unread cell = false

def system (params : Params) : System State Thread where
  init := Initial params
  step := step params

/-! ## The protocol of the semaphores -/

def Thread.kind : Thread → Slots.Kind
  | .producer => .put
  | .consumer => .take

def Pos.place (kind : Slots.Kind) : Pos → Slots.Place
  | .test => .outside
  | .semWait => .outside
  | .lock => .granted kind
  | .access => .inside kind
  | .index => .changed kind
  | .unlock => .changed kind
  | .semPost => .leaving kind
  | .ended => .outside

/-- The items that a thread has written or read. -/
def Frame.accessed (frame : Frame) : Nat :=
  match frame.pos with
  | .index => frame.i + 1
  | .unlock => frame.i + 1
  | .semPost => frame.i + 1
  | _ => frame.i

def Frame.indexed (frame : Frame) : Nat :=
  match frame.pos with
  | .unlock => frame.i + 1
  | .semPost => frame.i + 1
  | _ => frame.i

namespace State

def written (s : State) : Nat := (s.frames .producer).accessed

def read (s : State) : Nat := (s.frames .consumer).accessed

def slots (s : State) : Slots.State Thread where
  empty := s.vacios
  full := s.llenos
  level := s.written - s.read
  mutex := s.mutex
  place thread := (s.frames thread).pos.place thread.kind

end State

/-- Where a thread's counter is. -/
structure Frame.InLoop (items : Nat) (frame : Frame) : Prop where
  bound : frame.i ≤ items
  busy : frame.pos ≠ .test → frame.pos ≠ .ended → frame.i < items
  ended : frame.pos = .ended → frame.i = items

structure Inv (params : Params) (s : State) : Prop where
  slots : Slots.Inv params.size s.slots
  ordered : s.read ≤ s.written
  loops : ∀ thread, (s.frames thread).InLoop params.items
  entrada : s.entrada = (s.frames .producer).indexed % params.size
  salida : s.salida = (s.frames .consumer).indexed % params.size
  data : ∀ j, s.read ≤ j → j < s.written → s.buf (j % params.size) = j
  results : ∀ j, j < s.read → s.readerResults j = j
  unread : ∀ cell, s.unread cell = true ↔ ∃ j, s.read ≤ j ∧ j < s.written ∧ j % params.size = cell

/-! ## Steps -/

theorem eq_of_mod_eq {start j k size : Nat} (fromJ : start ≤ j) (toJ : j < start + size)
    (fromK : start ≤ k) (toK : k < start + size) (same : j % size = k % size) : j = k := by
  have lower := sub_mod_eq_zero_of_mod_eq same
  have upper := sub_mod_eq_zero_of_mod_eq same.symm
  rw [mod_eq_of_lt (by omega)] at lower upper
  omega

section

variable {params : Params} {s s' base : State} {thread : Thread} {i : Nat}

theorem slots_setFrame (s : State) (thread : Thread) (frame : Frame) :
    (s.setFrame thread frame).slots =
      { s.slots with
        level := (s.setFrame thread frame).written - (s.setFrame thread frame).read }.goto thread
          (frame.pos.place thread.kind) := by
  have place : (s.setFrame thread frame).slots.place =
      update s.slots.place thread (frame.pos.place thread.kind) :=
    funext (apply_update (fun (other : Thread) (frame : Frame) => frame.pos.place other.kind)
      s.frames thread frame)
  rw [Slots.State.goto, ← place]
  rfl

theorem going {items : Nat} {pos : Pos} (busy : i < items) (notEnded : pos ≠ .ended) :
    Frame.InLoop items ⟨i, pos⟩ :=
  ⟨le_of_lt busy, fun _ _ => busy, fun ended => absurd ended notEnded⟩

structure SameData (s base : State) : Prop where
  frames : base.frames = s.frames
  buf : base.buf = s.buf
  results : base.readerResults = s.readerResults
  unread : base.unread = s.unread

section

variable (inv : Inv params s)
include inv

theorem InLoop_setFrame {frame : Frame} (frames : base.frames = s.frames)
    (loops : frame.InLoop params.items) (other : Thread) :
    ((base.setFrame thread frame).frames other).InLoop params.items := by
  simp only [State.setFrame, frames]
  induction other using update_cases with
  | own => exact loops
  | others other _ => exact inv.loops other

/-- A step that touches no cell, and counts the items as before. -/
theorem Inv.sameItems (thread : Thread) (frame : Frame) (base : State) (same : SameData s base)
    (moves : Slots.Move s.slots (base.slots.goto thread (frame.pos.place thread.kind)))
    (loops : frame.InLoop params.items) (accessed : frame.accessed = (s.frames thread).accessed)
    (entrada : base.entrada = ((base.setFrame thread frame).frames .producer).indexed % params.size)
    (salida : base.salida = ((base.setFrame thread frame).frames .consumer).indexed % params.size) :
    Inv params (base.setFrame thread frame) := by
  have counts : ∀ other,
      ((base.setFrame thread frame).frames other).accessed = (s.frames other).accessed := by
    intro other
    rw [← same.frames] at accessed ⊢
    exact update_congr accessed other
  have written : (base.setFrame thread frame).written = s.written := counts .producer
  have read : (base.setFrame thread frame).read = s.read := counts .consumer
  constructor
  case slots =>
    have level : s.written - s.read = base.slots.level := by
      simp [State.slots, State.written, State.read, same.frames]
    rw [slots_setFrame, written, read, level]
    exact inv.slots.move moves
  case ordered =>
    rw [written, read]
    exact inv.ordered
  case loops => exact InLoop_setFrame inv same.frames loops
  case entrada => exact entrada
  case salida => exact salida
  case data =>
    rw [written, read]
    simp only [State.setFrame, same.buf]
    exact inv.data
  case results =>
    rw [read]
    simp only [State.setFrame, same.results]
    exact inv.results
  case unread =>
    rw [written, read]
    simp only [State.setFrame, same.unread]
    exact inv.unread

/-- The same, where the indices stay as well. -/
theorem Inv.goesOn (thread : Thread) (frame : Frame) (base : State)
    (same : SameData s base) (entrada : base.entrada = s.entrada) (salida : base.salida = s.salida)
    (moves : Slots.Move s.slots (base.slots.goto thread (frame.pos.place thread.kind)))
    (loops : frame.InLoop params.items) (accessed : frame.accessed = (s.frames thread).accessed)
    (indexed : frame.indexed = (s.frames thread).indexed) :
    Inv params (base.setFrame thread frame) := by
  have counts : ∀ other,
      ((base.setFrame thread frame).frames other).indexed = (s.frames other).indexed := by
    intro other
    rw [← same.frames] at indexed ⊢
    exact update_congr indexed other
  apply inv.sameItems thread frame base same moves loops accessed
  · rw [entrada, inv.entrada, counts]
  · rw [salida, inv.salida, counts]

theorem Inv.around (taken : step params s thread = some s')
    (notAccess : (s.frames thread).pos ≠ .access) (notIndex : (s.frames thread).pos ≠ .index) :
    Inv params s' := by
  have loops := inv.loops thread
  have isPlace : s.slots.place thread = (s.frames thread).pos.place thread.kind := rfl
  have goesOn := inv.goesOn thread
  rcases here : s.frames thread with ⟨i, pos⟩
  rw [here] at loops isPlace notAccess notIndex goesOn
  simp only [step, here, State.goto] at taken
  cases pos with
  | access => exact absurd rfl notAccess
  | index => exact absurd rfl notIndex
  | ended => cases taken
  | test =>
    cases taken
    have stays : Slots.Move s.slots (s.slots.goto thread .outside) := .still isPlace
    by_cases more : i < params.items
    · rw [if_pos more]
      exact goesOn ⟨i, .semWait⟩ s ⟨rfl, rfl, rfl, rfl⟩ rfl rfl stays (going more nofun) rfl rfl
    · rw [if_neg more]
      refine goesOn ⟨i, .ended⟩ s ⟨rfl, rfl, rfl, rfl⟩ rfl rfl stays ?_ rfl rfl
      exact ⟨loops.bound, fun _ ends => absurd rfl ends,
        fun _ => le_antisymm loops.bound (Nat.le_of_not_lt more)⟩
  | semWait =>
    have busy := loops.busy nofun nofun
    cases thread with
    | producer =>
      obtain ⟨waited, granted, rfl⟩ := map_eq_some_iff.mp taken
      obtain ⟨positive, rfl⟩ := of_guard granted
      rw [here]
      exact goesOn ⟨i, .lock⟩ { s with vacios := s.vacios - 1 } ⟨rfl, rfl, rfl, rfl⟩ rfl rfl
        (.waitEmpty isPlace positive) (going busy nofun) rfl rfl
    | consumer =>
      obtain ⟨waited, granted, rfl⟩ := map_eq_some_iff.mp taken
      obtain ⟨positive, rfl⟩ := of_guard granted
      rw [here]
      exact goesOn ⟨i, .lock⟩ { s with llenos := s.llenos - 1 } ⟨rfl, rfl, rfl, rfl⟩ rfl rfl
        (.waitFull isPlace positive) (going busy nofun) rfl rfl
  | lock =>
    have busy := loops.busy nofun nofun
    obtain ⟨free, rfl⟩ := of_guard taken
    exact goesOn ⟨i, .access⟩ { s with mutex := some thread } ⟨rfl, rfl, rfl, rfl⟩ rfl rfl
      (.lock isPlace free) (going busy nofun) rfl rfl
  | unlock =>
    have busy := loops.busy nofun nofun
    cases taken
    exact goesOn ⟨i, .semPost⟩ { s with mutex := none } ⟨rfl, rfl, rfl, rfl⟩ rfl rfl
      (.unlock isPlace) (going busy nofun) rfl rfl
  | semPost =>
    have busy := loops.busy nofun nofun
    have again : Frame.InLoop params.items ⟨i + 1, .test⟩ :=
      ⟨busy, fun notTest => absurd rfl notTest, nofun⟩
    cases taken
    cases thread with
    | producer =>
      exact goesOn ⟨i + 1, .test⟩ { s with llenos := s.llenos + 1 } ⟨rfl, rfl, rfl, rfl⟩ rfl rfl
        (.postFull isPlace) again rfl rfl
    | consumer =>
      exact goesOn ⟨i + 1, .test⟩ { s with vacios := s.vacios + 1 } ⟨rfl, rfl, rfl, rfl⟩ rfl rfl
        (.postEmpty isPlace) again rfl rfl

/-- The producer finds a cell that has been read, or never written. -/
theorem Inv.cellFree (pos : (s.frames .producer).pos = .access) :
    s.entrada = s.written % params.size ∧ s.unread s.entrada = false ∧
      s.written < s.read + params.size := by
  have inside : s.slots.place .producer = .inside .put := by
    simp [State.slots, pos, Pos.place, Thread.kind]
  have room : s.written - s.read < params.size := inv.slots.room inside
  have ordered := inv.ordered
  have cell : s.entrada = s.written % params.size := by
    rw [inv.entrada, Frame.indexed, State.written, Frame.accessed, pos]
  refine ⟨cell, ?_, by omega⟩
  cases unread : s.unread s.entrada with
  | false => rfl
  | true =>
    -- the item in that cell would be less than a round away from the next one
    obtain ⟨j, fromRead, toWritten, sameCell⟩ := (inv.unread _).mp unread
    rw [cell] at sameCell
    have same := eq_of_mod_eq fromRead (by omega) ordered (by omega) sameCell
    omega

/-- The consumer finds the cell of the oldest item that has not been read. -/
theorem Inv.cellFull (pos : (s.frames .consumer).pos = .access) :
    s.salida = s.read % params.size ∧ s.read < s.written := by
  have inside : s.slots.place .consumer = .inside .take := by
    simp [State.slots, pos, Pos.place, Thread.kind]
  have stock : 0 < s.written - s.read := inv.slots.stock inside
  refine ⟨?_, by omega⟩
  rw [inv.salida, Frame.indexed, State.read, Frame.accessed, pos]

theorem Inv.window : s.written ≤ s.read + params.size := by
  have bound : s.written - s.read ≤ params.size := inv.slots.bound
  omega

theorem Inv.produce (here : s.frames .producer = ⟨i, .access⟩) :
    Inv params (((producer params).access i s).setFrame .producer ⟨i, .index⟩) := by
  have loops := inv.loops .producer
  obtain ⟨cell, -, room⟩ := inv.cellFree (by rw [here])
  have ordered := inv.ordered
  have written : s.written = i := by rw [State.written, here]; rfl
  rw [here] at loops
  have next : (((producer params).access i s).setFrame .producer ⟨i, .index⟩).written = i + 1 := rfl
  have read : (((producer params).access i s).setFrame .producer ⟨i, .index⟩).read = s.read := rfl
  have isPlace : s.slots.place .producer = .inside .put := by
    simp [State.slots, here, Pos.place, Thread.kind]
  have level : i + 1 - s.read = s.slots.level + 1 := by
    show _ = s.written - s.read + 1
    omega
  constructor
  case slots =>
    rw [slots_setFrame, next, read, level]
    exact inv.slots.move (.put isPlace)
  case ordered =>
    omega
  case loops => exact InLoop_setFrame inv rfl (going (loops.busy nofun nofun) nofun)
  case entrada =>
    show s.entrada = i % params.size
    rw [cell, written]
  case salida => exact inv.salida
  case data =>
    intro j fromRead toWritten
    show update s.buf s.entrada i (j % params.size) = j
    by_cases last : j = i
    · subst last
      rw [cell, written, update_self]
    · have other : j % params.size ≠ s.entrada := by
        rw [cell, written]
        intro same
        exact last (eq_of_mod_eq fromRead (by omega) (by omega) (by omega) same)
      rw [update_of_ne other]
      exact inv.data j fromRead (by omega)
  case results => exact inv.results
  case unread =>
    intro other
    show update s.unread s.entrada true other = true ↔ _
    induction other using update_cases with
    | own =>
      refine iff_of_true rfl ⟨i, by omega, by omega, ?_⟩
      rw [cell, written]
    | others other same =>
      rw [inv.unread]
      constructor
      · intro ⟨j, fromRead, toWritten, isCell⟩
        exact ⟨j, fromRead, by omega, isCell⟩
      · intro ⟨j, fromRead, toWritten, isCell⟩
        refine ⟨j, fromRead, ?_, isCell⟩
        by_contra notBefore
        have last : j = i := by omega
        rw [last] at isCell
        rw [cell, written] at same
        exact same isCell.symm

theorem Inv.consume (here : s.frames .consumer = ⟨i, .access⟩) :
    Inv params (((consumer params).access i s).setFrame .consumer ⟨i, .index⟩) := by
  have loops := inv.loops .consumer
  obtain ⟨cell, stock⟩ := inv.cellFull (by rw [here])
  have window := inv.window
  have read : s.read = i := by rw [State.read, here]; rfl
  rw [here] at loops
  have next : (((consumer params).access i s).setFrame .consumer ⟨i, .index⟩).read = i + 1 := rfl
  have written : (((consumer params).access i s).setFrame .consumer ⟨i, .index⟩).written =
    s.written := rfl
  have isPlace : s.slots.place .consumer = .inside .take := by
    simp [State.slots, here, Pos.place, Thread.kind]
  have level : s.written - (i + 1) = s.slots.level - 1 := by
    show _ = s.written - s.read - 1
    omega
  constructor
  case slots =>
    rw [slots_setFrame, next, written, level]
    exact inv.slots.move (.take isPlace)
  case ordered =>
    omega
  case loops => exact InLoop_setFrame inv rfl (going (loops.busy nofun nofun) nofun)
  case entrada => exact inv.entrada
  case salida =>
    show s.salida = i % params.size
    rw [cell, read]
  case data =>
    intro j fromRead toWritten
    exact inv.data j (by omega) toWritten
  case results =>
    intro j before
    show update s.readerResults i (s.buf s.salida) j = j
    induction j using update_cases with
    | own =>
      rw [cell, read]
      exact inv.data i (by omega) (by omega)
    | others j _ => exact inv.results j (by omega)
  case unread =>
    intro other
    show update s.unread s.salida false other = true ↔ _
    induction other using update_cases with
    | own =>
      refine iff_of_false Bool.false_ne_true ?_
      intro ⟨j, fromRead, toWritten, isCell⟩
      rw [cell] at isCell
      have first : j = s.read :=
        eq_of_mod_eq (by omega) (by omega) (le_refl s.read) (by omega) isCell
      omega
    | others other same =>
      rw [inv.unread]
      constructor
      · intro ⟨j, fromRead, toWritten, isCell⟩
        refine ⟨j, ?_, toWritten, isCell⟩
        by_contra notAfter
        have first : j = s.read := by omega
        rw [first, ← cell] at isCell
        exact same isCell.symm
      · intro ⟨j, fromRead, toWritten, isCell⟩
        exact ⟨j, by omega, toWritten, isCell⟩

end

theorem access_frames (params : Params) (thread : Thread) (i : Nat) (s : State) :
    ((thread.body params).access i s).frames = s.frames := by
  cases thread <;> rfl

theorem index_frames (params : Params) (thread : Thread) (s : State) :
    ((thread.body params).index s).frames = s.frames := by
  cases thread <;> rfl

theorem semPost_frames (params : Params) (thread : Thread) (s : State) :
    ((thread.body params).semPost s).frames = s.frames := by
  cases thread <;> rfl

theorem semWait_frames (granted : (thread.body params).semWait s = some s') :
    s'.frames = s.frames := by
  cases thread with
  | producer =>
    simp only [Thread.body, producer, ite_none_right_eq_some, some.injEq] at granted
    rw [← granted.2]
  | consumer =>
    simp only [Thread.body, consumer, ite_none_right_eq_some, some.injEq] at granted
    rw [← granted.2]

theorem Inv.advance (inv : Inv params s) (here : s.frames thread = ⟨i, .index⟩) :
    Inv params (((thread.body params).index s).setFrame thread ⟨i, .unlock⟩) := by
  have loops := inv.loops thread
  rw [here] at loops
  have isPlace : s.slots.place thread = .changed thread.kind := by
    simp [State.slots, here, Pos.place]
  have inLoop : Frame.InLoop params.items ⟨i, .unlock⟩ := going (loops.busy nofun nofun) nofun
  have stays : Slots.Move s.slots (s.slots.goto thread (.changed thread.kind)) := .still isPlace
  have accessed : Frame.accessed ⟨i, .unlock⟩ = (s.frames thread).accessed := by
    rw [here]
    rfl
  cases thread with
  | producer =>
    apply inv.sameItems .producer ⟨i, .unlock⟩ ((producer params).index s) ⟨rfl, rfl, rfl, rfl⟩
      stays inLoop accessed
    · show (s.entrada + 1) % params.size = (i + 1) % params.size
      rw [inv.entrada, here, mod_add_mod]
      rfl
    · exact inv.salida
  | consumer =>
    apply inv.sameItems .consumer ⟨i, .unlock⟩ ((consumer params).index s) ⟨rfl, rfl, rfl, rfl⟩
      stays inLoop accessed
    · exact inv.entrada
    · show (s.salida + 1) % params.size = (i + 1) % params.size
      rw [inv.salida, here, mod_add_mod]
      rfl

theorem Inv.kept (inv : Inv params s) (taken : step params s thread = some s') :
    Inv params s' := by
  rcases here : s.frames thread with ⟨i, pos⟩
  by_cases accesses : pos = .access
  · subst accesses
    simp only [step, here, State.goto, access_frames] at taken
    cases taken
    cases thread with
    | producer => exact inv.produce here
    | consumer => exact inv.consume here
  by_cases indexes : pos = .index
  · subst indexes
    simp only [step, here, State.goto, index_frames] at taken
    cases taken
    exact inv.advance here
  exact inv.around taken (by rw [here]; exact accesses) (by rw [here]; exact indexes)

theorem Inv.initial (initial : Initial params s) : Inv params s := by
  have written : s.written = 0 := by rw [State.written, initial.frames]; rfl
  have read : s.read = 0 := by rw [State.read, initial.frames]; rfl
  constructor
  case slots =>
    apply Slots.Inv.initial
    · exact initial.vacios
    · exact initial.llenos
    · show s.written - s.read = 0
      rw [written]
      exact Nat.zero_sub _
    · exact initial.mutex
    · intro thread
      simp [State.slots, initial.frames, Pos.place]
  case ordered => rw [written, read]
  case loops =>
    intro thread
    rw [initial.frames]
    exact ⟨zero_le _, fun notTest => absurd rfl notTest, nofun⟩
  case entrada =>
    rw [initial.entrada, initial.frames]
    exact (zero_mod _).symm
  case salida =>
    rw [initial.salida, initial.frames]
    exact (zero_mod _).symm
  case data =>
    omega
  case results =>
    omega
  case unread =>
    intro cell
    rw [initial.unread]
    refine iff_of_false Bool.false_ne_true ?_
    omega

theorem reachable_inv (reachable : (system params).Reachable s) : Inv params s := by
  refine reachable.invariant Inv.initial ?_
  intro state thread next _ inv _ taken
  exact inv.kept taken

/-! ## The items -/

/-- Every item is delivered once and in order: neither index leaves the buffer, the producer
never finds a cell that is still to be read, the consumer never finds one that is not, and in
the end it has read what was written. -/
theorem bounded_buffer_delivers (params : Params) (s : State)
    (reachable : (system params).Reachable s) :
    (s.entrada < params.size ∧ s.salida < params.size) ∧
      ((s.frames .producer).pos = .access → s.unread s.entrada = false) ∧
      ((s.frames .consumer).pos = .access → s.unread s.salida = true) ∧
      ((∀ thread, (s.frames thread).pos = .ended) →
        ∀ i < params.items, s.readerResults i = i) := by
  have inv := reachable_inv reachable
  refine ⟨⟨?_, ?_⟩, ?_, ?_, ?_⟩
  · rw [inv.entrada]
    exact mod_lt _ params.sizePos
  · rw [inv.salida]
    exact mod_lt _ params.sizePos
  · intro pos
    exact (inv.cellFree pos).2.1
  · intro pos
    obtain ⟨cell, stock⟩ := inv.cellFull pos
    exact (inv.unread _).mpr ⟨s.read, le_refl _, stock, cell.symm⟩
  · intro ended i before
    have all := (inv.loops .consumer).ended (ended .consumer)
    have read : s.read = params.items := by
      rw [State.read, Frame.accessed, ended .consumer, all]
    exact inv.results i (by omega)

/-- Two items through a buffer of one cell: the second write waits for the first read. -/
theorem two_items_through_one_cell :
    ∃ s, (system ⟨1, 2, by decide, by decide⟩).Reachable s ∧
      (∀ thread, (s.frames thread).pos = .ended) ∧ ∀ i < 2, s.readerResults i = i := by
  let start : State :=
    { buf := fun _ => 7, entrada := 0, salida := 0, vacios := 1, llenos := 0, mutex := none
      frames := fun _ => ⟨0, .test⟩, readerResults := fun _ => 7, unread := fun _ => false }
  have initial : Initial ⟨1, 2, by decide, by decide⟩ start :=
    ⟨rfl, rfl, rfl, rfl, rfl, fun _ => rfl, fun _ => rfl⟩
  have ran : ∃ s ∈ (system ⟨1, 2, by decide, by decide⟩).runWhen (fun _ _ => True) start
      (List.replicate 8 .producer ++ List.replicate 8 .consumer ++
        List.replicate 7 .producer ++ List.replicate 7 .consumer),
      ∀ thread, (s.frames thread).pos = .ended := by
    decide +kernel
  obtain ⟨final, reachable, ended⟩ := System.ReachableWhen.exists_of_runWhen (.init initial) ran
  obtain ⟨-, -, -, delivered⟩ := bounded_buffer_delivers _ final reachable
  exact ⟨final, reachable, ended, delivered ended⟩

/-! ## Every run comes to its end -/

/-- A thread that cannot go on has ended, or waits on a semaphore or for the mutex. -/
theorem blocked_cases (stuck : step params s thread = none) :
    (s.frames thread).pos = .ended ∨
      ((s.frames thread).pos = .semWait ∧ (thread.body params).semWait s = none) ∨
      ((s.frames thread).pos = .lock ∧ s.mutex ≠ none) := by
  cases pos : (s.frames thread).pos with
  | ended => exact .inl rfl
  | semWait =>
    simp only [step, pos, map_eq_none_iff] at stuck
    exact .inr (.inl ⟨rfl, stuck⟩)
  | lock =>
    simp only [step, pos] at stuck
    split at stuck
    case isTrue => cases stuck
    case isFalse held => exact .inr (.inr ⟨rfl, held⟩)
  | test => simp only [step, pos, reduceCtorEq] at stuck
  | access => simp only [step, pos, reduceCtorEq] at stuck
  | index => simp only [step, pos, reduceCtorEq] at stuck
  | unlock => simp only [step, pos, reduceCtorEq] at stuck
  | semPost => simp only [step, pos, reduceCtorEq] at stuck

theorem Inv.mutexFree (inv : Inv params s) (stuck : ∀ thread, step params s thread = none) :
    s.mutex = none := by
  cases mutex : s.mutex with
  | none => rfl
  | some holder =>
    have holds : ((s.frames holder).pos.place holder.kind).holds = true :=
      (inv.slots.holder holder).mpr mutex
    obtain ended | ⟨waits, -⟩ | ⟨locks, -⟩ := blocked_cases (stuck holder)
    · rw [ended] at holds
      cases holds
    · rw [waits] at holds
      cases holds
    · rw [locks] at holds
      cases holds

theorem Inv.ended_of_stuck (inv : Inv params s) (stuck : ∀ thread, step params s thread = none)
    (thread : Thread) : (s.frames thread).pos = .ended := by
  have free := inv.mutexFree stuck
  have blocked : ∀ thread, (s.frames thread).pos = .ended ∨
      ((s.frames thread).pos = .semWait ∧ (thread.body params).semWait s = none) := by
    intro thread
    obtain ended | waits | ⟨-, held⟩ := blocked_cases (stuck thread)
    · exact .inl ended
    · exact .inr waits
    · exact absurd free held
  have outside : ∀ thread, s.slots.place thread = .outside := by
    intro thread
    obtain ended | ⟨waits, -⟩ := blocked thread
    · simp [State.slots, ended, Pos.place]
    · simp [State.slots, waits, Pos.place]
  obtain ⟨cells, level⟩ : s.vacios + s.llenos = params.size ∧ s.written - s.read = s.llenos :=
    inv.slots.quiet outside
  have ordered := inv.ordered
  have sizePos := params.sizePos
  -- the counter of whoever waits is below `items`, that of whoever has ended is `items`
  have written : s.written = (s.frames .producer).i := by
    obtain ended | ⟨waits, -⟩ := blocked .producer
    · rw [State.written, Frame.accessed, ended]
    · rw [State.written, Frame.accessed, waits]
  have read : s.read = (s.frames .consumer).i := by
    obtain ended | ⟨waits, -⟩ := blocked .consumer
    · rw [State.read, Frame.accessed, ended]
    · rw [State.read, Frame.accessed, waits]
  have waits_lt : ∀ thread, (s.frames thread).pos = .semWait →
      (s.frames thread).i < params.items := by
    intro thread waits
    exact (inv.loops thread).busy (by rw [waits]; nofun) (by rw [waits]; nofun)
  have noCell : (producer params).semWait s = none → s.vacios = 0 := by
    simp only [producer, ite_eq_right_iff, reduceCtorEq, imp_false]
    omega
  have noItem : (consumer params).semWait s = none → s.llenos = 0 := by
    simp only [consumer, ite_eq_right_iff, reduceCtorEq, imp_false]
    omega
  obtain ended | ⟨waits, full⟩ := blocked .producer <;>
    obtain ended' | ⟨waits', empty⟩ := blocked .consumer
  · cases thread with
    | producer => exact ended
    | consumer => exact ended'
  · have all := (inv.loops .producer).ended ended
    have some := waits_lt .consumer waits'
    have none := noItem empty
    omega
  · have all := (inv.loops .consumer).ended ended'
    have some := waits_lt .producer waits
    omega
  · have none := noItem empty
    have none' := noCell full
    omega

/-- No deadlock: a thread can go on until both have ended. -/
theorem not_stuck (reachable : (system params).Reachable s)
    (running : (s.frames thread).pos ≠ .ended) : ∃ other, step params s other ≠ none := by
  by_contra none
  have stuck : ∀ other, step params s other = Option.none := by
    intro other
    by_contra goes
    exact none ⟨other, goes⟩
  exact running ((reachable_inv reachable).ended_of_stuck stuck thread)

def fresh : State :=
  { buf := fun _ => 0, entrada := 0, salida := 0, vacios := 1, llenos := 0, mutex := none,
    frames := fun _ => ⟨0, .test⟩, readerResults := fun _ => 0, unread := fun _ => false }

/-- With a buffer of one cell the producer waits for `vacios` before its second item. -/
theorem producer_waits_for_cell : ∃ s, (system ⟨1, 2, by decide, by decide⟩).Reachable s ∧
    (s.frames .producer).pos = .semWait ∧ s.vacios = 0 ∧
      ∃ other, step ⟨1, 2, by decide, by decide⟩ s other ≠ none := by
  have ran : ∃ s ∈ (system ⟨1, 2, by decide, by decide⟩).runWhen (fun _ _ => True) fresh
      (List.replicate 8 .producer), (s.frames .producer).pos = .semWait ∧ s.vacios = 0 := by
    decide
  have initial : Initial ⟨1, 2, by decide, by decide⟩ fresh :=
    ⟨rfl, rfl, rfl, rfl, rfl, fun _ => rfl, fun _ => rfl⟩
  obtain ⟨s, reachable, waits, full⟩ :=
    System.ReachableWhen.exists_of_runWhen (.init initial) ran
  exact ⟨s, reachable, waits, full, not_stuck reachable (by rw [waits]; nofun)⟩

/-- The steps that a thread has still to take. -/
def Frame.left (items : Nat) (frame : Frame) : Nat :=
  match frame.pos with
  | .test => 7 * (items - frame.i) + 1
  | .semWait => 7 * (items - frame.i)
  | .lock => 7 * (items - frame.i) - 1
  | .access => 7 * (items - frame.i) - 2
  | .index => 7 * (items - frame.i) - 3
  | .unlock => 7 * (items - frame.i) - 4
  | .semPost => 7 * (items - frame.i) - 5
  | .ended => 0

def State.left (params : Params) (s : State) : Nat :=
  ∑ thread, (s.frames thread).left params.items

theorem left_setFrame (frames : base.frames = s.frames) {frame : Frame}
    (less : frame.left params.items < (s.frames thread).left params.items) :
    (base.setFrame thread frame).left params < s.left params := by
  have changed := sum_update (Frame.left params.items) base.frames thread frame
  rw [frames] at changed
  simp only [State.left, State.setFrame, frames]
  omega

theorem step_left (inv : Inv params s) (taken : step params s thread = some s') :
    s'.left params < s.left params := by
  have loops := inv.loops thread
  have left := fun base frames frame =>
    @left_setFrame params s base thread frames frame
  rcases here : s.frames thread with ⟨i, pos⟩
  rw [here] at loops left
  simp only [step, here, State.goto] at taken
  cases pos with
  | ended => cases taken
  | test =>
    cases taken
    by_cases more : i < params.items
    · rw [if_pos more]
      exact left s rfl ⟨i, .semWait⟩ (by simp only [Frame.left]; omega)
    · rw [if_neg more]
      exact left s rfl ⟨i, .ended⟩ (by simp only [Frame.left]; omega)
  | semWait =>
    have busy := loops.busy nofun nofun
    obtain ⟨waited, granted, rfl⟩ := map_eq_some_iff.mp taken
    have frames := semWait_frames granted
    rw [frames, here]
    exact left waited frames ⟨i, .lock⟩ (by simp only [Frame.left] at *; omega)
  | lock =>
    have busy := loops.busy nofun nofun
    obtain ⟨free, rfl⟩ := of_guard taken
    exact left { s with mutex := some thread } rfl ⟨i, .access⟩
      (by simp only [Frame.left] at *; omega)
  | access =>
    have busy := loops.busy nofun nofun
    cases taken
    rw [access_frames, here]
    exact left _ (access_frames params thread i s) ⟨i, .index⟩
      (by simp only [Frame.left] at *; omega)
  | index =>
    have busy := loops.busy nofun nofun
    cases taken
    rw [index_frames, here]
    exact left _ (index_frames params thread s) ⟨i, .unlock⟩
      (by simp only [Frame.left] at *; omega)
  | unlock =>
    have busy := loops.busy nofun nofun
    cases taken
    exact left { s with mutex := none } rfl ⟨i, .semPost⟩
      (by simp only [Frame.left] at *; omega)
  | semPost =>
    have busy := loops.busy nofun nofun
    cases taken
    exact left _ (semPost_frames params thread s) ⟨i + 1, .test⟩
      (by simp only [Frame.left] at *; omega)

/-- Seven steps an item for each thread, and one more to leave the loop. -/
theorem run_bounded (run : (system params).Run (fun _ _ => True)) :
    run.length ≤ 2 * (7 * params.items + 1) := by
  have spent : ∀ k, k ≤ run.length →
      k + (run.state k).left params ≤ (run.state 0).left params := by
    intro k
    induction k with
    | zero =>
      intro _
      exact le_of_eq (zero_add _)
    | succ k ih =>
      intro bound
      have inv := reachable_inv (run.reachable (k := k) (by omega))
      have less := step_left inv (run.taken k (by omega))
      omega
  have all := spent run.length (le_refl _)
  have initial : (run.state 0).left params = 2 * (7 * params.items + 1) := by
    simp only [State.left, run.start.frames, Finset.sum_const]
    rfl
  omega

end

end Laboratorio.Lab05.Buf
