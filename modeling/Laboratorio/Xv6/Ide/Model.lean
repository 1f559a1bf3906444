import Laboratorio.Lib.LinkedList
import Laboratorio.Lib.System
import Laboratorio.Xv6.Param

/-! # The disk driver (`ide.c`)

Any number of processes call `iderw` on buffers whose sleep locks they hold, and the drive raises
interrupts that `ideintr` handles.  Each `acquire` and `release` of `idelock`, each assignment
made under it, each round of the walk to the end of the queue and each `idestart` is one step.
`sleep(b, &idelock)` releases the lock and goes to sleep in one step; `wakeup` and `kill` end the
sleep.

The drive has at most one command.  It carries it out at any time after the start, with or without
an error, and raises an interrupt then (`finish`); spurious ones are raised while the queue is
empty.  An interrupt that is raised waits until `ideintr` gets `idelock`.  A command is outstanding
until `ideintr` has completed its buffer.

`requested`, `started` and `completed` are history variables: the buffers passed to `iderw`, in the
order in which the calls got `idelock`, those that `idestart` has started and those that `ideintr`
has completed.  `ticket` is the place of a call in `requested`.
-/

namespace Laboratorio.Xv6.Ide

open Laboratorio.Lib Laboratorio.Lib.LinkedList Function

abbrev Pid := Nat

/-- A pointer to a buffer that is not null. -/
abbrev BufId := Nat

structure Buf where
  /-- `B_VALID` -/
  valid : Bool
  /-- `B_DIRTY` -/
  dirty : Bool
  dev : Nat
  blockno : Nat
  data : Block
  qnext : Option BufId
  /-- Who holds the sleep lock. -/
  owner : Option Pid

/-- `(b->flags & (B_VALID|B_DIRTY)) == B_VALID` -/
def Buf.synced (buf : Buf) : Bool := buf.valid && !buf.dirty

/-! ## The drive -/

inductive Command
  | read (dev sector : Nat)
  | write (dev sector : Nat) (data : Block)

structure Drive where
  disk : Nat → Nat → Block
  command : Option Command
  /-- The command has been carried out; whether `IDE_DF` or `IDE_ERR` is set. -/
  done : Option Bool
  /-- What `insl` reads. -/
  buffer : Block

namespace Drive

def busy (drive : Drive) : Bool := drive.command.isSome && drive.done.isNone

/-- What the drive does for a command. -/
def carryOut (drive : Drive) (error : Bool) : Command → Drive
  | .read dev sector =>
    { drive with
      done := some error
      buffer := if error then drive.buffer else drive.disk dev sector }
  | .write dev sector data =>
    { drive with
      done := some error
      disk := if error then drive.disk
        else update drive.disk dev (update (drive.disk dev) sector data) }

def start (drive : Drive) (command : Command) : Drive :=
  { drive with command := some command, done := none }

/-- A command that has been carried out is over when its buffer is completed. -/
def served (drive : Drive) : Drive :=
  if drive.done.isSome then { drive with command := none, done := none } else drive

end Drive

/-- The command that `idestart` writes to the ports.  A block is one sector. -/
def commandFor (buf : Buf) : Command :=
  if buf.dirty then .write (buf.dev % 2) buf.blockno buf.data
  else .read (buf.dev % 2) buf.blockno

/-! ## The kernel -/

/-- Positions inside `iderw`. -/
inductive IderwAt
  | check
  | acquire
  | clearNext
  | walk (pp : Place BufId)
  | start
  | test
  | asleep
  | reacquire
  | release
  deriving DecidableEq

inductive Frame
  | idle
  | iderw (b : BufId) (ticket : Nat) (pos : IderwAt)
  deriving DecidableEq

/-- The end of a sleep on buffer `b`. -/
def Frame.woken (b : BufId) : Frame → Frame
  | .iderw c ticket .asleep =>
    if c = b then .iderw c ticket .reacquire else .iderw c ticket .asleep
  | frame => frame

/-- Positions inside `ideintr`, once it has `idelock`. -/
inductive IntrAt
  | look
  | read (b : BufId)
  | complete (b : BufId)
  | wakeup (b : BufId)
  | startNext
  | release
  deriving DecidableEq

inductive Holder
  | proc (p : Pid)
  | intr
  deriving DecidableEq

inductive Panic
  | bufNotLocked
  | nothingToDo
  | disk1NotPresent
  | incorrectBlockno
  deriving DecidableEq

structure Kernel where
  bufs : BufId → Buf
  idequeue : Option BufId
  /-- `idelock` -/
  lock : Option Holder
  havedisk1 : Bool
  procs : Pid → Frame
  intr : Option IntrAt
  drive : Drive
  /-- The interrupts that `ideintr` has not been entered for. -/
  raised : Nat
  panic : Option Panic
  requested : List BufId
  started : List BufId
  completed : List BufId

namespace Kernel

variable (k : Kernel)

def goto (p : Pid) (frame : Frame) : Kernel :=
  { k with procs := update k.procs p frame }

def setBuf (b : BufId) (buf : Buf) : Kernel :=
  { k with bufs := update k.bufs b buf }

def qnext (b : BufId) : Option BufId := (k.bufs b).qnext

def fail (reason : Panic) : Kernel :=
  { k with panic := some reason }

/-- `*pp` -/
def deref (pp : Place BufId) : Option BufId := pp.deref k.idequeue k.qnext

/-- `*pp = b;` -/
def store (pp : Place BufId) (b : BufId) : Kernel :=
  match pp with
  | .head => { k with idequeue := some b }
  | .node x => k.setBuf x { k.bufs x with qnext := some b }

/-- The ports have been written. -/
def issue (b : BufId) : Kernel :=
  { k with
    drive := k.drive.start (commandFor (k.bufs b))
    started := k.started ++ [b] }

/-- `idestart` and what its caller does next.  `idewait(0)` spins while the drive is busy. -/
def idestart (b : BufId) (next : Kernel → Kernel) : Option Kernel :=
  if fssize ≤ (k.bufs b).blockno then some (k.fail .incorrectBlockno)
  else if k.drive.busy then none
  else some (next (k.issue b))

/-! ### `iderw` -/

def check (p : Pid) (b : BufId) (ticket : Nat) : Kernel :=
  if (k.bufs b).owner ≠ some p then k.fail .bufNotLocked
  else if (k.bufs b).synced then k.fail .nothingToDo
  else if (k.bufs b).dev ≠ 0 ∧ k.havedisk1 = false then k.fail .disk1NotPresent
  else k.goto p (.iderw b ticket .acquire)

def enter (p : Pid) (b : BufId) : Kernel :=
  { k with
    lock := some (.proc p)
    requested := k.requested ++ [b] }.goto p (.iderw b k.requested.length .clearNext)

/-- `b->qnext = 0;` -/
def clearNext (p : Pid) (b : BufId) (ticket : Nat) : Kernel :=
  (k.setBuf b { k.bufs b with qnext := none }).goto p (.iderw b ticket (.walk .head))

/-- The test of the `for` loop, and its round or the assignment after it. -/
def walk (p : Pid) (b : BufId) (ticket : Nat) (pp : Place BufId) : Kernel :=
  match k.deref pp with
  | some x => k.goto p (.iderw b ticket (.walk (.node x)))
  | none => (k.store pp b).goto p (.iderw b ticket .start)

def startFirst (p : Pid) (b : BufId) (ticket : Nat) : Option Kernel :=
  if k.idequeue = some b then k.idestart b fun k => k.goto p (.iderw b ticket .test)
  else some (k.goto p (.iderw b ticket .test))

/-- The test of the `while` loop, and `sleep`. -/
def test (p : Pid) (b : BufId) (ticket : Nat) : Kernel :=
  if (k.bufs b).synced then k.goto p (.iderw b ticket .release)
  else { k with lock := none }.goto p (.iderw b ticket .asleep)

def stepIderw (p : Pid) (b : BufId) (ticket : Nat) : IderwAt → Option Kernel
  | .check => some (k.check p b ticket)
  | .acquire => if k.lock = none then some (k.enter p b) else none
  | .clearNext => some (k.clearNext p b ticket)
  | .walk pp => some (k.walk p b ticket pp)
  | .start => k.startFirst p b ticket
  | .test => some (k.test p b ticket)
  | .asleep => none
  | .reacquire =>
    if k.lock = none then
      some ({ k with lock := some (.proc p) }.goto p (.iderw b ticket .test))
    else none
  | .release => some ({ k with lock := none }.goto p .idle)

/-! ### `ideintr` -/

def handler (pos : IntrAt) : Kernel :=
  { k with intr := some pos }

/-- `if((b = idequeue) == 0) …; idequeue = b->qnext;` -/
def look : Kernel :=
  match k.idequeue with
  | none => k.handler .release
  | some b => { k with idequeue := k.qnext b }.handler (.read b)

/-- Reads the data if needed; `idewait(1)` spins while the drive is busy. -/
def readData (b : BufId) : Option Kernel :=
  if (k.bufs b).dirty then some (k.handler (.complete b))
  else if k.drive.busy then none
  else if k.drive.done = some true then some (k.handler (.complete b))
  else some ((k.setBuf b { k.bufs b with data := k.drive.buffer }).handler (.complete b))

def complete (b : BufId) : Kernel :=
  { k.setBuf b { k.bufs b with valid := true, dirty := false } with
    completed := k.completed ++ [b]
    drive := k.drive.served }.handler (.wakeup b)

def wakeup (b : BufId) : Kernel :=
  { k with procs := fun p => (k.procs p).woken b }.handler .startNext

def startNext : Option Kernel :=
  match k.idequeue with
  | none => some (k.handler .release)
  | some b => k.idestart b fun k => k.handler .release

def stepIntr : IntrAt → Option Kernel
  | .look => some k.look
  | .read b => k.readData b
  | .complete b => some (k.complete b)
  | .wakeup b => some (k.wakeup b)
  | .startNext => k.startNext
  | .release => some { k with lock := none, intr := none }

end Kernel

/-! ## The system -/

inductive Label
  /-- `acquiresleep` and `releasesleep` of a buffer's lock. -/
  | lockBuf (p : Pid) (b : BufId)
  | unlockBuf (p : Pid) (b : BufId)
  /-- The owner of a buffer sets its fields. -/
  | prepare (p : Pid) (b : BufId) (valid dirty : Bool) (dev blockno : Nat) (data : Block)
  | call (p : Pid) (b : BufId)
  | run (p : Pid)
  | kill (p : Pid)
  | finish (error : Bool)
  | spurious
  /-- `ideintr` is entered and gets `idelock`. -/
  | interrupt
  | handler

def stepRunning (k : Kernel) : Label → Option Kernel
  | .lockBuf p b =>
    if k.procs p = .idle ∧ (k.bufs b).owner = none then
      some (k.setBuf b { k.bufs b with owner := some p })
    else none
  | .unlockBuf p b =>
    if k.procs p = .idle ∧ (k.bufs b).owner = some p then
      some (k.setBuf b { k.bufs b with owner := none })
    else none
  | .prepare p b valid dirty dev blockno data =>
    if k.procs p = .idle ∧ (k.bufs b).owner = some p then
      some (k.setBuf b { k.bufs b with valid, dirty, dev, blockno, data })
    else none
  | .call p b => if k.procs p = .idle then some (k.goto p (.iderw b 0 .check)) else none
  | .run p =>
    match k.procs p with
    | .idle => none
    | .iderw b ticket pos => k.stepIderw p b ticket pos
  | .kill p =>
    match k.procs p with
    | .iderw b ticket .asleep => some (k.goto p (.iderw b ticket .reacquire))
    | _ => none
  | .finish error =>
    match k.drive.command, k.drive.done with
    | some command, none =>
      some { k with drive := k.drive.carryOut error command, raised := k.raised + 1 }
    | _, _ => none
  | .spurious => if k.idequeue = none then some { k with raised := k.raised + 1 } else none
  | .interrupt =>
    if k.lock = none ∧ 0 < k.raised then
      some { k with lock := some .intr, intr := some .look, raised := k.raised - 1 }
    else none
  | .handler =>
    match k.intr with
    | none => none
    | some pos => k.stepIntr pos

/-- Nothing runs after a panic. -/
def step (k : Kernel) (label : Label) : Option Kernel :=
  if k.panic.isSome then none else stepRunning k label

/-- The driver after `ideinit`; nobody has a buffer yet. -/
structure Initial (k : Kernel) : Prop where
  idequeue : k.idequeue = none
  lock : k.lock = none
  procs : ∀ p, k.procs p = .idle
  owner : ∀ b, (k.bufs b).owner = none
  intr : k.intr = none
  command : k.drive.command = none
  done : k.drive.done = none
  raised : k.raised = 0
  requested : k.requested = []
  started : k.started = []
  completed : k.completed = []

def system : System Kernel Label where
  init := Initial
  step := step

/-- No interrupt is waiting when `iderw` appends to the empty queue. -/
def Prompt (k : Kernel) : Label → Prop
  | .run p =>
    match k.procs p with
    | .iderw _ _ (.walk .head) => k.idequeue = none → k.raised = 0
    | _ => True
  | _ => True

instance (k : Kernel) (label : Label) : Decidable (Prompt k label) := by
  unfold Prompt
  split
  · split <;> infer_instance
  · infer_instance

end Laboratorio.Xv6.Ide
