import Laboratorio.Lib.System
import Laboratorio.Lib.Ring
import Laboratorio.Xv6.Sleep

/-! # The pipe of `pipe.c` with `sleep`, `wakeup` and `kill` of `proc.c`

Any number of processes run `pipewrite`, `piperead` and `pipeclose` on one pipe.
Each assignment made under `p->lock`, each `acquire` and `release` of `p->lock`
or `ptable.lock` and each `wakeup` is one step of one process, and `kill` may come
between any two of them.

`sleep(chan, lk)` is taken apart as in the source: `ptable.lock` is acquired, only
then is `p->lock` released, and the process becomes `SLEEPING` after that
(`SleepAt`).  A `RUNNING` process and a `RUNNABLE` one are not told apart: the
scheduler may let any process that is not `SLEEPING` take its next step.

`accepted` and `handed` are history variables: the bytes stored by writers and the
bytes copied out by readers, in lock order.
-/

namespace Laboratorio.Xv6.Pipes

open Laboratorio.Lib

def pipeSize : Nat := 512

instance : NeZero pipeSize := ⟨by decide⟩

abbrev Pid := Nat

/-- The two addresses processes sleep on: `&p->nread` and `&p->nwrite`. -/
inductive Chan where
  | nread | nwrite
  deriving DecidableEq, Repr

/-- Positions inside `sleep(chan, &p->lock)`. -/
inductive SleepAt where
  | acquirePtable | releaseLock | goToSleep | asleep
  deriving DecidableEq, Repr

/-- Positions inside `pipewrite`; `loop` is the test of the `for` loop and of the
`while` loop in it. -/
inductive WriteAt where
  | acquire | loop | wakeupReaders | sleep (pos : SleepAt) | finalWakeup | release
  deriving DecidableEq, Repr

inductive ReadAt where
  | acquire | whileEmpty | sleep (pos : SleepAt) | copy | wakeupWriters | release
  deriving DecidableEq, Repr

inductive CloseAt where
  | acquire | setClosed | wakeup | release
  deriving DecidableEq, Repr

/-- The call a process is in, with its arguments and locals.  `addr` is the
buffer of a write and `i` its loop counter; a read keeps in `addr` the bytes it
has copied so far, so its counter is the length of that list. -/
inductive Frame where
  | idle
  | pipewrite (addr : List UInt8) (i : Nat) (pos : WriteAt)
  | piperead (n : Nat) (addr : List UInt8) (pos : ReadAt)
  | pipeclose (writable : Bool) (pos : CloseAt)
  deriving DecidableEq, Repr

structure Proc extends Sleeper Chan where
  frame : Frame
  killed : Bool

structure Pipe where
  lock : Option Pid
  data : Fin pipeSize → UInt8
  nread : UInt32
  nwrite : UInt32
  readopen : Bool
  writeopen : Bool

structure Kernel where
  pipe : Pipe
  ptableLock : Option Pid
  procs : Pid → Proc
  freed : Bool
  accepted : List UInt8
  handed : List UInt8

def Pipe.empty (pipe : Pipe) : Bool :=
  pipe.nread == pipe.nwrite

def Pipe.full (pipe : Pipe) : Bool :=
  pipe.nwrite == pipe.nread + UInt32.ofNat pipeSize

namespace Kernel

def setProc (kernel : Kernel) (pid : Pid) (proc : Proc) : Kernel :=
  { kernel with procs := Function.update kernel.procs pid proc }

def goto (kernel : Kernel) (pid : Pid) (frame : Frame) : Kernel :=
  kernel.setProc pid { kernel.procs pid with frame := frame }

def setLock (kernel : Kernel) (holder : Option Pid) : Kernel :=
  { kernel with pipe := { kernel.pipe with lock := holder } }

/-- `acquire(&p->lock)`: no step while another process holds it. -/
def acquire (kernel : Kernel) (pid : Pid) (frame : Frame) : Option Kernel :=
  if kernel.pipe.lock = none then some ((kernel.setLock (some pid)).goto pid frame) else none

def release (kernel : Kernel) (pid : Pid) (frame : Frame) : Kernel :=
  (kernel.setLock none).goto pid frame

def wakeup1 (kernel : Kernel) (chan : Chan) : Kernel :=
  { kernel with procs := fun pid =>
      { kernel.procs pid with toSleeper := (kernel.procs pid).wakeup1 (some chan) } }

def wakeup (kernel : Kernel) (pid : Pid) (chan : Chan) (frame : Frame) : Option Kernel :=
  if kernel.ptableLock = none then some ((kernel.wakeup1 chan).goto pid frame) else none

def kill (kernel : Kernel) (pid : Pid) : Option Kernel :=
  if kernel.ptableLock = none then
    some (kernel.setProc pid
      { kernel.procs pid with toSleeper := (kernel.procs pid).kill, killed := true })
  else none

/-- One step of `sleep(chan, &p->lock)`.  `at_ pos` is the frame of the caller with
the sleep at position `pos`, `back` the position that reacquires `p->lock`. -/
def sleep (kernel : Kernel) (pid : Pid) (chan : Chan) (at_ : SleepAt → Frame) (back : Frame) :
    SleepAt → Option Kernel
  | .acquirePtable =>
    if kernel.ptableLock = none then
      some ({ kernel with ptableLock := some pid }.goto pid (at_ .releaseLock))
    else none
  | .releaseLock => some (kernel.release pid (at_ .goToSleep))
  | .goToSleep =>
    some ({ kernel with ptableLock := none }.setProc pid
      { kernel.procs pid with toSleeper := .sleep chan, frame := at_ .asleep })
  | .asleep => some (kernel.setProc pid { kernel.procs pid with frame := back, chan := none })

/-- `p->data[p->nwrite++ % PIPESIZE] = addr[i]` -/
def store (kernel : Kernel) (byte : UInt8) : Kernel :=
  { kernel with
    pipe := { kernel.pipe with
      data := Function.update kernel.pipe.data (Ring.slot pipeSize kernel.pipe.nwrite) byte
      nwrite := kernel.pipe.nwrite + 1 }
    accepted := kernel.accepted ++ [byte] }

/-- `addr[i] = p->data[p->nread++ % PIPESIZE]` -/
def take (kernel : Kernel) : UInt8 × Kernel :=
  let byte := kernel.pipe.data (Ring.slot pipeSize kernel.pipe.nread)
  (byte, { kernel with
    pipe := { kernel.pipe with nread := kernel.pipe.nread + 1 }
    handed := kernel.handed ++ [byte] })

def pipewrite (kernel : Kernel) (pid : Pid) (addr : List UInt8) (i : Nat) :
    WriteAt → Option Kernel
  | .acquire => kernel.acquire pid (.pipewrite addr i .loop)
  | .loop =>
    match addr[i]? with
    | none => some (kernel.goto pid (.pipewrite addr i .finalWakeup))
    | some byte =>
      if kernel.pipe.full then
        if kernel.pipe.readopen = false ∨ (kernel.procs pid).killed then
          some (kernel.release pid .idle)
        else some (kernel.goto pid (.pipewrite addr i .wakeupReaders))
      else some ((kernel.store byte).goto pid (.pipewrite addr (i + 1) .loop))
  | .wakeupReaders => kernel.wakeup pid .nread (.pipewrite addr i (.sleep .acquirePtable))
  | .sleep pos =>
    kernel.sleep pid .nwrite (fun pos => .pipewrite addr i (.sleep pos))
      (.pipewrite addr i .acquire) pos
  | .finalWakeup => kernel.wakeup pid .nread (.pipewrite addr i .release)
  | .release => some (kernel.release pid .idle)

def piperead (kernel : Kernel) (pid : Pid) (n : Nat) (addr : List UInt8) :
    ReadAt → Option Kernel
  | .acquire => kernel.acquire pid (.piperead n addr .whileEmpty)
  | .whileEmpty =>
    if kernel.pipe.empty && kernel.pipe.writeopen then
      if (kernel.procs pid).killed then some (kernel.release pid .idle)
      else some (kernel.goto pid (.piperead n addr (.sleep .acquirePtable)))
    else some (kernel.goto pid (.piperead n addr .copy))
  | .sleep pos =>
    kernel.sleep pid .nread (fun pos => .piperead n addr (.sleep pos))
      (.piperead n addr .acquire) pos
  | .copy =>
    if addr.length < n then
      if kernel.pipe.empty then some (kernel.goto pid (.piperead n addr .wakeupWriters))
      else
        let (byte, taken) := kernel.take
        some (taken.goto pid (.piperead n (addr ++ [byte]) .copy))
    else some (kernel.goto pid (.piperead n addr .wakeupWriters))
  | .wakeupWriters => kernel.wakeup pid .nwrite (.piperead n addr .release)
  | .release => some (kernel.release pid .idle)

def pipeclose (kernel : Kernel) (pid : Pid) (writable : Bool) : CloseAt → Option Kernel
  | .acquire => kernel.acquire pid (.pipeclose writable .setClosed)
  | .setClosed =>
    let pipe := if writable then { kernel.pipe with writeopen := false }
      else { kernel.pipe with readopen := false }
    some ({ kernel with pipe := pipe }.goto pid (.pipeclose writable .wakeup))
  | .wakeup =>
    kernel.wakeup pid (if writable then .nread else .nwrite) (.pipeclose writable .release)
  | .release =>
    let released := kernel.release pid .idle
    if kernel.pipe.readopen = false ∧ kernel.pipe.writeopen = false then
      some { released with freed := true }
    else some released

/-- The next step of `pid`, by its frame. -/
def advance (kernel : Kernel) (pid : Pid) : Option Kernel :=
  match (kernel.procs pid).frame with
  | .idle => none
  | .pipewrite addr i pos => kernel.pipewrite pid addr i pos
  | .piperead n addr pos => kernel.piperead pid n addr pos
  | .pipeclose writable pos => kernel.pipeclose pid writable pos

end Kernel

inductive Call where
  | pipewrite (addr : List UInt8)
  | piperead (n : Nat)
  | pipeclose (writable : Bool)
  deriving DecidableEq, Repr

def Call.frame : Call → Frame
  | .pipewrite addr => .pipewrite addr 0 .acquire
  | .piperead n => .piperead n [] .acquire
  | .pipeclose writable => .pipeclose writable .acquire

inductive Label where
  | call (pid : Pid) (call : Call)
  | run (pid : Pid)
  | kill (pid : Pid)
  deriving DecidableEq, Repr

/-- No step touches the pipe once `pipeclose` has freed its page, and a
`SLEEPING` process takes none. -/
def step (kernel : Kernel) : Label → Option Kernel
  | .call pid call =>
    if (kernel.procs pid).frame = .idle ∧ (kernel.procs pid).state = .runnable then
      some (kernel.goto pid call.frame)
    else none
  | .run pid =>
    if kernel.freed ∨ (kernel.procs pid).state ≠ .runnable then none else kernel.advance pid
  | .kill pid => kernel.kill pid

/-- The state `pipealloc` leaves: the page comes from `kalloc` with any contents. -/
structure Initial (kernel : Kernel) : Prop where
  lock : kernel.pipe.lock = none
  ptableLock : kernel.ptableLock = none
  nread : kernel.pipe.nread = 0
  nwrite : kernel.pipe.nwrite = 0
  readopen : kernel.pipe.readopen = true
  writeopen : kernel.pipe.writeopen = true
  live : kernel.freed = false
  procs : ∀ pid, (kernel.procs pid).frame = .idle ∧ (kernel.procs pid).state = .runnable
  accepted : kernel.accepted = []
  handed : kernel.handed = []

def system : System Kernel Label where
  init := Initial
  step := step

def fresh : Kernel where
  pipe := ⟨none, fun _ => 0, 0, 0, true, true⟩
  ptableLock := none
  procs _ := ⟨⟨.runnable, none⟩, .idle, false⟩
  freed := false
  accepted := []
  handed := []

theorem fresh_initial : Initial fresh :=
  ⟨rfl, rfl, rfl, rfl, rfl, rfl, rfl, fun _ => ⟨rfl, rfl⟩, rfl, rfl⟩

end Laboratorio.Xv6.Pipes
