import Laboratorio.Lib.System
import Laboratorio.Xv6.Log.Model

/-! # Operations on the log

`begin_op`, `log_write` and `end_op` of any number of processes.  A step is a critical
section of `log.lock`, or a part of the code that touches `log` without it: the checks
at the head of `log_write`, and `commit`, which runs after `end_op` has released the
lock.  `sleep(&log, &log.lock)` is one step with the section that calls it.

An operation keeps the list of the distinct blocks it has logged, in `inOp`; the code
has no such list, and no step but the bound on operations reads it.
-/

namespace Laboratorio.Xv6.Logs

open Laboratorio.Lib

/-- Where a process is in `log.c`. -/
inductive Frame where
  | idle
  | beginOp
  | asleep
  | inOp (logged : List Nat)
  | logWrite (logged : List Nat) (blockno : Nat)
  | commit
  | committed
  deriving DecidableEq, Repr

inductive Panic where
  | tooBigATransaction
  | logWriteOutsideOfTrans
  | logCommitting
  deriving DecidableEq, Repr

/-- `struct log`, the buffers, and the place of each of `n` processes. -/
structure Kernel (n : Nat) where
  start : Nat
  size : Nat
  outstanding : Int
  committing : Bool
  lh : List Nat
  bufs : Buffers
  procs : Fin n → Frame
  panic : Option Panic

namespace Kernel

variable {n : Nat}

def goto (kernel : Kernel n) (pid : Fin n) (frame : Frame) : Kernel n :=
  { kernel with procs := Function.update kernel.procs pid frame }

/-- `wakeup(&log)`: the sleepers go back to the test of `begin_op`. -/
def wakeup (kernel : Kernel n) : Kernel n :=
  { kernel with procs := fun pid =>
      if kernel.procs pid = .asleep then .beginOp else kernel.procs pid }

/-- One round of the loop of `begin_op`. -/
def beginOp (kernel : Kernel n) (pid : Fin n) : Kernel n :=
  if kernel.committing then kernel.goto pid .asleep
  else if kernel.lh.length + (kernel.outstanding + 1) * maxOpBlocks > logSize then
    kernel.goto pid .asleep
  else { kernel with outstanding := kernel.outstanding + 1 }.goto pid (.inOp [])

/-- The checks of `log_write`, before it takes `log.lock`; `data` is what the caller has put
into the buffer. -/
def checkLogWrite (kernel : Kernel n) (pid : Fin n) (logged : List Nat) (blockno : Nat)
    (data : Block) : Kernel n :=
  if kernel.lh.length ≥ logSize ∨ (kernel.lh.length : Int) ≥ kernel.size - 1 then
    { kernel with panic := some .tooBigATransaction }
  else if kernel.outstanding < 1 then
    { kernel with panic := some .logWriteOutsideOfTrans }
  else
    { kernel with bufs := { kernel.bufs with
        view := Function.update kernel.bufs.view blockno data } }.goto pid (.logWrite logged blockno)

/-- The critical section of `log_write`, with log absorption. -/
def logWrite (kernel : Kernel n) (pid : Fin n) (logged : List Nat) (blockno : Nat) : Kernel n :=
  { kernel with lh := if blockno ∈ kernel.lh then kernel.lh else kernel.lh ++ [blockno] }.goto pid
    (.inOp (if blockno ∈ logged then logged else logged ++ [blockno]))

/-- The first critical section of `end_op`. -/
def endOp (kernel : Kernel n) (pid : Fin n) : Kernel n :=
  let left := { kernel with outstanding := kernel.outstanding - 1 }
  if left.committing then { left with panic := some .logCommitting }
  else if left.outstanding = 0 then { left with committing := true }.goto pid .commit
  else left.wakeup.goto pid .idle

/-- `commit()` without any lock. -/
def runCommit (kernel : Kernel n) (pid : Fin n) : Kernel n :=
  { kernel with
    bufs := commit kernel.start kernel.lh kernel.bufs
    lh := [] }.goto pid .committed

/-- The last critical section of `end_op`. -/
def endCommit (kernel : Kernel n) (pid : Fin n) : Kernel n :=
  ({ kernel with committing := false }.wakeup).goto pid .idle

end Kernel

inductive Label (n : Nat) where
  | call (pid : Fin n)
  | logWrite (pid : Fin n) (blockno : Nat) (data : Block)
  | endOp (pid : Fin n)
  | run (pid : Fin n)
  | kill (pid : Fin n)

/-- A process calls `begin_op`, `log_write` or `end_op`, goes on with the call it is in, or is
woken by `kill`.  Nothing runs after a panic. -/
def step {n : Nat} (kernel : Kernel n) (label : Label n) : Option (Kernel n) :=
  if kernel.panic.isSome then none
  else match label with
    | .call pid => if kernel.procs pid = .idle then some (kernel.goto pid .beginOp) else none
    | .logWrite pid blockno data =>
      match kernel.procs pid with
      | .inOp logged => some (kernel.checkLogWrite pid logged blockno data)
      | _ => none
    | .endOp pid =>
      match kernel.procs pid with
      | .inOp _ => some (kernel.endOp pid)
      | _ => none
    | .run pid =>
      match kernel.procs pid with
      | .beginOp => some (kernel.beginOp pid)
      | .logWrite logged blockno => some (kernel.logWrite pid logged blockno)
      | .commit => some (kernel.runCommit pid)
      | .committed => some (kernel.endCommit pid)
      | .idle | .asleep | .inOp _ => none
    | .kill pid => if kernel.procs pid = .asleep then some (kernel.goto pid .beginOp) else none

/-- The log after `initlog`, on an image with the `nlog` of `mkfs`. -/
structure Initial {n : Nat} (kernel : Kernel n) : Prop where
  size : kernel.size = nlog
  outstanding : kernel.outstanding = 0
  committing : kernel.committing = false
  lh : kernel.lh = []
  procs : ∀ pid, kernel.procs pid = .idle
  panic : kernel.panic = none

def system (n : Nat) : System (Kernel n) (Label n) where
  init := Initial
  step := step

/-- Every operation logs at most `bound` distinct blocks between its `begin_op` and its
`end_op`. -/
def opsWithin {n : Nat} (bound : Nat) (kernel : Kernel n) : Label n → Bool
  | .logWrite pid blockno _ =>
    match kernel.procs pid with
    | .inOp logged => decide (blockno ∈ logged ∨ logged.length < bound)
    | _ => true
  | _ => true

end Laboratorio.Xv6.Logs
