import Laboratorio.Lib.System
import Laboratorio.Lib.Rotation

/-! # User-level threads (`uthreadlib.c`, `uthread_switch.S`)

The table of threads, the running thread and the index from which the search for the next
one goes on.  `thread_switch` saves and restores registers; of the state kept here it only
sets `current_thread`.  `next_thread` is 0 between two calls and is a local value here, and
stacks are not modelled.

A `thread_create` without a free slot writes past the table; it has no next state here.
-/

namespace Laboratorio.Xv6.Uthread

open Laboratorio.Lib

abbrev maxThread : Nat := 8

instance : NeZero maxThread := ⟨by decide⟩

abbrev Slot := Fin maxThread

inductive State
  | free
  | running
  | runnable
  deriving DecidableEq

structure Threads where
  allThread : Slot → State
  currentThread : Slot
  currentThreadIndex : Slot

/-- The thread that called `thread_init`. -/
def main : Slot := 0

def threadInit : Threads where
  allThread := Function.update (fun _ => .free) main .running
  currentThread := main
  currentThreadIndex := 0

namespace Threads

def setState (t : Threads) (slot : Slot) (state : State) : Threads :=
  { t with allThread := Function.update t.allThread slot state }

/-- The search loop of `thread_schedule`. -/
def search (t : Threads) : Option Slot :=
  scan (fun slot => decide (t.allThread slot = .runnable) && decide (slot ≠ t.currentThread))
    (t.currentThreadIndex + 1)

/-- `next_thread` after the loop and the two tests that follow it. -/
def nextThread (t : Threads) : Slot :=
  match t.search with
  | some slot => slot
  | none => if t.allThread t.currentThread = .runnable then t.currentThread else main

/-- The loop moves the index with the thread it selects. -/
def nextIndex (t : Threads) : Slot :=
  match t.search with
  | some slot => slot
  | none => t.currentThreadIndex

def threadSchedule (t : Threads) : Threads :=
  let moved := { t with currentThreadIndex := t.nextIndex }
  if t.currentThread ≠ t.nextThread then
    { moved.setState t.nextThread .running with currentThread := t.nextThread }
  else moved

def freeSlot (t : Threads) : Option Slot :=
  (List.finRange maxThread).find? fun slot => decide (t.allThread slot = .free)

def threadCreate (t : Threads) : Option Threads :=
  t.freeSlot.map fun slot => t.setState slot .runnable

end Threads

inductive Call
  | threadCreate
  | threadYield
  | threadExit
  /-- As the program `uthread` calls it from `main`. -/
  | threadSchedule

/-- The state in which a call reaches `thread_schedule`. -/
def Threads.scheduling (t : Threads) : Call → Option Threads
  | .threadCreate => none
  | .threadYield => some (t.setState t.currentThread .runnable)
  | .threadExit => some (t.setState t.currentThread .free)
  | .threadSchedule => some t

/-- A call of the running thread. -/
def Threads.call (t : Threads) (call : Call) : Option Threads :=
  match t.scheduling call with
  | none => t.threadCreate
  | some calling => some calling.threadSchedule

def threads : System Threads Call where
  init t := t = threadInit
  step := Threads.call

/-- The main thread does not exit. -/
def MainStays (t : Threads) (call : Call) : Prop :=
  call = .threadExit → t.currentThread ≠ main

/-- The thread that the search loop selects in a call. -/
def Threads.selects (t : Threads) (call : Call) : Option Slot :=
  (t.scheduling call).bind Threads.search

end Laboratorio.Xv6.Uthread
