import Laboratorio.Xv6.Uthread.Model

/-! # The program `uthread` (`uthread.c`)

`main` creates `numthreads` threads that run `mythread` and calls `thread_schedule`.  Each
thread has a stack of its own, so `resume` keeps for every slot the place where its code
goes on when the slot is the current thread; a call of `thread_schedule` stores the place
after the call and the next step is one of the thread switched to.

The writes of `thread_create` are recorded with their offsets from the start of
`all_thread`, and so are the lines the program prints.  The check of `argc` and the text of
the lines are left out; `numthreads` and `numexecs` are what `atoi` returned.
-/

namespace Laboratorio.Xv6.Uthread

/-! ## What `thread_create` writes -/

def stackSize : Nat := 8192

/-- `struct thread`: the stack pointer, the stack and the state. -/
def sizeofThread : Nat := 4 + stackSize + 4

/-- A write of `size` bytes at an offset from the start of `all_thread`. -/
structure Write where
  offset : Nat
  size : Nat
  deriving DecidableEq

def Write.InTable (write : Write) : Prop :=
  write.offset + write.size ≤ maxThread * sizeofThread

instance (write : Write) : Decidable write.InTable :=
  inferInstanceAs (Decidable (_ ≤ _))

/-- Where `t` points after the loop of `thread_create`: one past the table when no slot is
free. -/
def Threads.createIndex (t : Threads) : Nat :=
  match t.freeSlot with
  | some slot => slot.val
  | none => maxThread

/-- `t->sp` (three times, at one place), the return address at the top of the stack and
`t->state`. -/
def Threads.createWrites (t : Threads) : List Write :=
  let base := t.createIndex * sizeofThread
  [⟨base, 4⟩, ⟨base + 4 + stackSize - 4, 4⟩, ⟨base + 4 + stackSize, 4⟩]

/-! ## The program -/

inductive Place
  /-- In the loop of `main`, before the test `i < numthreads`. -/
  | creating (i : Nat)
  /-- `thread_create` has written past the table; what follows is not described. -/
  | overrun
  /-- In `main`, after its call of `thread_schedule`. -/
  | scheduled
  | exited
  /-- The first instruction of `mythread`. -/
  | start
  /-- In the loop of `mythread`, before the test `i < numexecs`. -/
  | loop (i : Nat)
  /-- After the call of `thread_exit`. -/
  | ended
  deriving DecidableEq

inductive Line
  | started (threadId : Slot)
  | body (threadId : Slot) (i : Nat)
  | ended (threadId : Slot)
  | noRunnableThreads
  | allThreadsEnded

structure Machine where
  threads : Threads
  resume : Slot → Place
  created : List Slot
  writes : List Write
  output : List Line

namespace Machine

def start : Machine where
  threads := threadInit
  resume := fun _ => .creating 0
  created := []
  writes := []
  output := []

def threadId (mach : Machine) : Slot :=
  mach.threads.currentThread

def goto (mach : Machine) (place : Place) : Machine :=
  { mach with resume := Function.update mach.resume mach.threadId place }

def print (mach : Machine) (line : Line) : Machine :=
  { mach with output := mach.output ++ [line] }

def create (mach : Machine) (i : Nat) : Machine :=
  let wrote := { mach with writes := mach.writes ++ mach.threads.createWrites }
  match mach.threads.freeSlot with
  | some slot =>
    { wrote.goto (.creating (i + 1)) with
      threads := mach.threads.setState slot .runnable
      resume := Function.update (wrote.goto (.creating (i + 1))).resume slot .start
      created := mach.created ++ [slot] }
  | none => wrote.goto .overrun

/-- The table after a call's own change of a state, on the way into `thread_schedule`. -/
def enter (mach : Machine) (call : Call) : Threads :=
  (mach.threads.scheduling call).getD mach.threads

/-- A call that reaches `thread_schedule`; the caller goes on at `place`. -/
def schedule (mach : Machine) (call : Call) (place : Place) : Machine :=
  let calling := mach.enter call
  let stored := mach.goto place
  let told := if calling.search = none ∧ calling.allThread calling.currentThread ≠ .runnable
    then stored.print .noRunnableThreads else stored
  { told with threads := calling.threadSchedule }

/-- One step of the current thread; `none` when the program has ended. -/
def step (numthreads numexecs : Nat) (mach : Machine) : Option Machine :=
  match mach.resume mach.threadId with
  | .creating i =>
    if i < numthreads then some (mach.create i)
    else some (mach.schedule .threadSchedule .scheduled)
  | .scheduled => some ((mach.print .allThreadsEnded).goto .exited)
  | .start => some ((mach.print (.started mach.threadId)).goto (.loop 0))
  | .loop i =>
    if i < numexecs then
      some ((mach.print (.body mach.threadId i)).schedule .threadYield (.loop (i + 1)))
    else some ((mach.print (.ended mach.threadId)).schedule .threadExit .ended)
  | .overrun | .exited | .ended => none

/-- The executions of the loop body of `mythread`, in their order. -/
def bodies (mach : Machine) : List (Slot × Nat) :=
  mach.output.filterMap fun
    | .body threadId i => some (threadId, i)
    | _ => none

end Machine

/-- The program, one step of the current thread at a time. -/
def uthread (numthreads numexecs : Nat) : Lib.System Machine Unit where
  init mach := mach = Machine.start
  step mach _ := mach.step numthreads numexecs

end Laboratorio.Xv6.Uthread
