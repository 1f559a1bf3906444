import Laboratorio.Lib.System
import Laboratorio.Xv6.Param
import Laboratorio.Xv6.Sleep
import Mathlib.Data.List.FinRange

/-! # The process table of `proc.c`

The steps are the critical sections of `ptable.lock`, and the parts of `allocproc` and
`fork` that change a slot of the table without the lock.  `fork` is cut where
`kalloc` may fail: `allocproc` hands out a slot, then the kernel stack and the address
space are allocated, then the child becomes `RUNNABLE`.

`history` is a history variable, newest event first.  In it a process is named by its
`birth`, the number of slots handed out before it, because pids and slots are reused.
Of `struct proc` the fields that these functions neither test nor clear for others
(`sz`, `pgdir`, `kstack`, `tf`, `context`, `ofile`, `cwd`, `name`) are left out.
-/

namespace Laboratorio.Xv6.Procs

open Laboratorio.Lib

abbrev Slot := Fin nproc

/-- A sleep channel: the address of a process, or any other kernel address. -/
inductive Chan where
  | proc (slot : Slot)
  | address (address : Nat)
  deriving DecidableEq, Repr

/-- Where in `proc.c` a process is.  The child slot of a `fork` is `np`. -/
inductive Code where
  | elsewhere
  | forkKalloc (np : Slot)
  | forkCopyuvm (np : Slot)
  | forkRunnable (np : Slot)
  | wait
  deriving DecidableEq, Repr

structure Proc extends Sleeper Chan where
  pid : Int32
  parent : Option Slot
  killed : Bool
  code : Code
  birth : Nat
  deriving DecidableEq, Repr

inductive Event where
  | allocated (slot : Slot) (birth : Nat)
  | forked (parent child : Nat)
  | exited (birth : Nat)
  | reaped (child parent : Nat)
  | killCalled (pid : Int32)
  | trapped (slot : Slot)
  deriving DecidableEq, Repr

structure Table where
  procs : Slot → Proc
  nextpid : Int32
  births : Nat
  history : List Event

/-- `userinit` takes the first slot. -/
def initproc : Slot := ⟨0, nproc_pos⟩

namespace Table

def set (table : Table) (slot : Slot) (proc : Proc) : Table :=
  { table with procs := Function.update table.procs slot proc }

def record (table : Table) (event : Event) : Table :=
  { table with history := event :: table.history }

def goto (table : Table) (slot : Slot) (code : Code) : Table :=
  table.set slot { table.procs slot with code := code }

/-- The first slot in table order with a property: the scans of `allocproc`, `wait`
and `kill`. -/
def find (table : Table) (found : Proc → Bool) : Option Slot :=
  (List.finRange nproc).find? fun slot => found (table.procs slot)

/-- The critical section of `allocproc`, called from `fork`; without an `UNUSED` slot
`fork` returns -1. -/
def allocproc (table : Table) (curproc : Slot) : Table :=
  match table.find fun proc => proc.state == .unused with
  | none => table
  | some np =>
    let embryo := { table.procs np with
      state := .embryo, pid := table.nextpid, birth := table.births }
    { table.set np embryo with
      nextpid := table.nextpid + 1
      births := table.births + 1
      history := .allocated np table.births :: table.history }.goto curproc (.forkKalloc np)

/-- `kalloc` for the kernel stack; when it fails `allocproc` gives the slot back. -/
def kallocStack (table : Table) (curproc np : Slot) (ok : Bool) : Table :=
  if ok then table.goto curproc (.forkCopyuvm np)
  else (table.set np { table.procs np with state := .unused }).goto curproc .elsewhere

/-- `copyuvm`; when it fails `fork` gives the slot back, otherwise it goes on to set
`np->parent`. -/
def copyuvm (table : Table) (curproc np : Slot) (ok : Bool) : Table :=
  if ok then
    (table.set np { table.procs np with parent := some curproc }).goto curproc (.forkRunnable np)
  else (table.set np { table.procs np with state := .unused }).goto curproc .elsewhere

/-- The critical section at the end of `fork`. -/
def forkRunnable (table : Table) (curproc np : Slot) : Table :=
  ((table.set np { table.procs np with state := .runnable }).goto curproc .elsewhere).record
    (.forked (table.procs curproc).birth (table.procs np).birth)

def wakeup1 (table : Table) (chan : Chan) : Table :=
  { table with procs := fun slot =>
      { table.procs slot with toSleeper := (table.procs slot).wakeup1 (some chan) } }

/-- One round of the loop of `exit` that passes abandoned children to init. -/
def abandon (curproc : Slot) (table : Table) (slot : Slot) : Table :=
  if (table.procs slot).parent = some curproc then
    let passed := table.set slot { table.procs slot with parent := some initproc }
    if (table.procs slot).state = .zombie then passed.wakeup1 (.proc initproc) else passed
  else table

def passAbandoned (table : Table) (curproc : Slot) : Table :=
  (List.finRange nproc).foldl (abandon curproc) table

/-- `wakeup1(curproc->parent)`; nobody sleeps on address 0. -/
def wakeParent (table : Table) (curproc : Slot) : Table :=
  match (table.procs curproc).parent with
  | some parent => table.wakeup1 (.proc parent)
  | none => table

/-- The critical section of `exit`; `curproc` is not `initproc`. -/
def exit (table : Table) (curproc : Slot) : Table :=
  let left := (table.wakeParent curproc).passAbandoned curproc
  (left.set curproc { left.procs curproc with state := .zombie }).record
    (.exited (table.procs curproc).birth)

/-- One round of the outer loop of `wait`: reap the first `ZOMBIE` child, return -1
without children or when killed, else sleep on the address of `curproc`. -/
def wait (table : Table) (curproc : Slot) : Table :=
  match table.find fun proc => proc.parent == some curproc && proc.state == .zombie with
  | some child =>
    ((table.set child { table.procs child with
        pid := 0, parent := none, killed := false, state := .unused }).goto curproc .elsewhere).record
      (.reaped (table.procs child).birth (table.procs curproc).birth)
  | none =>
    if table.find (fun proc => proc.parent == some curproc) = none ∨ (table.procs curproc).killed then
      table.goto curproc .elsewhere
    else
      table.set curproc
        { table.procs curproc with toSleeper := .sleep (.proc curproc), code := .wait }

/-- `kill` with its return value: 0, or -1 when no slot has that pid. -/
def kill (table : Table) (pid : Int32) : Table × Int :=
  match table.find fun proc => proc.pid == pid with
  | none => (table.record (.killCalled pid), -1)
  | some slot =>
    let proc := table.procs slot
    ((table.set slot { proc with toSleeper := proc.kill, killed := true }).record
      (.killCalled pid), 0)

end Table

inductive Label where
  | allocproc (curproc : Slot)
  | kallocStack (curproc : Slot) (ok : Bool)
  | copyuvm (curproc : Slot) (ok : Bool)
  | forkRunnable (curproc : Slot)
  | exit (curproc : Slot)
  | wait (curproc : Slot)
  | sleep (curproc : Slot) (address : Nat)
  | wakeup (address : Nat)
  | kill (pid : Int32)
  | trap (curproc : Slot)
  | schedule (slot : Slot)
  | yield (curproc : Slot)
  deriving DecidableEq, Repr

/-- `curproc` is on a CPU at the given place of its code. -/
def Table.runs (table : Table) (curproc : Slot) (code : Code) : Bool :=
  (table.procs curproc).state == .running && (table.procs curproc).code == code

/-- Every step belongs to a `RUNNING` process at the right place, apart from `wakeup`,
which interrupt handlers call too, `kill` and the scheduler. -/
def step (table : Table) : Label → Option Table
  | .allocproc curproc =>
    if table.runs curproc .elsewhere then some (table.allocproc curproc) else none
  | .kallocStack curproc ok =>
    match (table.procs curproc).code with
    | .forkKalloc np =>
      if table.runs curproc (.forkKalloc np) then some (table.kallocStack curproc np ok) else none
    | _ => none
  | .copyuvm curproc ok =>
    match (table.procs curproc).code with
    | .forkCopyuvm np =>
      if table.runs curproc (.forkCopyuvm np) then some (table.copyuvm curproc np ok) else none
    | _ => none
  | .forkRunnable curproc =>
    match (table.procs curproc).code with
    | .forkRunnable np =>
      if table.runs curproc (.forkRunnable np) then some (table.forkRunnable curproc np) else none
    | _ => none
  | .exit curproc =>
    if curproc ≠ initproc ∧ table.runs curproc .elsewhere then some (table.exit curproc) else none
  | .wait curproc =>
    if table.runs curproc .elsewhere || table.runs curproc .wait then some (table.wait curproc)
    else none
  | .sleep curproc address =>
    if table.runs curproc .elsewhere then
      some (table.set curproc
        { table.procs curproc with toSleeper := .sleep (.address address) })
    else none
  | .wakeup address => some (table.wakeup1 (.address address))
  | .kill pid => some (table.kill pid).1
  | .trap curproc =>
    if table.runs curproc .elsewhere then
      some ((table.set curproc { table.procs curproc with killed := true }).record
        (.trapped curproc))
    else none
  | .schedule slot =>
    if (table.procs slot).state = .runnable then
      -- a process that comes back from `sleep` clears its channel before anything else
      some (table.set slot { table.procs slot with state := .running, chan := none })
    else none
  | .yield curproc =>
    if (table.procs curproc).state = .running then
      some (table.set curproc { table.procs curproc with state := .runnable })
    else none

/-- The table after `userinit`: `initproc` with pid 1, every other slot of the zeroed
table `UNUSED`. -/
def booted : Table where
  procs slot :=
    if slot = initproc then ⟨⟨.runnable, none⟩, 1, none, false, .elsewhere, 0⟩
    else ⟨⟨.unused, none⟩, 0, none, false, .elsewhere, 0⟩
  nextpid := 2
  births := 1
  history := [.allocated initproc 0]

def system : System Table Label where
  init table := table = booted
  step := step

def firstChild : Slot := ⟨1, by decide⟩

/-! ## Reading a table after an update -/

namespace Table

variable (table : Table) (slot other : Slot) (proc : Proc) (code : Code) (event : Event)

@[simp]
theorem set_procs_self : (table.set slot proc).procs slot = proc := by
  simp [set]

@[simp]
theorem set_history : (table.set slot proc).history = table.history := rfl

@[simp]
theorem set_births : (table.set slot proc).births = table.births := rfl

@[simp]
theorem record_procs : (table.record event).procs = table.procs := rfl

@[simp]
theorem record_births : (table.record event).births = table.births := rfl

@[simp]
theorem record_history : (table.record event).history = event :: table.history := rfl

@[simp]
theorem goto_history : (table.goto slot code).history = table.history := rfl

@[simp]
theorem goto_births : (table.goto slot code).births = table.births := rfl

variable {slot other}

theorem set_procs_of_ne (different : other ≠ slot) :
    (table.set slot proc).procs other = table.procs other := by
  simp [set, different]

@[elab_as_elim] theorem set_cases {table : Table} {slot : Slot} {proc : Proc}
    {motive : Slot → Proc → Prop} (other : Slot) (own : motive slot proc)
    (others : ∀ other, other ≠ slot → motive other (table.procs other)) :
    motive other ((table.set slot proc).procs other) := by
  simp only [set]
  induction other using update_cases with
  | own => exact own
  | others other different => exact others other different

theorem goto_procs_of_ne (different : other ≠ slot) :
    (table.goto slot code).procs other = table.procs other :=
  table.set_procs_of_ne _ different

variable (slot other)

@[simp]
theorem goto_procs_self :
    (table.goto slot code).procs slot = { table.procs slot with code := code } :=
  table.set_procs_self slot _

theorem goto_procs : (table.goto slot code).procs other =
    { table.procs other with
      code := if other = slot then code else (table.procs other).code } := by
  by_cases same : other = slot
  · subst same
    simp
  · simp [goto_procs_of_ne, same]

end Table

end Laboratorio.Xv6.Procs
