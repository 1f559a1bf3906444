import Laboratorio.Lib.System
import Laboratorio.Xv6.Sleep

/-! # The scheduler of `proc.c` on several CPUs

Every CPU executes one thread: `scheduler()` on its own stack, or the kernel thread of a process
on the stack of that process.  A step is a step of one CPU: an operation on `ptable.lock`, an
assignment to the process table or to the CPU, one round of a loop over the table, or one part
of `swtch`.  The lock belongs to a CPU, not to a thread, so that `swtch` passes it on.

`swtch(old, new)` takes two steps.  The first stores the stack pointer in `*old`: the context
says where the thread will go on (`After`).  The second loads `new`, and from then on the CPU
executes on the other stack.  `context` is `none` while what `p->context` points at is not a
saved context: from the moment it is loaded to the next `swtch` of the process.

Code that does not hold `ptable.lock` can be interrupted, and the interrupt may `yield` or `wakeup`:
`Base` is where the thread goes on after it.  The other locks, the files, and what `kalloc`
and `copyuvm` do besides succeeding or failing are left out, and so is `exec`.
-/

namespace Laboratorio.Xv6.Sched

open Laboratorio.Lib

variable (nproc ncpu : Nat)

/-- What a process may sleep on: the address of a process, in `wait`, or something else. -/
inductive Chan
  | proc (p : Fin nproc)
  | other (address : Nat)
  deriving DecidableEq

/-- Code of a process outside the critical sections of `ptable.lock`: anywhere, or in `fork` on
its way from `allocproc` to the last critical section. -/
inductive Base
  | user
  | forkKstack (np : Fin nproc)
  | forkPgdir (np : Fin nproc)
  | forkParent (np : Fin nproc)
  | forkReady (np : Fin nproc)
  deriving DecidableEq

/-- Where a thread goes on when its context is loaded: after the `sched()` of `yield`, of
`sleep`, of the `sleep` in `wait`, of `exit`, or at `forkret`. -/
inductive After
  | yield (back : Base nproc)
  | sleep
  | wait
  | exit
  | forkret
  deriving DecidableEq

/-- The critical sections. -/
inductive Section
  | yield
  | sleep (chan : Chan nproc)
  | wakeup (chan : Chan nproc)
  | kill (pid : Nat)
  | allocproc
  | forkRunnable (np : Fin nproc)
  | exit
  | wait
  deriving DecidableEq

/-- The code of a process.  The scans are at process `i` of the table. -/
inductive Code
  | at (base : Base nproc)
  | acquire (what : Section nproc) (back : Base nproc)
  | yieldState (back : Base nproc)
  | sleepChan (chan : Chan nproc) (inWait : Bool)
  | sleepState (inWait : Bool)
  | swtchSave (after : After nproc)
  | swtchLoad (after : After nproc)
  | sleepTidy (inWait : Bool)
  | wakeupScan (chan : Chan nproc) (i : Nat) (back : Base nproc)
  | killScan (pid : Nat) (i : Nat)
  | allocScan (i : Nat)
  | forkRunnable (np : Fin nproc)
  | exitWakeup (i : Nat)
  | exitChildren (i : Nat)
  | exitWakeInit (i j : Nat)
  | exitState
  | waitScan (havekids : Bool) (i : Nat)
  | waitKfree (p : Fin nproc)
  | waitFreevm (p : Fin nproc)
  | waitUnused (p : Fin nproc)
  | release (back : Base nproc)
  | zombieExit
  deriving DecidableEq

/-- The code of `scheduler()`; `idle` is after `sti()`, where interrupts may `wakeup`. -/
inductive SchedCode
  | idle
  | intrAcquire (chan : Chan nproc)
  | intrScan (chan : Chan nproc) (i : Nat)
  | intrRelease
  | loop (i : Nat)
  | setProc (p : Fin nproc)
  | switchuvm (p : Fin nproc)
  | setRunning (p : Fin nproc)
  | swtchSave (p : Fin nproc)
  | swtchLoad (p : Fin nproc)
  | switchkvm (p : Fin nproc)
  | clearProc (p : Fin nproc)
  | release
  deriving DecidableEq

inductive Thread
  | scheduler (code : SchedCode nproc)
  | proc (p : Fin nproc) (code : Code nproc)
  deriving DecidableEq

/-- `kstack` and `pgdir` say whether the process has one. -/
structure Proc extends Sleeper (Chan nproc) where
  pid : Nat
  parent : Option (Fin nproc)
  killed : Bool
  kstack : Bool
  pgdir : Bool
  context : Option (After nproc)

/-- `scheduler` is the saved context of the scheduler: its loop variable.  `cr3` is the process
whose page directory is loaded, `none` for `kpgdir`. -/
structure Cpu where
  thread : Thread nproc
  proc : Option (Fin nproc)
  scheduler : Option (Fin nproc)
  cr3 : Option (Fin nproc)

structure Kernel where
  lock : Option (Fin ncpu)
  nextpid : Nat
  initproc : Fin nproc
  procs : Fin nproc → Proc nproc
  cpus : Fin ncpu → Cpu nproc

/-- `call` starts a critical section, by a call of the process or in an interrupt.  `run` gives
the result of `kalloc` or `copyuvm` where the step needs one. -/
inductive Label
  | call (c : Fin ncpu) (what : Section nproc)
  | run (c : Fin ncpu) (ok : Bool)

variable {nproc ncpu}

/-- Where the code goes on when `sched()` returns, with `ptable.lock` held. -/
def After.code : After nproc → Code nproc
  | .yield back => .release back
  | .sleep => .sleepTidy false
  | .wait => .sleepTidy true
  | .exit => .zombieExit
  | .forkret => .release .user

/-- What a critical section begins with. -/
def Section.code (back : Base nproc) : Section nproc → Code nproc
  | .yield => .yieldState back
  | .sleep chan => .sleepChan chan false
  | .wakeup chan => .wakeupScan chan 0 back
  | .kill pid => .killScan pid 0
  | .allocproc => .allocScan 0
  | .forkRunnable np => .forkRunnable np
  | .exit => .exitWakeup 0
  | .wait => .waitScan false 0

namespace Kernel

variable (k : Kernel nproc ncpu)

def setProc (p : Fin nproc) (proc : Proc nproc) : Kernel nproc ncpu :=
  { k with procs := Function.update k.procs p proc }

def setCpu (c : Fin ncpu) (cpu : Cpu nproc) : Kernel nproc ncpu :=
  { k with cpus := Function.update k.cpus c cpu }

def goto (c : Fin ncpu) (thread : Thread nproc) : Kernel nproc ncpu :=
  k.setCpu c { k.cpus c with thread }

def acquire (c : Fin ncpu) (thread : Thread nproc) : Option (Kernel nproc ncpu) :=
  if k.lock = none then some ({ k with lock := some c }.goto c thread) else none

/-- `release` panics on a CPU that does not hold the lock. -/
def release (c : Fin ncpu) (thread : Thread nproc) : Option (Kernel nproc ncpu) :=
  if k.lock = some c then some ({ k with lock := none }.goto c thread) else none

/-- One round of `wakeup1(chan)`. -/
def wakeup1 (chan : Option (Chan nproc)) (q : Fin nproc) : Kernel nproc ncpu :=
  k.setProc q { k.procs q with toSleeper := (k.procs q).wakeup1 chan }

/-- One step on CPU `c` of the kernel thread that executes on the stack of `p`; `curproc` is what
`myproc()` returns. -/
def runProc (c : Fin ncpu) (p curproc : Fin nproc) (ok : Bool) :
    Code nproc → Option (Kernel nproc ncpu)
  | .at .user => none
  | .at (.forkKstack np) =>
    -- `allocproc` after its critical section
    if ok then
      some ((k.setProc np { k.procs np with kstack := true, context := some .forkret }).goto c
        (.proc p (.at (.forkPgdir np))))
    else
      some ((k.setProc np { k.procs np with kstack := false, state := .unused }).goto c
        (.proc p (.at .user)))
  | .at (.forkPgdir np) =>
    if ok then
      some ((k.setProc np { k.procs np with pgdir := true }).goto c
        (.proc p (.at (.forkParent np))))
    else
      some ((k.setProc np
        { k.procs np with pgdir := false, kstack := false, state := .unused }).goto c
        (.proc p (.at .user)))
  | .at (.forkParent np) =>
    some ((k.setProc np { k.procs np with parent := some curproc }).goto c
      (.proc p (.at (.forkReady np))))
  | .at (.forkReady np) => some (k.goto c (.proc p (.acquire (.forkRunnable np) (.forkReady np))))
  | .acquire what back => k.acquire c (.proc p (what.code back))
  | .yieldState back =>
    some ((k.setProc curproc { k.procs curproc with state := .runnable }).goto c
      (.proc p (.swtchSave (.yield back))))
  | .sleepChan chan inWait =>
    some ((k.setProc curproc { k.procs curproc with chan := some chan }).goto c
      (.proc p (.sleepState inWait)))
  | .sleepState inWait =>
    some ((k.setProc curproc { k.procs curproc with state := .sleeping }).goto c
      (.proc p (.swtchSave (if inWait then .wait else .sleep))))
  | .swtchSave after =>
    -- the checks of `sched`
    if k.lock = some c ∧ (k.procs curproc).state ≠ .running then
      some ((k.setProc curproc { k.procs curproc with context := some after }).goto c
        (.proc p (.swtchLoad after)))
    else none
  | .swtchLoad _ =>
    (k.cpus c).scheduler.map fun loaded => k.goto c (.scheduler (.switchkvm loaded))
  | .sleepTidy inWait =>
    some ((k.setProc curproc { k.procs curproc with chan := none }).goto c
      (.proc p (if inWait then .waitScan false 0 else .release .user)))
  | .wakeupScan chan i back =>
    if bound : i < nproc then
      some ((k.wakeup1 (some chan) ⟨i, bound⟩).goto c (.proc p (.wakeupScan chan (i + 1) back)))
    else some (k.goto c (.proc p (.release back)))
  | .killScan pid i =>
    if bound : i < nproc then
      let q : Fin nproc := ⟨i, bound⟩
      if (k.procs q).pid = pid then
        some ((k.setProc q { k.procs q with toSleeper := (k.procs q).kill, killed := true }).goto c
          (.proc p (.release .user)))
      else some (k.goto c (.proc p (.killScan pid (i + 1))))
    else some (k.goto c (.proc p (.release .user)))
  | .allocScan i =>
    if bound : i < nproc then
      let q : Fin nproc := ⟨i, bound⟩
      if (k.procs q).state = .unused then
        some ({ k.setProc q { k.procs q with state := .embryo, pid := k.nextpid } with
          nextpid := k.nextpid + 1 }.goto c (.proc p (.release (.forkKstack q))))
      else some (k.goto c (.proc p (.allocScan (i + 1))))
    else some (k.goto c (.proc p (.release .user)))
  | .forkRunnable np =>
    some ((k.setProc np { k.procs np with state := .runnable }).goto c (.proc p (.release .user)))
  | .exitWakeup i =>
    if bound : i < nproc then
      some ((k.wakeup1 ((k.procs curproc).parent.map .proc) ⟨i, bound⟩).goto c
        (.proc p (.exitWakeup (i + 1))))
    else some (k.goto c (.proc p (.exitChildren 0)))
  | .exitChildren i =>
    if bound : i < nproc then
      let q : Fin nproc := ⟨i, bound⟩
      if (k.procs q).parent = some curproc then
        some ((k.setProc q { k.procs q with parent := some k.initproc }).goto c
          (.proc p (if (k.procs q).state = .zombie then .exitWakeInit i 0
            else .exitChildren (i + 1))))
      else some (k.goto c (.proc p (.exitChildren (i + 1))))
    else some (k.goto c (.proc p .exitState))
  | .exitWakeInit i j =>
    if bound : j < nproc then
      some ((k.wakeup1 (some (.proc k.initproc)) ⟨j, bound⟩).goto c
        (.proc p (.exitWakeInit i (j + 1))))
    else some (k.goto c (.proc p (.exitChildren (i + 1))))
  | .exitState =>
    some ((k.setProc curproc { k.procs curproc with state := .zombie }).goto c
      (.proc p (.swtchSave .exit)))
  | .waitScan havekids i =>
    if bound : i < nproc then
      let q : Fin nproc := ⟨i, bound⟩
      if (k.procs q).parent = some curproc then
        if (k.procs q).state = .zombie then some (k.goto c (.proc p (.waitKfree q)))
        else some (k.goto c (.proc p (.waitScan true (i + 1))))
      else some (k.goto c (.proc p (.waitScan havekids (i + 1))))
    else if !havekids ∨ (k.procs curproc).killed then some (k.goto c (.proc p (.release .user)))
    else some (k.goto c (.proc p (.sleepChan (.proc curproc) true)))
  | .waitKfree q =>
    some ((k.setProc q { k.procs q with kstack := false }).goto c (.proc p (.waitFreevm q)))
  | .waitFreevm q =>
    some ((k.setProc q { k.procs q with pgdir := false }).goto c (.proc p (.waitUnused q)))
  | .waitUnused q =>
    some ((k.setProc q
      { k.procs q with state := .unused, pid := 0, parent := none, killed := false }).goto c
        (.proc p (.release .user)))
  | .release back => k.release c (.proc p (.at back))
  -- `panic("zombie exit")`
  | .zombieExit => none

/-- One step of `scheduler()` on CPU `c`. -/
def runScheduler (c : Fin ncpu) : SchedCode nproc → Option (Kernel nproc ncpu)
  | .idle => k.acquire c (.scheduler (.loop 0))
  | .intrAcquire chan => k.acquire c (.scheduler (.intrScan chan 0))
  | .intrScan chan i =>
    if bound : i < nproc then
      some ((k.wakeup1 (some chan) ⟨i, bound⟩).goto c (.scheduler (.intrScan chan (i + 1))))
    else some (k.goto c (.scheduler .intrRelease))
  | .intrRelease => k.release c (.scheduler .idle)
  | .loop i =>
    if bound : i < nproc then
      let p : Fin nproc := ⟨i, bound⟩
      if (k.procs p).state = .runnable then some (k.goto c (.scheduler (.setProc p)))
      else some (k.goto c (.scheduler (.loop (i + 1))))
    else some (k.goto c (.scheduler .release))
  | .setProc p =>
    some (k.setCpu c { k.cpus c with thread := .scheduler (.switchuvm p), proc := some p })
  | .switchuvm p =>
    if (k.procs p).kstack ∧ (k.procs p).pgdir then
      some (k.setCpu c { k.cpus c with thread := .scheduler (.setRunning p), cr3 := some p })
    else none
  | .setRunning p =>
    some ((k.setProc p { k.procs p with state := .running }).goto c (.scheduler (.swtchSave p)))
  | .swtchSave p =>
    some (k.setCpu c
      { k.cpus c with thread := .scheduler (.swtchLoad p), scheduler := some p })
  | .swtchLoad p =>
    (k.procs p).context.map fun after =>
      (k.setProc p { k.procs p with context := none }).goto c (.proc p after.code)
  | .switchkvm p =>
    some (k.setCpu c { k.cpus c with thread := .scheduler (.clearProc p), cr3 := none })
  | .clearProc p =>
    some (k.setCpu c { k.cpus c with thread := .scheduler (.loop (p + 1)), proc := none })
  | .release => k.release c (.scheduler .idle)

end Kernel

/-- A call needs the process to be in code of its own; an interrupt may come anywhere outside
the critical sections. -/
def Section.allowed (initproc p : Fin nproc) (base : Base nproc) : Section nproc → Bool
  | .yield => true
  | .wakeup _ => true
  | .forkRunnable _ => false
  | .exit => base = .user && p ≠ initproc
  | _ => base = .user

def step (k : Kernel nproc ncpu) : Label nproc ncpu → Option (Kernel nproc ncpu)
  | .call c what =>
    match (k.cpus c).thread with
    | .proc p (.at base) =>
      if what.allowed k.initproc p base then some (k.goto c (.proc p (.acquire what base)))
      else none
    | .scheduler .idle =>
      match what with
      | .wakeup chan => some (k.goto c (.scheduler (.intrAcquire chan)))
      | _ => none
    | _ => none
  | .run c ok =>
    match (k.cpus c).thread with
    | .proc p code => (k.cpus c).proc.bind fun curproc => k.runProc c p curproc ok code
    | .scheduler code => k.runScheduler c code

/-- After `userinit`: the first process can run, the other entries of the table are free, and
every CPU has called `scheduler()`. -/
structure Initial (k : Kernel nproc ncpu) : Prop where
  lock : k.lock = none
  first : (k.procs k.initproc).state = .runnable ∧ (k.procs k.initproc).kstack = true ∧
    (k.procs k.initproc).pgdir = true ∧ (k.procs k.initproc).context = some .forkret
  others : ∀ p, p ≠ k.initproc → (k.procs p).state = .unused ∧ (k.procs p).context = none
  cpus : ∀ c, (k.cpus c).thread = .scheduler .idle ∧ (k.cpus c).proc = none ∧
    (k.cpus c).cr3 = none

def system (nproc ncpu : Nat) : System (Kernel nproc ncpu) (Label nproc ncpu) where
  init := Initial
  step := step

end Laboratorio.Xv6.Sched
