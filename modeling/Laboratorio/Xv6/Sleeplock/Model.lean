import Laboratorio.Lib.System
import Laboratorio.Xv6.Sleep

/-! # The sleep lock of `sleeplock.c` with `sleep` and `wakeup` of `proc.c`

`nproc` processes run `acquiresleep`, `releasesleep` and `holdingsleep` on one sleep lock.  Each
`acquire` and `release` of `lk->lk` or `ptable.lock`, each test and each assignment is one step,
and `wakeup1` looks at one process a step.  `sched` gives `ptable.lock` to the scheduler, which
releases it; a process comes back from `sched` when the scheduler has taken the lock again and
switches to it, so that coming back is an acquisition of `ptable.lock` by the process.  A
`RUNNING` process and a `RUNNABLE` one are not told apart.

The rest of the kernel takes part: `kill` may make a sleeper `RUNNABLE` at any moment, other
code may hold `ptable.lock`, and a process that is in none of the three functions may sleep on
other addresses.

`owns` is a history variable, from the assignment of 1 to `lk->locked` in `acquiresleep` to the
assignment of 0 in `releasesleep`.  A process calls `releasesleep` only if it owns the lock.
-/

namespace Laboratorio.Xv6.Sleeplocks

open Laboratorio.Lib

/-- What a process may sleep on: the sleep lock, or something else. -/
inductive Chan
  | lk
  | other
  deriving DecidableEq

/-- Positions inside `sleep(lk, &lk->lk)`; `asleep` is inside `sched`. -/
inductive SleepAt
  | acquirePtable
  | releaseLk
  | setChan
  | setState
  | sched
  | asleep
  | clearChan
  | releasePtable
  | acquireLk
  deriving DecidableEq

/-- Positions inside `wakeup(lk)`; `scan i` looks at process `i`. -/
inductive WakeupAt
  | acquirePtable
  | scan (i : Nat)
  | releasePtable
  deriving DecidableEq

inductive AcquireAt
  | acquire
  | test
  | sleep (pos : SleepAt)
  | setLocked
  | setPid
  | release
  deriving DecidableEq

inductive ReleaseAt
  | acquire
  | clearLocked
  | clearPid
  | wakeup (pos : WakeupAt)
  | release
  deriving DecidableEq

inductive HoldingAt
  | acquire
  | test
  | release (r : Bool)
  | returns (r : Bool)
  deriving DecidableEq

inductive Pos
  | idle
  | acquiresleep (pos : AcquireAt)
  | releasesleep (pos : ReleaseAt)
  | holdingsleep (pos : HoldingAt)
  deriving DecidableEq

structure Proc extends Sleeper Chan where
  pos : Pos
  owns : Bool

variable {nproc : Nat}

/-- Who holds `ptable.lock`. -/
inductive Holder (nproc : Nat)
  | proc (p : Fin nproc)
  | other
  deriving DecidableEq

structure Sleeplock (nproc : Nat) where
  lk : Option (Fin nproc)
  locked : Bool
  pid : Int32

/-- `pid` gives the pids of the processes: `nextpid++` wraps around, so that two may have the
same. -/
structure Kernel (nproc : Nat) where
  lock : Sleeplock nproc
  ptableLock : Option (Holder nproc)
  procs : Fin nproc → Proc
  pid : Fin nproc → Int32

namespace Kernel

def setProc (k : Kernel nproc) (p : Fin nproc) (proc : Proc) : Kernel nproc :=
  { k with procs := Function.update k.procs p proc }

def goto (k : Kernel nproc) (p : Fin nproc) (pos : Pos) : Kernel nproc :=
  k.setProc p { k.procs p with pos }

def takeLk (k : Kernel nproc) (p : Fin nproc) (pos : Pos) : Option (Kernel nproc) :=
  if k.lock.lk = none then some ({ k with lock.lk := some p }.goto p pos) else none

def dropLk (k : Kernel nproc) (p : Fin nproc) (pos : Pos) : Kernel nproc :=
  { k with lock.lk := none }.goto p pos

def takePtable (k : Kernel nproc) (p : Fin nproc) (pos : Pos) : Option (Kernel nproc) :=
  if k.ptableLock = none then some ({ k with ptableLock := some (.proc p) }.goto p pos) else none

def dropPtable (k : Kernel nproc) (p : Fin nproc) (pos : Pos) : Kernel nproc :=
  { k with ptableLock := none }.goto p pos

def sleep (k : Kernel nproc) (p : Fin nproc) : SleepAt → Option (Kernel nproc)
  | .acquirePtable => k.takePtable p (.acquiresleep (.sleep .releaseLk))
  | .releaseLk => some (k.dropLk p (.acquiresleep (.sleep .setChan)))
  | .setChan =>
    some (k.setProc p
      { k.procs p with pos := .acquiresleep (.sleep .setState), chan := some .lk })
  | .setState =>
    some (k.setProc p
      { k.procs p with pos := .acquiresleep (.sleep .sched), state := .sleeping })
  | .sched => some (k.dropPtable p (.acquiresleep (.sleep .asleep)))
  | .asleep => k.takePtable p (.acquiresleep (.sleep .clearChan))
  | .clearChan =>
    some (k.setProc p
      { k.procs p with pos := .acquiresleep (.sleep .releasePtable), chan := none })
  | .releasePtable => some (k.dropPtable p (.acquiresleep (.sleep .acquireLk)))
  | .acquireLk => k.takeLk p (.acquiresleep .test)

def wake (k : Kernel nproc) (q : Fin nproc) : Kernel nproc :=
  k.setProc q { k.procs q with toSleeper := (k.procs q).wakeup1 (some .lk) }

def wakeup (k : Kernel nproc) (p : Fin nproc) : WakeupAt → Option (Kernel nproc)
  | .acquirePtable => k.takePtable p (.releasesleep (.wakeup (.scan 0)))
  | .scan i =>
    if bound : i < nproc then
      some ((k.wake ⟨i, bound⟩).goto p (.releasesleep (.wakeup (.scan (i + 1)))))
    else some (k.goto p (.releasesleep (.wakeup .releasePtable)))
  | .releasePtable => some (k.dropPtable p (.releasesleep .release))

def acquiresleep (k : Kernel nproc) (p : Fin nproc) : AcquireAt → Option (Kernel nproc)
  | .acquire => k.takeLk p (.acquiresleep .test)
  | .test =>
    if k.lock.locked then some (k.goto p (.acquiresleep (.sleep .acquirePtable)))
    else some (k.goto p (.acquiresleep .setLocked))
  | .sleep pos => k.sleep p pos
  | .setLocked =>
    some ({ k with lock.locked := true }.setProc p
      { k.procs p with pos := .acquiresleep .setPid, owns := true })
  | .setPid => some ({ k with lock.pid := k.pid p }.goto p (.acquiresleep .release))
  | .release => some (k.dropLk p .idle)

def releasesleep (k : Kernel nproc) (p : Fin nproc) : ReleaseAt → Option (Kernel nproc)
  | .acquire => k.takeLk p (.releasesleep .clearLocked)
  | .clearLocked =>
    some ({ k with lock.locked := false }.setProc p
      { k.procs p with pos := .releasesleep .clearPid, owns := false })
  | .clearPid =>
    some ({ k with lock.pid := 0 }.goto p (.releasesleep (.wakeup .acquirePtable)))
  | .wakeup pos => k.wakeup p pos
  | .release => some (k.dropLk p .idle)

def holdingsleep (k : Kernel nproc) (p : Fin nproc) : HoldingAt → Option (Kernel nproc)
  | .acquire => k.takeLk p (.holdingsleep .test)
  | .test =>
    some (k.goto p (.holdingsleep (.release (k.lock.locked && k.lock.pid = k.pid p))))
  | .release r => some (k.dropLk p (.holdingsleep (.returns r)))
  | .returns _ => some (k.goto p .idle)

def run (k : Kernel nproc) (p : Fin nproc) : Option (Kernel nproc) :=
  match (k.procs p).pos with
  | .idle => none
  | .acquiresleep pos => k.acquiresleep p pos
  | .releasesleep pos => k.releasesleep p pos
  | .holdingsleep pos => k.holdingsleep p pos

end Kernel

inductive Call
  | acquiresleep
  | releasesleep
  | holdingsleep
  deriving DecidableEq

def Call.pos : Call → Pos
  | .acquiresleep => .acquiresleep .acquire
  | .releasesleep => .releasesleep .acquire
  | .holdingsleep => .holdingsleep .acquire

/-- The steps of a process, and those of the rest of the kernel. -/
inductive Label (nproc : Nat)
  | call (p : Fin nproc) (call : Call)
  | run (p : Fin nproc)
  | kill (p : Fin nproc)
  | elsewhere (p : Fin nproc) (state : ProcState)
  | lockPtable
  | unlockPtable

/-- A process that has made itself `SLEEPING` still takes the step into `sched`. -/
def Proc.onCpu (proc : Proc) : Bool :=
  proc.state = .runnable || proc.pos = .acquiresleep (.sleep .sched)

def step (k : Kernel nproc) : Label nproc → Option (Kernel nproc)
  | .call p call =>
    if (k.procs p).pos = .idle ∧ (k.procs p).state = .runnable ∧
        (call = .releasesleep → (k.procs p).owns = true) then
      some (k.goto p call.pos)
    else none
  | .run p => if (k.procs p).onCpu then k.run p else none
  | .kill p => some (k.setProc p { k.procs p with toSleeper := (k.procs p).kill })
  | .elsewhere p state =>
    if (k.procs p).pos = .idle then
      some (k.setProc p { k.procs p with state, chan := some .other })
    else none
  | .lockPtable => if k.ptableLock = none then some { k with ptableLock := some .other } else none
  | .unlockPtable =>
    if k.ptableLock = some .other then some { k with ptableLock := none } else none

/-- After `initsleeplock`, with no process in one of the three functions. -/
structure Initial (k : Kernel nproc) : Prop where
  lk : k.lock.lk = none
  locked : k.lock.locked = false
  pid : k.lock.pid = 0
  ptableLock : k.ptableLock = none
  idle : ∀ p, (k.procs p).pos = .idle
  chan : ∀ p, (k.procs p).chan ≠ some .lk
  owns : ∀ p, (k.procs p).owns = false

def system (nproc : Nat) : System (Kernel nproc) (Label nproc) where
  init := Initial
  step := step

end Laboratorio.Xv6.Sleeplocks
