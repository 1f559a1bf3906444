import Laboratorio.Xv6.Pipe.Model

/-! # Who sleeps on a pipe

`Inv` ties every sleeper to the condition it waits out: either the condition still
holds, or the holder of `p->lock` has a `wakeup` of that address ahead of it
(`Frame.owes`).  Processes inside `sleep` that have released `p->lock` and are not yet
`SLEEPING` count as sleepers; `wakeup` cannot miss them because it needs
`ptable.lock` (`not_waits_wakeup1`).

One exit breaks the tie: `pipewrite` returns `-1` from a full pipe without
`wakeup(&p->nread)`, although it may have stored bytes since it took the lock.
`killedWriter_strands_reader` is a run in which a reader stays asleep on 512 bytes.
`pipe_no_sleeper_missed` holds for the runs in which no reader waits when that exit is
taken, and `early_return_strands` shows that any other run loses a reader.
-/

namespace Laboratorio.Xv6.Pipes

open Laboratorio.Lib Pipes.Frame Option Kernel

variable {chan : Chan} {kernel next : Kernel} {pid other : Pid} {addr : List UInt8}

/-- The frames of a process that holds `p->lock`. -/
def Frame.holdsLock : Frame → Bool
  | .idle => false
  | .pipewrite _ _ pos => (pos matches .loop | .wakeupReaders | .sleep .acquirePtable |
      .sleep .releaseLock | .finalWakeup | .release)
  | .piperead _ _ pos => (pos matches .whileEmpty | .sleep .acquirePtable | .sleep .releaseLock |
      .copy | .wakeupWriters | .release)
  | .pipeclose _ pos => (pos matches .setClosed | .wakeup | .release)

/-- The position of a process inside `sleep`, with the address it sleeps on. -/
def Frame.sleepAt : Frame → Option (Chan × SleepAt)
  | .pipewrite _ _ (.sleep pos) => some (.nwrite, pos)
  | .piperead _ _ (.sleep pos) => some (.nread, pos)
  | _ => none

/-- The frames of a process that has found the pipe full or empty and goes to sleep,
still holding `p->lock`. -/
def Frame.blockedOn : Frame → Option Chan
  | .pipewrite _ _ .wakeupReaders => some .nwrite
  | .pipewrite _ _ (.sleep .acquirePtable) | .pipewrite _ _ (.sleep .releaseLock) => some .nwrite
  | .piperead _ _ (.sleep .acquirePtable) | .piperead _ _ (.sleep .releaseLock) => some .nread
  | _ => none

/-- The frames from which `wakeup(chan)` is still ahead before `p->lock` is
released (the early return of `pipewrite` apart). -/
def Frame.owes : Frame → Chan → Bool
  | .pipewrite _ _ pos, .nread => (pos matches .loop | .wakeupReaders | .finalWakeup)
  | .piperead _ _ pos, .nwrite => (pos matches .copy | .wakeupWriters)
  | .pipeclose writable pos, chan => (pos matches .wakeup) && writable == (chan == .nread)
  | _, _ => false

theorem Frame.holdsLock_of_blockedOn {frame : Frame}
    (blocked : frame.blockedOn = some chan) : frame.holdsLock = true := by
  unfold blockedOn at blocked
  split at blocked <;> first | rfl | cases blocked

theorem Frame.holdsLock_of_owes {frame : Frame}
    (owes : frame.owes chan = true) : frame.holdsLock = true := by
  cases frame with
  | idle => simp [Frame.owes] at owes
  | pipewrite addr i pos => cases chan <;> cases pos <;> simp_all [Frame.owes, Frame.holdsLock]
  | piperead n addr pos => cases chan <;> cases pos <;> simp_all [Frame.owes, Frame.holdsLock]
  | pipeclose writable pos => cases pos <;> simp_all [Frame.owes, Frame.holdsLock]

/-- What a process waits out when it sleeps on an address. -/
def Pipe.Blocks (pipe : Pipe) : Chan → Prop
  | .nread => pipe.nread = pipe.nwrite ∧ pipe.writeopen = true
  | .nwrite => pipe.nwrite = pipe.nread + UInt32.ofNat pipeSize ∧ pipe.readopen = true

/-- `SLEEPING` on `chan`, or inside `sleep(chan, &p->lock)` past the release of
`p->lock` and about to become `SLEEPING`. -/
def Proc.Waits (proc : Proc) (chan : Chan) : Prop :=
  (proc.state = .sleeping ∧ proc.chan = some chan) ∨ proc.frame.sleepAt = some (chan, .goToSleep)

structure Inv (kernel : Kernel) : Prop where
  holder : ∀ pid, (kernel.procs pid).frame.holdsLock = true ↔ kernel.pipe.lock = some pid
  ptable : ∀ pid chan pos, (kernel.procs pid).frame.sleepAt = some (chan, pos) →
    pos = .releaseLock ∨ pos = .goToSleep → kernel.ptableLock = some pid
  blocked : ∀ pid chan, (kernel.procs pid).frame.blockedOn = some chan → kernel.pipe.Blocks chan
  waiting : ∀ pid chan, (kernel.procs pid).Waits chan → kernel.pipe.Blocks chan ∨
    ∃ owner, kernel.pipe.lock = some owner ∧ (kernel.procs owner).frame.owes chan = true

theorem inv_initial (initial : Initial kernel) : Inv kernel := by
  constructor
  · intro pid
    simp [(initial.procs pid).1, holdsLock, initial.lock]
  · intro pid chan pos sleeps
    simp [(initial.procs pid).1, sleepAt] at sleeps
  · intro pid chan blocked
    simp [(initial.procs pid).1, blockedOn] at blocked
  · intro pid chan waits
    simp [Proc.Waits, initial.procs pid, sleepAt] at waits

/-- What a step of `pid` must do for the invariant to survive it: the other
processes keep their frames and wait for no more than before, the locks stay with
their holders, and `pid` may end the condition that sleepers on `chan` wait out
only while it holds `p->lock` and owes them a `wakeup`. -/
structure Keeps (kernel : Kernel) (pid : Pid) (next : Kernel) : Prop where
  frames : ∀ other, other ≠ pid → (next.procs other).frame = (kernel.procs other).frame
  waits : ∀ other chan, (next.procs other).Waits chan →
    (kernel.procs other).Waits chan ∨ next.pipe.Blocks chan
  lockSelf : (next.procs pid).frame.holdsLock = true ↔ next.pipe.lock = some pid
  lockOthers : ∀ other, other ≠ pid →
    (next.pipe.lock = some other ↔ kernel.pipe.lock = some other)
  ptableSelf : ∀ chan pos, (next.procs pid).frame.sleepAt = some (chan, pos) →
    pos = .releaseLock ∨ pos = .goToSleep → next.ptableLock = some pid
  ptableOthers : ∀ other, other ≠ pid → kernel.ptableLock = some other →
    next.ptableLock = some other
  blockedSelf : ∀ chan, (next.procs pid).frame.blockedOn = some chan → next.pipe.Blocks chan
  blocks : ∀ chan, kernel.pipe.Blocks chan → next.pipe.Blocks chan ∨
    kernel.pipe.lock = some pid ∧ next.pipe.lock = some pid ∧
      (next.procs pid).frame.owes chan = true
  owes : ∀ chan, (kernel.procs pid).frame.owes chan = true →
    next.pipe.lock = some pid ∧ (next.procs pid).frame.owes chan = true ∨
      ∀ other, (next.procs other).Waits chan → next.pipe.Blocks chan

theorem Inv.step (inv : Inv kernel) (keeps : Keeps kernel pid next) : Inv next := by
  constructor
  · intro other
    by_cases same : other = pid
    · subst same
      exact keeps.lockSelf
    · rw [keeps.frames other same, keeps.lockOthers other same]
      exact inv.holder other
  · intro other chan pos sleeps position
    by_cases same : other = pid
    · subst same
      exact keeps.ptableSelf chan pos sleeps position
    · rw [keeps.frames other same] at sleeps
      exact keeps.ptableOthers other same (inv.ptable other chan pos sleeps position)
  · intro other chan blocked
    by_cases same : other = pid
    · subst same
      exact keeps.blockedSelf chan blocked
    · rw [keeps.frames other same] at blocked
      rcases keeps.blocks chan (inv.blocked other chan blocked) with blocks | owed
      · exact blocks
      · -- both `other` and `pid` would hold `p->lock`
        have holds := holdsLock_of_blockedOn blocked
        rw [inv.holder other, owed.1, some.injEq] at holds
        exact absurd holds.symm same
  · intro other chan waits
    rcases keeps.waits other chan waits with waited | blocks
    · rcases inv.waiting other chan waited with blocks | ⟨owner, holds, owes⟩
      · rcases keeps.blocks chan blocks with blocks | ⟨_, holds, owes⟩
        · exact Or.inl blocks
        · exact Or.inr ⟨pid, holds, owes⟩
      · by_cases own : owner = pid
        · subst own
          rcases keeps.owes chan owes with owed | settled
          · exact Or.inr ⟨owner, owed⟩
          · exact Or.inl (settled other waits)
        · refine Or.inr ⟨owner, (keeps.lockOthers owner own).mpr holds, ?_⟩
          rw [keeps.frames owner own]
          exact owes
    · exact Or.inl blocks

section Steps

variable {kernel next : Kernel} {pid : Pid} {frame : Frame}

@[simp] theorem goto_pipe : (kernel.goto pid frame).pipe = kernel.pipe := rfl

@[simp] theorem goto_ptableLock : (kernel.goto pid frame).ptableLock = kernel.ptableLock := rfl

@[simp] theorem goto_procs_self :
    (kernel.goto pid frame).procs pid = { kernel.procs pid with frame := frame } := by
  simp [goto, setProc]

theorem goto_procs_of_ne (different : other ≠ pid) :
    (kernel.goto pid frame).procs other = kernel.procs other := by
  simp [goto, setProc, different]

/-- A process whose frame is set by `goto` waits afterwards only if it did before,
or if the new frame is about to sleep. -/
theorem waits_goto (runs : (kernel.procs pid).state = .runnable)
    (waits : ((kernel.goto pid frame).procs other).Waits chan) :
    (kernel.procs other).Waits chan ∨ frame.sleepAt = some (chan, .goToSleep) := by
  by_cases same : other = pid
  · subst same
    rw [goto_procs_self] at waits
    rcases waits with ⟨sleeping, -⟩ | position
    · simp [runs] at sleeping
    · exact Or.inr position
  · rw [goto_procs_of_ne same] at waits
    exact Or.inl waits

theorem waits_of_wakeup1 {woken : Chan} (waits : ((kernel.wakeup1 woken).procs other).Waits chan) :
    (kernel.procs other).Waits chan := by
  rcases waits with ⟨sleeping, sleepsOn⟩ | position
  · simp only [wakeup1, Sleeper.wakeup1_chan] at sleepsOn
    exact Or.inl ⟨(Sleeper.asleep_of_wakeup1 sleeping).1, sleepsOn⟩
  · exact Or.inr position

/-- The scan of `wakeup` holds `ptable.lock`, so it cannot miss a process that has
released `p->lock` in `sleep` and is not yet `SLEEPING`. -/
theorem not_waits_wakeup1 (inv : Inv kernel) (free : kernel.ptableLock = none) :
    ¬ ((kernel.wakeup1 chan).procs other).Waits chan := by
  intro waits
  have going : (kernel.procs other).frame.sleepAt = some (chan, .goToSleep) := by
    rcases waits with ⟨sleeping, sleepsOn⟩ | position
    · simp only [wakeup1, Sleeper.wakeup1_chan] at sleepsOn
      exact absurd sleepsOn (Sleeper.asleep_of_wakeup1 sleeping).2
    · exact position
  have held := inv.ptable other chan _ going (Or.inr rfl)
  simp [free] at held

/-- A step that changes the process of `pid`, on one side of `p->lock`, and perhaps the holder of
`ptable.lock`. -/
theorem keeps_setProc {proc : Proc} {ptableLock : Option Pid} (inv : Inv kernel)
    (lock : proc.frame.holdsLock = (kernel.procs pid).frame.holdsLock)
    (waits : ∀ chan, proc.Waits chan → (kernel.procs pid).Waits chan)
    (ptableSelf : ∀ chan pos, proc.frame.sleepAt = some (chan, pos) →
      pos = .releaseLock ∨ pos = .goToSleep → ptableLock = some pid)
    (ptableOthers : ∀ other, other ≠ pid → kernel.ptableLock = some other →
      ptableLock = some other)
    (blocked : ∀ chan, proc.frame.blockedOn = some chan → kernel.pipe.Blocks chan)
    (owes : ∀ chan, (kernel.procs pid).frame.owes chan = true → proc.frame.owes chan = true) :
    Keeps kernel pid ({ kernel with ptableLock }.setProc pid proc) := by
  have self : ({ kernel with ptableLock }.setProc pid proc).procs pid = proc :=
    Function.update_self ..
  have others : ∀ other, other ≠ pid →
      ({ kernel with ptableLock }.setProc pid proc).procs other = kernel.procs other :=
    fun other different => Function.update_of_ne different ..
  constructor
  case frames => exact fun other different => congrArg Proc.frame (others other different)
  case waits =>
    intro other chan stillWaits
    left
    by_cases same : other = pid
    · subst same
      rw [self] at stillWaits
      exact waits chan stillWaits
    · rwa [others other same] at stillWaits
  case lockSelf =>
    rw [self, lock]
    exact inv.holder pid
  case lockOthers => exact fun _ _ => Iff.rfl
  case ptableSelf => rwa [self]
  case ptableOthers => exact ptableOthers
  case blockedSelf => rwa [self]
  case blocks => exact fun _ => Or.inl
  case owes =>
    intro chan owed
    left
    rw [self]
    exact ⟨(inv.holder pid).mp (holdsLock_of_owes owed), owes chan owed⟩

section Moves

variable {current : Frame} (runs : (kernel.procs pid).state = .runnable)
  (isCurrent : (kernel.procs pid).frame = current)
include runs isCurrent

theorem keeps_acquire (outside : current.holdsLock = false) (inside : frame.holdsLock = true)
    (awake : frame.sleepAt = none) (unblocked : frame.blockedOn = none)
    (taken : kernel.acquire pid frame = some next) : Keeps kernel pid next := by
  subst isCurrent
  obtain ⟨free, rfl⟩ := of_guard taken
  constructor
  · intro other different
    rw [goto_procs_of_ne different]
    rfl
  · intro other chan waits
    rcases waits_goto runs waits with waited | position
    · exact Or.inl waited
    · simp [awake] at position
  · simp [inside, setLock]
  · intro other different
    simp [free, setLock, Ne.symm different]
  · intro chan pos position
    simp [awake] at position
  · intro other different holds
    exact holds
  · intro chan blocked
    simp [unblocked] at blocked
  · intro chan blocks
    exact Or.inl blocks
  · intro chan owed
    have holds := holdsLock_of_owes owed
    simp [outside] at holds

variable (inv : Inv kernel)
include inv

/-- A step of `pid` that changes nothing but its position, on one side of the lock. -/
theorem keeps_goto (lock : frame.holdsLock = current.holdsLock)
    (sleeps : ∀ chan pos, frame.sleepAt = some (chan, pos) → pos = .acquirePtable)
    (blocked : ∀ chan, frame.blockedOn = some chan → kernel.pipe.Blocks chan)
    (owes : ∀ chan, current.owes chan = true → frame.owes chan = true) :
    Keeps kernel pid (kernel.goto pid frame) := by
  subst isCurrent
  apply keeps_setProc inv lock
  case waits =>
    rintro chan (⟨sleeping, -⟩ | position)
    · simp [runs] at sleeping
    · cases sleeps chan _ position
  case ptableSelf =>
    intro chan pos position inside
    obtain rfl := sleeps chan pos position
    simp at inside
  case ptableOthers => exact fun _ _ held => held
  case blocked => exact blocked
  case owes => exact owes

/-- `release(&p->lock)`, at the end of a call or inside `sleep`: nobody may be
waiting for a `wakeup` that `pid` still owed. -/
theorem keeps_release (inside : current.holdsLock = true) (outside : frame.holdsLock = false)
    (sleeps : ∀ chan pos, frame.sleepAt = some (chan, pos) →
      pos = .goToSleep ∧ kernel.pipe.Blocks chan ∧ kernel.ptableLock = some pid)
    (settled : ∀ chan, current.owes chan = true → ∀ other, ¬ (kernel.procs other).Waits chan) :
    Keeps kernel pid (kernel.release pid frame) := by
  subst isCurrent
  constructor
  case frames =>
    intro other different
    rw [release, goto_procs_of_ne different]
    rfl
  case waits =>
    intro other chan waits
    rcases waits_goto runs waits with waited | position
    · exact Or.inl waited
    · exact Or.inr (sleeps chan _ position).2.1
  case lockSelf => simp [release, setLock, outside]
  case lockOthers =>
    intro other different
    have held := (inv.holder pid).mp inside
    simp [release, setLock, held, Ne.symm different]
  case ptableSelf =>
    intro chan pos position _
    rw [release, goto_procs_self] at position
    exact (sleeps chan pos position).2.2
  case ptableOthers => exact fun _ _ held => held
  case blockedSelf =>
    intro chan blocked
    rw [release] at blocked
    have holds := holdsLock_of_blockedOn blocked
    simp [outside] at holds
  case blocks => exact fun _ => Or.inl
  case owes =>
    intro chan owed
    right
    intro other waits
    rcases waits_goto runs waits with waited | position
    · exact absurd waited (settled chan owed other)
    · exact (sleeps chan _ position).2.1

theorem keeps_wakeup (taken : kernel.wakeup pid chan frame = some next)
    (lock : frame.holdsLock = current.holdsLock)
    (sleeps : ∀ chan pos, frame.sleepAt = some (chan, pos) → pos = .acquirePtable)
    (blocked : ∀ chan, frame.blockedOn = some chan → kernel.pipe.Blocks chan)
    (owes : ∀ other, other ≠ chan → current.owes other = true → frame.owes other = true) :
    Keeps kernel pid next := by
  subst isCurrent
  obtain ⟨free, rfl⟩ := of_guard taken
  have stillRuns : ((kernel.wakeup1 chan).procs pid).state = .runnable := by
    simp [wakeup1, Sleeper.wakeup1, runs]
  constructor
  · intro other different
    rw [goto_procs_of_ne different, wakeup1]
  · intro other waitedOn waits
    rcases waits_goto stillRuns waits with waited | position
    · exact Or.inl (waits_of_wakeup1 waited)
    · cases sleeps waitedOn _ position
  · have holder := inv.holder pid
    rw [← lock] at holder
    rwa [goto_procs_self, goto_pipe]
  · intro other different
    exact Iff.rfl
  · intro sleepsOn pos position inside
    rw [goto_procs_self] at position
    obtain rfl := sleeps sleepsOn pos position
    simp at inside
  · intro other different holds
    exact holds
  · intro sleepsOn waits
    rw [goto_procs_self] at waits
    exact blocked sleepsOn waits
  · intro waitedOn blocks
    exact Or.inl blocks
  · intro waitedOn owed
    by_cases woken : waitedOn = chan
    · subst woken
      right
      intro other waits
      rcases waits_goto stillRuns waits with waited | position
      · exact absurd waited (not_waits_wakeup1 inv free)
      · cases sleeps waitedOn _ position
    · left
      rw [goto_procs_self]
      exact ⟨(inv.holder pid).mp (holdsLock_of_owes owed), owes waitedOn woken owed⟩

/-- Every position of `sleep(chan, &p->lock)` keeps the invariant; `at_` and `back`
are the frames of the caller, which slept because `chan` blocked it. -/
theorem keeps_sleep {at_ : SleepAt → Frame} {back : Frame} {pos : SleepAt}
    (isAt : current = at_ pos) (sleepAt : ∀ pos, (at_ pos).sleepAt = some (chan, pos))
    (holds : ∀ pos, (at_ pos).holdsLock = (pos matches .acquirePtable | .releaseLock))
    (blockedOn : ∀ pos, (at_ pos).blockedOn =
      if pos matches .acquirePtable | .releaseLock then some chan else none)
    (owes : ∀ pos other, (at_ pos).owes other = false)
    (backAwake : back.sleepAt = none) (backOutside : back.holdsLock = false)
    (taken : kernel.sleep pid chan at_ back pos = some next) : Keeps kernel pid next := by
  subst isAt
  have owesNone : ∀ other, ¬ (kernel.procs pid).frame.owes other = true := by
    simp [isCurrent, owes]
  cases pos with
  | acquirePtable =>
    obtain ⟨free, rfl⟩ := of_guard taken
    have blocks := inv.blocked pid chan (by rw [isCurrent, blockedOn]; rfl)
    apply keeps_setProc inv
    case lock => rw [isCurrent, holds, holds]
    case waits =>
      rintro waitedOn (⟨sleeping, -⟩ | position)
      · simp [runs] at sleeping
      · simp [sleepAt] at position
    case ptableSelf => exact fun _ _ _ _ => rfl
    case ptableOthers => simp [free]
    case blocked =>
      intro sleepsOn waits
      simp only [blockedOn, if_true, some.injEq] at waits
      exact waits ▸ blocks
    case owes => exact fun other owed => absurd owed (owesNone other)
  | releaseLock =>
    cases taken
    have blocks := inv.blocked pid chan (by rw [isCurrent, blockedOn]; rfl)
    have held := inv.ptable pid chan .releaseLock (isCurrent ▸ sleepAt _) (Or.inl rfl)
    refine keeps_release runs isCurrent inv (holds _) (holds _) ?_ ?_
    · intro sleepsOn pos position
      simp only [sleepAt, some.injEq, Prod.mk.injEq] at position
      exact ⟨position.2.symm, position.1 ▸ blocks, held⟩
    · intro waitedOn owed
      simp [owes] at owed
  | goToSleep =>
    cases taken
    have held := inv.ptable pid chan .goToSleep (isCurrent ▸ sleepAt _) (Or.inr rfl)
    apply keeps_setProc inv
    case lock => rw [isCurrent, holds, holds]
    case waits =>
      rintro waitedOn (⟨-, sameChan⟩ | position)
      · cases sameChan
        exact Or.inr (isCurrent ▸ sleepAt _)
      · simp [sleepAt] at position
    case ptableSelf =>
      intro sleepsOn pos position inside
      simp only [sleepAt] at position
      obtain ⟨-, rfl⟩ := position
      simp at inside
    case ptableOthers =>
      intro other different otherHeld
      rw [held, some.injEq] at otherHeld
      exact absurd otherHeld.symm different
    case blocked => simp [blockedOn]
    case owes => exact fun other owed => absurd owed (owesNone other)
  | asleep =>
    cases taken
    apply keeps_setProc inv
    case lock => rw [isCurrent, holds, backOutside]
    case waits =>
      rintro waitedOn (⟨-, sameChan⟩ | position)
      · cases sameChan
      · simp [backAwake] at position
    case ptableSelf => simp [backAwake]
    case ptableOthers => exact fun _ _ otherHeld => otherHeld
    case blocked =>
      intro sleepsOn waits
      have backHolds := holdsLock_of_blockedOn waits
      simp [backOutside] at backHolds
    case owes => exact fun other owed => absurd owed (owesNone other)

/-- A change of the pipe by the holder of `p->lock`, which keeps the lock. -/
theorem keeps_modify {changed : Kernel} (procs : changed.procs = kernel.procs)
    (ptable : changed.ptableLock = kernel.ptableLock)
    (lock : changed.pipe.lock = kernel.pipe.lock)
    (inside : current.holdsLock = true) (stays : frame.holdsLock = true)
    (awake : frame.sleepAt = none) (unblocked : frame.blockedOn = none)
    (blocks : ∀ chan, kernel.pipe.Blocks chan →
      changed.pipe.Blocks chan ∨ frame.owes chan = true)
    (owes : ∀ chan, current.owes chan = true → frame.owes chan = true) :
    Keeps kernel pid (changed.goto pid frame) := by
  subst isCurrent
  have held := (inv.holder pid).mp inside
  constructor
  · intro other different
    rw [goto_procs_of_ne different, procs]
  · intro other waitedOn waits
    rcases waits_goto (by rw [procs]; exact runs) waits with waited | position
    · rw [procs] at waited
      exact Or.inl waited
    · simp [awake] at position
  · simp [stays, lock, held]
  · intro other different
    rw [goto_pipe, lock]
  · intro sleepsOn pos position
    simp [awake] at position
  · intro other different otherHeld
    rw [goto_ptableLock, ptable]
    exact otherHeld
  · intro sleepsOn waits
    simp [unblocked] at waits
  · intro waitedOn blocked
    rcases blocks waitedOn blocked with blocked | owed
    · exact Or.inl blocked
    · right
      rw [goto_procs_self, goto_pipe, lock]
      exact ⟨held, held, owed⟩
  · intro waitedOn owed
    left
    rw [goto_procs_self, goto_pipe, lock]
    exact ⟨held, owes waitedOn owed⟩

end Moves

end Steps

/-! ## The early return of `pipewrite` -/

/-- `pid` is about to take `release(&p->lock); return -1;` in `pipewrite`. -/
def Kernel.ReturnsEarly (kernel : Kernel) (pid : Pid) : Prop :=
  ∃ addr i, (kernel.procs pid).frame = .pipewrite addr i .loop ∧ i < addr.length ∧
    kernel.pipe.full = true ∧
    (kernel.pipe.readopen = false ∨ (kernel.procs pid).killed = true)

/-- No process sleeps on `&p->nread`, or is about to, when a writer returns early. -/
def NoReaderLeft (kernel : Kernel) (label : Label) : Prop :=
  ∀ pid, label = .run pid → kernel.ReturnsEarly pid →
    ∀ other, ¬ (kernel.procs other).Waits .nread

section Calls

variable {kernel next : Kernel} {pid : Pid}

theorem pipewrite_keeps {i : Nat} {pos : WriteAt} (inv : Inv kernel)
    (runs : (kernel.procs pid).state = .runnable)
    (current : (kernel.procs pid).frame = .pipewrite addr i pos)
    (noReader : kernel.ReturnsEarly pid → ∀ other, ¬ (kernel.procs other).Waits .nread)
    (taken : kernel.pipewrite pid addr i pos = some next) : Keeps kernel pid next := by
  cases pos with
  | acquire => exact keeps_acquire runs current rfl rfl rfl rfl taken
  | loop =>
    simp only [Kernel.pipewrite] at taken
    split at taken
    · cases taken
      refine keeps_goto runs current inv rfl nofun nofun ?_
      intro chan
      cases chan <;> simp [Frame.owes]
    · rename_i byte fetched
      split at taken
      · rename_i full
        split at taken
        · rename_i gone
          cases taken
          have early : kernel.ReturnsEarly pid :=
            ⟨addr, i, current, (List.getElem?_eq_some_iff.mp fetched).1, full, gone⟩
          refine keeps_release runs current inv rfl rfl nofun ?_
          intro chan owed
          cases chan with
          | nread => exact noReader early
          | nwrite => cases owed
        · rename_i stays
          cases taken
          refine keeps_goto runs current inv rfl nofun ?_ ?_
          · intro chan blocked
            cases blocked
            simp only [Pipe.full, beq_iff_eq] at full
            exact ⟨full, by simpa using fun closed => stays (Or.inl closed)⟩
          · intro chan
            cases chan <;> simp [Frame.owes]
      · rename_i notFull
        cases taken
        refine keeps_modify runs current inv rfl rfl rfl rfl rfl rfl rfl ?_ ?_
        · intro chan blocks
          cases chan with
          | nread => exact Or.inr rfl
          | nwrite => simp [Pipe.full, blocks.1] at notFull
        · intro chan
          cases chan <;> simp [Frame.owes]
  | wakeupReaders =>
    have blocks := inv.blocked pid .nwrite (by rw [current]; rfl)
    refine keeps_wakeup runs current inv taken rfl ?_ ?_ ?_
    · intro chan pos position
      cases position
      rfl
    · intro chan blocked
      cases blocked
      exact blocks
    · intro other different owed
      cases other with
      | nread => exact absurd rfl different
      | nwrite => cases owed
  | sleep pos =>
    simp only [Kernel.pipewrite] at taken
    refine keeps_sleep runs current inv rfl (fun _ => rfl) ?_ ?_ ?_ rfl rfl taken
    · intro pos
      cases pos <;> rfl
    · intro pos
      cases pos <;> rfl
    · intro pos other
      cases other <;> rfl
  | finalWakeup =>
    refine keeps_wakeup runs current inv taken rfl nofun nofun ?_
    intro other different owed
    cases other with
    | nread => exact absurd rfl different
    | nwrite => cases owed
  | release =>
    cases taken
    refine keeps_release runs current inv rfl rfl nofun ?_
    intro chan owed
    cases chan <;> cases owed

theorem piperead_keeps {n : Nat} {pos : ReadAt} (inv : Inv kernel)
    (runs : (kernel.procs pid).state = .runnable)
    (current : (kernel.procs pid).frame = .piperead n addr pos)
    (taken : kernel.piperead pid n addr pos = some next) : Keeps kernel pid next := by
  cases pos with
  | acquire => exact keeps_acquire runs current rfl rfl rfl rfl taken
  | whileEmpty =>
    simp only [Kernel.piperead] at taken
    split at taken
    · rename_i empty
      split at taken
      · cases taken
        refine keeps_release runs current inv rfl rfl nofun ?_
        intro chan owed
        cases chan <;> cases owed
      · cases taken
        refine keeps_goto runs current inv rfl ?_ ?_ ?_
        · intro chan pos position
          cases position
          rfl
        · intro chan blocked
          cases blocked
          simpa [Pipe.empty, Pipe.Blocks] using empty
        · intro chan
          cases chan <;> simp [Frame.owes]
    · cases taken
      refine keeps_goto runs current inv rfl nofun nofun ?_
      intro chan
      cases chan <;> simp [Frame.owes]
  | sleep pos =>
    simp only [Kernel.piperead] at taken
    refine keeps_sleep runs current inv rfl (fun _ => rfl) ?_ ?_ ?_ rfl rfl taken
    · intro pos
      cases pos <;> rfl
    · intro pos
      cases pos <;> rfl
    · intro pos other
      cases other <;> rfl
  | copy =>
    have wakesWriters : Keeps kernel pid (kernel.goto pid (.piperead n addr .wakeupWriters)) := by
      refine keeps_goto runs current inv rfl nofun nofun ?_
      intro chan
      cases chan <;> simp [Frame.owes]
    simp only [Kernel.piperead] at taken
    split at taken
    · split at taken
      · cases taken
        exact wakesWriters
      · rename_i notEmpty
        cases taken
        refine keeps_modify runs current inv rfl rfl rfl rfl rfl rfl rfl ?_ ?_
        · intro chan blocks
          cases chan with
          | nread => simp [Pipe.empty, blocks.1] at notEmpty
          | nwrite => exact Or.inr rfl
        · intro chan
          cases chan <;> simp [Frame.owes]
    · cases taken
      exact wakesWriters
  | wakeupWriters =>
    refine keeps_wakeup runs current inv taken rfl nofun nofun ?_
    intro other different owed
    cases other with
    | nread => cases owed
    | nwrite => exact absurd rfl different
  | release =>
    cases taken
    refine keeps_release runs current inv rfl rfl nofun ?_
    intro chan owed
    cases chan <;> cases owed

theorem pipeclose_keeps {writable : Bool} {pos : CloseAt} (inv : Inv kernel)
    (runs : (kernel.procs pid).state = .runnable)
    (current : (kernel.procs pid).frame = .pipeclose writable pos)
    (taken : kernel.pipeclose pid writable pos = some next) : Keeps kernel pid next := by
  cases pos with
  | acquire => exact keeps_acquire runs current rfl rfl rfl rfl taken
  | setClosed =>
    cases taken
    refine keeps_modify runs current inv rfl rfl ?_ rfl rfl rfl rfl ?_ ?_
    · cases writable <;> rfl
    · intro chan blocks
      cases writable <;> cases chan
      · exact Or.inl blocks
      · exact Or.inr rfl
      · exact Or.inr rfl
      · exact Or.inl blocks
    · intro chan owed
      cases owed
  | wakeup =>
    refine keeps_wakeup runs current inv taken rfl nofun nofun ?_
    intro other different owed
    cases writable <;> cases other <;> simp [Frame.owes] at owed different
  | release =>
    have released : Keeps kernel pid (kernel.release pid .idle) := by
      refine keeps_release runs current inv rfl rfl nofun ?_
      intro chan owed
      cases owed
    simp only [Kernel.pipeclose] at taken
    split at taken
    · cases taken
      exact ⟨released.frames, released.waits, released.lockSelf, released.lockOthers,
        released.ptableSelf, released.ptableOthers, released.blockedSelf, released.blocks,
        released.owes⟩
    · cases taken
      exact released

theorem kill_keeps (inv : Inv kernel) (taken : kernel.kill pid = some next) :
    Keeps kernel pid next := by
  obtain ⟨free, rfl⟩ := of_guard taken
  apply keeps_setProc inv
  case lock => rfl
  case waits =>
    rintro chan (⟨sleeping, -⟩ | position)
    · exact absurd sleeping Sleeper.kill_awake
    · exact Or.inr position
  case ptableSelf => exact inv.ptable pid
  case ptableOthers => exact fun _ _ held => held
  case blocked => exact inv.blocked pid
  case owes => exact fun _ owed => owed

end Calls

theorem inv_step {label : Label} (inv : Inv kernel)
    (noReader : NoReaderLeft kernel label) (taken : step kernel label = some next) : Inv next := by
  cases label with
  | call pid call =>
    obtain ⟨ready, rfl⟩ := of_guard taken
    refine inv.step (keeps_goto ready.2 ready.1 inv ?_ ?_ ?_ nofun)
    · cases call <;> rfl
    · cases call <;> simp [Call.frame, sleepAt]
    · cases call <;> simp [Call.frame, blockedOn]
  | kill pid => exact inv.step (kill_keeps inv taken)
  | run pid =>
    obtain ⟨allowed, taken⟩ := ite_none_left_eq_some.mp taken
    have runs := not_not.mp (not_or.mp allowed).2
    unfold advance at taken
    split at taken
    · cases taken
    · rename_i current
      exact inv.step (pipewrite_keeps inv runs current (noReader pid rfl) taken)
    · rename_i current
      exact inv.step (piperead_keeps inv runs current taken)
    · rename_i current
      exact inv.step (pipeclose_keeps inv runs current taken)

theorem inv_reachable (reachable : system.ReachableWhen NoReaderLeft kernel) : Inv kernel := by
  refine reachable.invariant inv_initial ?_
  intro state label next _ inv allowed taken
  exact inv_step inv allowed taken

/-- What the sleepers of a pipe wait for, when `p->lock` is free: a process that is
`SLEEPING` on `&p->nread` finds the pipe empty with its write end open, one that is
`SLEEPING` on `&p->nwrite` finds it full with its read end open. -/
def NoSleeperMissed (kernel : Kernel) : Prop :=
  kernel.pipe.lock = none → ∀ pid, (kernel.procs pid).state = .sleeping →
    ((kernel.procs pid).chan = some .nread →
      kernel.pipe.nread = kernel.pipe.nwrite ∧ kernel.pipe.writeopen = true) ∧
    ((kernel.procs pid).chan = some .nwrite →
      kernel.pipe.nwrite = kernel.pipe.nread + UInt32.ofNat pipeSize ∧
        kernel.pipe.readopen = true)

theorem Inv.noSleeperMissed (inv : Inv kernel) : NoSleeperMissed kernel := by
  intro free pid sleeping
  have blocks : ∀ chan, (kernel.procs pid).chan = some chan → kernel.pipe.Blocks chan := by
    intro chan sleepsOn
    rcases inv.waiting pid chan (Or.inl ⟨sleeping, sleepsOn⟩) with blocks | ⟨owner, held, -⟩
    · exact blocks
    · simp [free] at held
  exact ⟨blocks .nread, blocks .nwrite⟩

/-- In every run in which no writer returns early past a waiting reader, no process
is left asleep on a pipe that it could use. -/
theorem pipe_no_sleeper_missed {kernel : Kernel}
    (reachable : system.ReachableWhen NoReaderLeft kernel) : NoSleeperMissed kernel :=
  (inv_reachable reachable).noSleeperMissed

/-- The steps of processes that are not inside `pipewrite`. -/
def notWriting (kernel : Kernel) : Label → Bool
  | .run pid =>
    match (kernel.procs pid).frame with
    | .pipewrite _ _ _ => false
    | _ => true
  | _ => true

theorem noReaderLeft_of_notWriting {label : Label}
    (outside : notWriting kernel label = true) : NoReaderLeft kernel label := by
  rintro pid rfl ⟨addr, i, frame, -⟩
  simp [notWriting, frame] at outside

theorem reader_asleep_on_empty_pipe : ∃ kernel, system.ReachableWhen NoReaderLeft kernel ∧
    (kernel.procs 0).state = .sleeping ∧ (kernel.procs 0).chan = some .nread ∧
    NoSleeperMissed kernel := by
  have evaluated : ((system.runWhen (fun kernel label => notWriting kernel label = true) fresh
      (.call 0 (.piperead 1) :: List.replicate 5 (.run 0))).map fun kernel =>
        ((kernel.procs 0).state, (kernel.procs 0).chan)) = some (.sleeping, some .nread) := rfl
  obtain ⟨kernel, run, values⟩ := map_eq_some_iff.mp evaluated
  simp only [Prod.mk.injEq] at values
  have reachable : system.ReachableWhen NoReaderLeft kernel :=
    System.ReachableWhen.mono (fun _ _ => noReaderLeft_of_notWriting)
      (.of_runWhen (.init fresh_initial) run)
  exact ⟨kernel, reachable, values.1, values.2, pipe_no_sleeper_missed reachable⟩

/-- The condition is needed at each step: a writer that returns early while a reader is
`SLEEPING` leaves it asleep on a full pipe. -/
theorem early_return_strands {reader : Pid}
    (runs : (kernel.procs pid).state = .runnable) (live : kernel.freed = false)
    (early : kernel.ReturnsEarly pid) (sleeping : (kernel.procs reader).state = .sleeping)
    (waits : (kernel.procs reader).chan = some .nread)
    (taken : step kernel (.run pid) = some next) : ¬ NoSleeperMissed next := by
  obtain ⟨addr, i, current, bound, full, gone⟩ := early
  have different : reader ≠ pid := by
    rintro rfl
    simp [runs] at sleeping
  simp only [step, live, runs, Kernel.advance, current, Kernel.pipewrite,
    List.getElem?_eq_getElem bound, full, gone] at taken
  cases taken
  intro missed
  have proc : ((kernel.release pid .idle).procs reader) = kernel.procs reader := by
    rw [Kernel.release, goto_procs_of_ne different]
    rfl
  have empty := ((missed rfl reader (by rw [proc]; exact sleeping)).1 (by rw [proc]; exact waits)).1
  simp only [Kernel.release, goto_pipe, Kernel.setLock] at empty
  simp only [Pipe.full, beq_iff_eq, ← empty] at full
  have counters := congrArg UInt32.toNat full
  simp only [UInt32.toNat_add, UInt32.toNat_ofNat', pipeSize] at counters
  omega

/-- A writer that runs alone stores its bytes one a step until the pipe is full. -/
theorem writer_stores (count : Nat) {i : Nat}
    (reachable : system.Reachable kernel) (live : kernel.freed = false)
    (runs : (kernel.procs pid).state = .runnable)
    (current : (kernel.procs pid).frame = .pipewrite addr i .loop) (bytes : i + count ≤ addr.length)
    (room : ∀ stored, stored < count →
      kernel.pipe.nwrite + UInt32.ofNat stored ≠ kernel.pipe.nread + UInt32.ofNat pipeSize) :
    ∃ next, system.Reachable next ∧ next.freed = false ∧
      next.procs pid = { kernel.procs pid with frame := .pipewrite addr (i + count) .loop } ∧
      (∀ other, other ≠ pid → next.procs other = kernel.procs other) ∧
      next.pipe.nread = kernel.pipe.nread ∧
      next.pipe.nwrite = kernel.pipe.nwrite + UInt32.ofNat count := by
  induction count with
  | zero =>
    refine ⟨kernel, reachable, live, ?_, fun _ _ => rfl, rfl, ?_⟩
    · simp [← current]
    · simp
  | succ count ih =>
    obtain ⟨before, reached, stillLive, writer, others, nread, nwrite⟩ :=
      ih (by omega) (fun stored small => room stored (by omega))
    have notFull : before.pipe.full = false := by
      simpa [Pipe.full, nread, nwrite] using room count (by omega)
    have bound : i + count < addr.length := by omega
    have taken : step before (.run pid) = some ((before.store addr[i + count]).goto pid
        (.pipewrite addr (i + count + 1) .loop)) := by
      simp [step, stillLive, writer, runs, Kernel.advance, Kernel.pipewrite,
        List.getElem?_eq_getElem bound, notFull]
    refine ⟨_, .step (.run pid) reached trivial taken, stillLive, ?_, ?_, nread, ?_⟩
    · rw [goto_procs_self]
      simp only [Kernel.store, writer]
      rfl
    · intro other different
      rw [goto_procs_of_ne different]
      exact others other different
    · simp only [Kernel.store, nwrite, UInt32.ofNat_add, UInt32.add_assoc]
      rfl

def longBuffer : List UInt8 :=
  List.replicate (pipeSize + 1) 7

theorem longBuffer_length : longBuffer.length = pipeSize + 1 :=
  List.length_replicate

/-- Process 0 reads from the empty pipe and falls asleep; process 1 enters `pipewrite`
with 513 bytes and is killed. -/
def killedWriter : List Label :=
  .call 0 (.piperead 1) :: List.replicate 5 (.run 0) ++
    [.call 1 (.pipewrite longBuffer), .run 1, .kill 1]

theorem killedWriter_strands_reader :
    ∃ kernel, system.Reachable kernel ∧ ¬ NoSleeperMissed kernel := by
  have evaluated : ((system.runWhen (fun _ _ => True) fresh killedWriter).map fun kernel =>
      (kernel.freed, (kernel.procs 0).state, (kernel.procs 0).chan, (kernel.procs 1).state,
        (kernel.procs 1).killed, (kernel.procs 1).frame, kernel.pipe.nread,
        kernel.pipe.nwrite)) =
      some (false, .sleeping, some .nread, .runnable, true,
        .pipewrite longBuffer 0 .loop, 0, 0) := rfl
  obtain ⟨kernel, run, values⟩ := Option.map_eq_some_iff.mp evaluated
  simp only [Prod.mk.injEq] at values
  obtain ⟨live, sleeping, waits, runs, killed, current, nread, nwrite⟩ := values
  have reachable : system.Reachable kernel := .of_runWhen (.init fresh_initial) run
  obtain ⟨full, reached, stillLive, writer, others, fullRead, fullWrite⟩ :=
    writer_stores pipeSize reachable live runs current
      (by rw [longBuffer_length]; omega) (by
        intro stored small same
        rw [nread, nwrite] at same
        have counters := congrArg UInt32.toNat same
        simp only [pipeSize] at counters small
        simp at counters
        omega)
  have early : full.ReturnsEarly 1 := by
    refine ⟨longBuffer, 0 + pipeSize, ?_, ?_, ?_, Or.inr ?_⟩
    · rw [writer]
    · rw [longBuffer_length]
      omega
    · simp [Pipe.full, fullRead, fullWrite, nread, nwrite]
    · rw [writer]
      exact killed
  have reader : full.procs 0 = kernel.procs 0 := others 0 (by decide)
  have writerRuns : (full.procs 1).state = .runnable := by
    rw [writer]
    exact runs
  obtain ⟨next, taken⟩ : ∃ next, step full (.run 1) = some next := by
    obtain ⟨addr, i, frame, bound, isFull, gone⟩ := early
    simp [step, stillLive, writerRuns, Kernel.advance, frame, Kernel.pipewrite,
      List.getElem?_eq_getElem bound, isFull, gone]
  refine ⟨next, .step (.run 1) reached trivial taken, ?_⟩
  exact early_return_strands writerRuns stillLive early (by rw [reader]; exact sleeping)
    (by rw [reader]; exact waits) taken

end Laboratorio.Xv6.Pipes
