import Laboratorio.Xv6.Sched.Model

/-! # Who deals with which process

What a CPU may assume about the process table is read off the code it executes
(`Thread.Agrees`).  A process that some CPU deals with is either running there, with a state
that only this CPU changes, or the CPU holds `ptable.lock`; so no step of another CPU
interferes.  `Inv.change` says once what a step has to establish.
-/

namespace Laboratorio.Xv6.Sched

open Laboratorio.Lib Proc Code

variable {nproc ncpu : Nat} {q p : Fin nproc} {procs procs' : Fin nproc → Proc nproc}

/-! ## What the code says about the state -/

/-- The state in which a process gives up its CPU. -/
def After.state : After nproc → ProcState
  | .yield _ => .runnable
  | .sleep => .sleeping
  | .wait => .sleeping
  | .exit => .zombie
  | .forkret => .runnable

def After.base : After nproc → Base nproc
  | .yield back => back
  | _ => .user

/-- The process that `fork` is creating. -/
def Base.np : Base nproc → Option (Fin nproc)
  | .user => none
  | .forkKstack np => some np
  | .forkPgdir np => some np
  | .forkParent np => some np
  | .forkReady np => some np

namespace Code

def holds : Code nproc → Bool
  | .at _ => false
  | .acquire _ _ => false
  | _ => true

/-- Code of a process in state `RUNNING`: not between the change of the state and the end of the
`swtch`, nor after the `sched()` of `exit`. -/
def works : Code nproc → Bool
  | .swtchSave _ => false
  | .swtchLoad _ => false
  | .zombieExit => false
  | _ => true

/-- Where the code goes on after the critical section. -/
def base : Code nproc → Base nproc
  | .at base => base
  | .acquire (.forkRunnable np) _ => .forkReady np
  | .acquire _ back => back
  | .yieldState back => back
  | .swtchSave after => after.base
  | .swtchLoad after => after.base
  | .wakeupScan _ _ back => back
  | .forkRunnable np => .forkReady np
  | .release back => back
  | _ => .user

/-- The child that `wait` is freeing. -/
def reaps : Code nproc → Option (Fin nproc)
  | .waitKfree q => some q
  | .waitFreevm q => some q
  | .waitUnused q => some q
  | _ => none

end Code

namespace Thread

def holds : Thread nproc → Bool
  | .proc _ code => code.holds
  | .scheduler .idle => false
  | .scheduler (.intrAcquire _) => false
  | .scheduler _ => true

/-- The process that is `c->proc`. -/
def owner : Thread nproc → Option (Fin nproc)
  | .proc p _ => some p
  | .scheduler (.switchuvm p) => some p
  | .scheduler (.setRunning p) => some p
  | .scheduler (.swtchSave p) => some p
  | .scheduler (.swtchLoad p) => some p
  | .scheduler (.switchkvm p) => some p
  | .scheduler (.clearProc p) => some p
  | .scheduler _ => none

/-- The process whose page directory is loaded. -/
def space : Thread nproc → Option (Fin nproc)
  | .proc p _ => some p
  | .scheduler (.setRunning p) => some p
  | .scheduler (.swtchSave p) => some p
  | .scheduler (.swtchLoad p) => some p
  | .scheduler (.switchkvm p) => some p
  | .scheduler _ => none

/-- The process that comes back to the saved context of the scheduler. -/
def returns : Thread nproc → Option (Fin nproc)
  | .proc p _ => some p
  | .scheduler (.swtchLoad p) => some p
  | .scheduler _ => none

/-- The process that the CPU runs, or is about to resume, in state `RUNNING`. -/
def runs : Thread nproc → Option (Fin nproc)
  | .proc p code => if code.works then some p else none
  | .scheduler (.swtchSave p) => some p
  | .scheduler (.swtchLoad p) => some p
  | .scheduler _ => none

/-- The process that the CPU found under the lock: to run it, or to free it. -/
def target : Thread nproc → Option (Fin nproc)
  | .proc _ code => code.reaps
  | .scheduler (.setProc p) => some p
  | .scheduler _ => none

/-- The process whose state was changed but whose context is not saved yet. -/
def saves : Thread nproc → Option (Fin nproc)
  | .proc p (.swtchSave _) => some p
  | _ => none

end Thread

/-- The process has a context to go on from. -/
def Proc.Saved (proc : Proc nproc) : Prop := ∃ after, proc.context = some after ∧ after ≠ .exit

/-- The process can be run, now or after a `wakeup`. -/
def Proc.Waits (proc : Proc nproc) : Prop := proc.state = .runnable ∨ proc.state = .sleeping

/-- What a CPU may assume about the process table. -/
def Thread.Agrees (procs : Fin nproc → Proc nproc) : Thread nproc → Prop
  | .proc p (.swtchSave after) =>
    (procs p).state = after.state ∧ (procs p).context = none
  | .proc p (.swtchLoad after) =>
    (procs p).state = after.state ∧ (procs p).context = some after
  | .proc _ .zombieExit => False
  | .proc p code =>
    (procs p).state = .running ∧ (procs p).context = none ∧
      ∀ q, code.reaps = some q → (procs q).state = .zombie
  | .scheduler (.setProc p) => (procs p).state = .runnable ∧ (procs p).Saved
  | .scheduler (.switchuvm p) => (procs p).state = .runnable ∧ (procs p).Saved
  | .scheduler (.setRunning p) => (procs p).state = .runnable ∧ (procs p).Saved
  | .scheduler (.swtchSave p) => (procs p).state = .running ∧ (procs p).Saved
  | .scheduler (.swtchLoad p) => (procs p).state = .running ∧ (procs p).Saved
  | .scheduler (.switchkvm p) => (procs p).Waits ∨ (procs p).state = .zombie
  | .scheduler (.clearProc p) => (procs p).Waits ∨ (procs p).state = .zombie
  | .scheduler _ => True

/-- What `fork` has given the new process so far. -/
def Base.Ready (procs : Fin nproc → Proc nproc) : Base nproc → Prop
  | .user => True
  | .forkKstack np => (procs np).state = .embryo
  | .forkPgdir np =>
    (procs np).state = .embryo ∧ (procs np).kstack = true ∧ (procs np).context = some .forkret
  | .forkParent np =>
    (procs np).state = .embryo ∧ (procs np).kstack = true ∧ (procs np).pgdir = true ∧
      (procs np).context = some .forkret
  | .forkReady np =>
    (procs np).state = .embryo ∧ (procs np).kstack = true ∧ (procs np).pgdir = true ∧
      (procs np).context = some .forkret

namespace Kernel

variable (k : Kernel nproc ncpu)

def thread (c : Fin ncpu) : Thread nproc := (k.cpus c).thread

/-- The code of process `p`, on a CPU or in its saved context, goes on at `base`. -/
def At (p : Fin nproc) (base : Base nproc) : Prop :=
  (∃ c code, k.thread c = .proc p code ∧ code.base = base) ∨
    ∃ after, (k.procs p).context = some after ∧ after.base = base

def Forks (p np : Fin nproc) : Prop := ∃ base, k.At p base ∧ base.np = some np

end Kernel

/-! ## The invariant -/

structure CpuOk (k : Kernel nproc ncpu) (c : Fin ncpu) : Prop where
  lock : (k.thread c).holds = true ↔ k.lock = some c
  proc : (k.cpus c).proc = (k.thread c).owner
  cr3 : (k.cpus c).cr3 = (k.thread c).space
  scheduler : ∀ p, (k.thread c).returns = some p → (k.cpus c).scheduler = some p
  agrees : (k.thread c).Agrees k.procs

structure Inv (k : Kernel nproc ncpu) : Prop where
  cpu : ∀ c, CpuOk k c
  one : ∀ c c' p, (k.thread c).owner = some p → (k.thread c').owner = some p → c = c'
  running : ∀ p, (k.procs p).state = .running → ∃ c, (k.thread c).runs = some p
  ready : ∀ p, (k.procs p).Waits → (k.procs p).Saved ∨ ∃ c, (k.thread c).saves = some p
  space : ∀ p, (k.procs p).Waits ∨ (k.procs p).state = .running →
    (k.procs p).kstack = true ∧ (k.procs p).pgdir = true
  forks : ∀ p base, k.At p base → base.Ready k.procs
  sole : ∀ p p' np, k.Forks p np → k.Forks p' np → p = p'

/-! ## Facts about one thread -/

/-- The fields that the invariant is about. -/
def Proc.core (proc : Proc nproc) : ProcState × Bool × Bool × Option (After nproc) :=
  (proc.state, proc.kstack, proc.pgdir, proc.context)

theorem Proc.core_eq {proc proc' : Proc nproc} (same : proc'.core = proc.core) :
    proc'.state = proc.state ∧ proc'.kstack = proc.kstack ∧ proc'.pgdir = proc.pgdir ∧
      proc'.context = proc.context := by
  simpa only [core, Prod.mk.injEq] using same

def Thread.Minds (thread : Thread nproc) (q : Fin nproc) : Prop :=
  thread.owner = some q ∨ thread.target = some q

theorem Thread.Agrees.congr {thread : Thread nproc} (agrees : thread.Agrees procs)
    (same : ∀ q, thread.Minds q → (procs' q).core = (procs q).core) : thread.Agrees procs' := by
  -- a thread only speaks of its own process and of the one it has found
  have state : ∀ q, thread.Minds q → (procs' q).state = (procs q).state :=
    fun q minds => (core_eq (same q minds)).1
  have context : ∀ q, thread.Minds q → (procs' q).context = (procs q).context :=
    fun q minds => (core_eq (same q minds)).2.2.2
  cases thread with
  | proc p code =>
    have own := state p (.inl rfl)
    have ownContext := context p (.inl rfl)
    have found : ∀ q, code.reaps = some q → (procs' q).state = (procs q).state :=
      fun q reaps => state q (.inr reaps)
    cases code <;> simp_all [Agrees, reaps]
  | scheduler code =>
    cases code <;> simp_all [Agrees, Minds, owner, target, Proc.Saved, Proc.Waits]

theorem After.state_cases (after : After nproc) :
    after.state = .runnable ∨ after.state = .sleeping ∨ after.state = .zombie := by
  cases after <;> simp [state]

theorem After.state_ne_running (after : After nproc) : after.state ≠ .running := by
  cases after <;> nofun

/-- A process some CPU deals with is running there, or the CPU holds the lock. -/
theorem Thread.Agrees.minded {thread : Thread nproc}
    (agrees : thread.Agrees procs) (minds : thread.Minds q) :
    (procs q).state ≠ .unused ∧ (procs q).state ≠ .embryo ∧
      (thread.holds = true ∨ (procs q).state = .running) := by
  cases thread with
  | proc p code =>
    rcases minds with own | found
    · cases own
      cases code with
      | swtchSave after =>
        have left := after.state_cases
        rw [← agrees.1] at left
        rcases left with left | left | left <;> simp [left, holds, Code.holds]
      | swtchLoad after =>
        have left := after.state_cases
        rw [← agrees.1] at left
        rcases left with left | left | left <;> simp [left, holds, Code.holds]
      | _ => simp_all [Agrees]
    · simp only [target] at found
      cases code <;> simp_all [Agrees, holds, Code.holds, Code.reaps]
  | scheduler code =>
    cases code with
    | switchkvm p =>
      simp only [Minds, target, reduceCtorEq, or_false] at minds
      cases minds
      rcases agrees with (left | left) | left <;> simp [left, holds]
    | clearProc p =>
      simp only [Minds, target, reduceCtorEq, or_false] at minds
      cases minds
      rcases agrees with (left | left) | left <;> simp [left, holds]
    | _ => simp_all [Agrees, Minds, owner, target, holds]

theorem Thread.owner_of_runs {thread : Thread nproc}
    (runs : thread.runs = some p) : thread.owner = some p := by
  cases thread with
  | proc q code =>
    simp only [Thread.runs] at runs
    split at runs
    · exact runs
    · cases runs
  | scheduler code => cases code <;> simp_all [Thread.runs, owner]

theorem Thread.owner_of_space {thread : Thread nproc}
    (space : thread.space = some p) : thread.owner = some p := by
  cases thread with
  | proc q code => exact space
  | scheduler code => cases code <;> simp_all [Thread.space, owner]

theorem Thread.owner_of_saves {thread : Thread nproc}
    (saves : thread.saves = some p) : thread.owner = some p := by
  cases thread with
  | proc q code => cases code <;> simp_all [Thread.saves, owner]
  | scheduler code => cases saves

theorem Thread.holds_of_target {thread : Thread nproc}
    (found : thread.target = some q) : thread.holds = true := by
  cases thread with
  | proc p code => cases code <;> simp_all [target, Code.reaps, holds, Code.holds]
  | scheduler code => cases code <;> simp_all [target, holds]

theorem Base.Ready.embryo {base : Base nproc} (ready : base.Ready procs) {np : Fin nproc}
    (forked : base.np = some np) : (procs np).state = .embryo := by
  cases base <;> simp_all [Ready, Base.np]

theorem Base.Ready.congr {base : Base nproc} (ready : base.Ready procs)
    (same : ∀ np, base.np = some np → (procs' np).core = (procs np).core) : base.Ready procs' := by
  cases base with
  | user => trivial
  | forkKstack np | forkPgdir np | forkParent np | forkReady np =>
    have fields := core_eq (same np rfl)
    simpa only [Ready, fields.1, fields.2.1, fields.2.2.1, fields.2.2.2] using ready

/-! ## What a step of one CPU has to establish -/

namespace Inv

variable {k k' : Kernel nproc ncpu} {c : Fin ncpu}

/-- Nobody else deals with a process that is not running while this CPU holds the lock. -/
theorem alone (inv : Inv k) (held : k.lock = some c) (stopped : (k.procs q).state ≠ .running) :
    ∀ c', c' ≠ c → ¬ (k.thread c').Minds q := by
  intro c' other minds
  rcases ((inv.cpu c').agrees.minded minds).2.2 with holds | running
  · have held' := (inv.cpu c').lock.mp holds
    rw [held] at held'
    exact other (Option.some.inj held').symm
  · exact stopped running

/-- Nobody deals with a process that is still being created. -/
theorem unminded (inv : Inv k) (fresh : (k.procs q).state = .embryo ∨ (k.procs q).state = .unused)
    (c : Fin ncpu) : ¬ (k.thread c).Minds q := by
  intro minds
  obtain ⟨used, formed, -⟩ := (inv.cpu c).agrees.minded minds
  exact fresh.elim formed used

/-- A step of CPU `c` that changes at most process `q`. -/
structure Change (k k' : Kernel nproc ncpu) (c : Fin ncpu) (q : Fin nproc) : Prop where
  cpus : ∀ c', c' ≠ c → k'.cpus c' = k.cpus c'
  procs : ∀ r, r ≠ q → (k'.procs r).core = (k.procs r).core
  lock : ∀ c', c' ≠ c → (k'.lock = some c' ↔ k.lock = some c')

/-- What holds after the step for a process `np` that `p` is creating: `p` was creating it before,
or it has just taken a free entry. -/
def Creates (k k' : Kernel nproc ncpu) (c : Fin ncpu) (p : Fin nproc) (base : Base nproc)
    (np : Fin nproc) : Prop :=
  base.Ready k'.procs ∧
    (k.Forks p np ∨ (∃ code, k'.thread c = .proc p code) ∧ ∀ p', ¬ k.Forks p' np)

theorem change (inv : Inv k) (change : Change k k' c q)
    (own : CpuOk k' c)
    (alone : (k'.procs q).core = (k.procs q).core ∨ ∀ c', c' ≠ c → ¬ (k.thread c').Minds q)
    (takes : ∀ p, (k'.thread c).owner = some p →
      ∀ c', c' ≠ c → (k.thread c').owner ≠ some p)
    (running : ∀ p, (k'.procs p).state = .running →
      (k'.thread c).runs = some p ∨
        (k.procs p).state = .running ∧ (k.thread c).runs ≠ some p)
    (ready : ∀ p, (k'.procs p).Waits →
      (k'.procs p).Saved ∨ (k'.thread c).saves = some p ∨
        (k.procs p).Waits ∧ (k'.procs p).context = (k.procs p).context ∧
          (k.thread c).saves ≠ some p)
    (space : (k'.procs q).Waits ∨ (k'.procs q).state = .running →
      (k'.procs q).kstack = true ∧ (k'.procs q).pgdir = true)
    (forks : ∀ p base np, k'.At p base → base.np = some np → Creates k k' c p base np) :
    Inv k' := by
  have thread : ∀ c', c' ≠ c → k'.thread c' = k.thread c' :=
    fun c' other => congrArg Cpu.thread (change.cpus c' other)
  refine ⟨?_, ?_, ?_, ?_, ?_, ?_, ?_⟩
  · intro c'
    by_cases here : c' = c
    · subst here
      exact own
    · have old := inv.cpu c'
      have agrees : (k.thread c').Agrees k'.procs := by
        apply old.agrees.congr
        intro r minds
        by_cases touched : r = q
        · subst touched
          exact alone.resolve_right fun lonely => lonely c' here minds
        · exact change.procs r touched
      refine ⟨?_, ?_, ?_, ?_, ?_⟩
      · rw [thread c' here, change.lock c' here]
        exact old.lock
      · rw [thread c' here, change.cpus c' here]
        exact old.proc
      · rw [thread c' here, change.cpus c' here]
        exact old.cr3
      · rw [thread c' here, change.cpus c' here]
        exact old.scheduler
      · rw [thread c' here]
        exact agrees
  · intro c₁ c₂ p first second
    by_cases here₁ : c₁ = c
    · subst here₁
      by_cases here₂ : c₂ = c₁
      · exact here₂.symm
      · rw [thread c₂ here₂] at second
        exact absurd second (takes p first c₂ here₂)
    · by_cases here₂ : c₂ = c
      · subst here₂
        rw [thread c₁ here₁] at first
        exact absurd first (takes p second c₁ here₁)
      · rw [thread c₁ here₁] at first
        rw [thread c₂ here₂] at second
        exact inv.one c₁ c₂ p first second
  · intro p runs
    rcases running p runs with now | ⟨before, elsewhere⟩
    · exact ⟨c, now⟩
    · obtain ⟨c', at_⟩ := inv.running p before
      have other : c' ≠ c := by
        rintro rfl
        exact elsewhere at_
      exact ⟨c', by rw [thread c' other]; exact at_⟩
  · intro p waits
    rcases ready p waits with saved | saving | ⟨before, same, elsewhere⟩
    · exact .inl saved
    · exact .inr ⟨c, saving⟩
    · rcases inv.ready p before with saved | ⟨c', saving⟩
      · left
        simpa only [Proc.Saved, same] using saved
      · have other : c' ≠ c := by
          rintro rfl
          exact elsewhere saving
        exact .inr ⟨c', by rw [thread c' other]; exact saving⟩
  · intro p alive
    by_cases touched : p = q
    · subst touched
      exact space alive
    · have fields := core_eq (change.procs p touched)
      rw [fields.2.1, fields.2.2.1]
      apply inv.space p
      simpa only [Proc.Waits, fields.1] using alive
  · intro p base at_
    cases forked : base.np with
    | none => cases base <;> simp_all [Base.np, Base.Ready]
    | some np => exact (forks p base np at_ forked).1
  · rintro p p' np ⟨base, at_, forked⟩ ⟨base', at_', forked'⟩
    rcases (forks p base np at_ forked).2 with old | ⟨⟨code, on⟩, fresh⟩
    · rcases (forks p' base' np at_' forked').2 with old' | ⟨-, fresh⟩
      · exact inv.sole p p' np old old'
      · exact absurd old (fresh p)
    · rcases (forks p' base' np at_' forked').2 with old' | ⟨⟨code', on'⟩, -⟩
      · exact absurd old' (fresh p')
      · rw [on] at on'
        exact (Thread.proc.inj on').1

/-! ### The processes that are being created -/

/-- A base after the step is that of the CPU that moved, or of the context that was changed, or
it was there before. -/
theorem at_cases (change : Change k k' c q) {base : Base nproc} (at_ : k'.At p base) :
    (∃ code, k'.thread c = .proc p code ∧ code.base = base) ∨
      (∃ c' code, c' ≠ c ∧ k.thread c' = .proc p code ∧ code.base = base) ∨
      (p = q ∧ ∃ after, (k'.procs q).context = some after ∧ after.base = base) ∨
      ∃ after, (k.procs p).context = some after ∧ after.base = base := by
  rcases at_ with ⟨c', code, thread, same⟩ | ⟨after, saved, same⟩
  · by_cases here : c' = c
    · subst here
      exact .inl ⟨code, thread, same⟩
    · have unmoved : k'.thread c' = k.thread c' := congrArg Cpu.thread (change.cpus c' here)
      rw [unmoved] at thread
      exact .inr (.inl ⟨c', code, here, thread, same⟩)
  · by_cases touched : p = q
    · subst touched
      exact .inr (.inr (.inl ⟨rfl, after, saved, same⟩))
    · rw [(core_eq (change.procs p touched)).2.2.2] at saved
      exact .inr (.inr (.inr ⟨after, saved, same⟩))

/-- The bases after the step are old ones. -/
theorem at_old (change : Change k k' c q)
    (on : ∀ p code, k'.thread c = .proc p code → code.base.np = none ∨ k.At p code.base)
    (context : ∀ after, (k'.procs q).context = some after →
      after.base.np = none ∨ k.At q after.base)
    {base : Base nproc} (at_ : k'.At p base) :
    base.np = none ∨ k.At p base := by
  rcases at_cases change at_ with
    ⟨code, thread, rfl⟩ | ⟨c', code, -, thread, same⟩ | ⟨rfl, after, saved, rfl⟩ | saved
  · exact on p code thread
  · exact .inr (.inl ⟨c', code, thread, same⟩)
  · exact context after saved
  · exact .inr (.inr saved)

/-- A step that leaves the processes being created alone. -/
theorem forks_old (inv : Inv k) (change : Change k k' c q)
    (on : ∀ p code, k'.thread c = .proc p code → code.base.np = none ∨ k.At p code.base)
    (context : ∀ after, (k'.procs q).context = some after →
      after.base.np = none ∨ k.At q after.base)
    (spared : (k'.procs q).core = (k.procs q).core ∨ (k.procs q).state ≠ .embryo) :
    ∀ p base np, k'.At p base → base.np = some np → Creates k k' c p base np := by
  intro p base np at_ forked
  have old : k.At p base := by
    apply (at_old change on context at_).resolve_left
    rw [forked]
    nofun
  have ready := inv.forks p base old
  refine ⟨?_, .inl ⟨base, old, forked⟩⟩
  apply ready.congr
  intro np' forked'
  by_cases touched : np' = q
  · subst touched
    exact spared.resolve_right fun formed => formed (ready.embryo forked')
  · exact change.procs np' touched

/-- A step of `fork` for the process it is creating. -/
theorem forks_moved (inv : Inv k) {np : Fin nproc} {code code' : Code nproc}
    (change : Change k k' c np) (on : k.thread c = .proc p code)
    (unsaved : (k.procs p).context = none) (forking : code.base.np = some np)
    (on' : k'.thread c = .proc p code') (ready : code'.base.Ready k'.procs)
    (goesOn : code'.base.np = none ∨ code'.base.np = some np)
    (context : ∀ after, (k'.procs np).context = some after →
      after.base.np = none ∨ (k.procs np).context = some after) :
    ∀ r base m, k'.At r base → base.np = some m → Creates k k' c r base m := by
  intro r base m at_ forked
  have mine : k.Forks p np := ⟨code.base, .inl ⟨c, code, on, rfl⟩, forking⟩
  have old : k.At r base → m ≠ np → Creates k k' c r base m := by
    intro was other
    refine ⟨?_, .inl ⟨base, was, forked⟩⟩
    apply (inv.forks r base was).congr
    intro m' forked'
    rw [forked] at forked'
    cases forked'
    exact change.procs m other
  -- an old base with the same new process would be of the thread that just left it
  have context' : ∀ after, (k.procs r).context = some after → after.base = base → m ≠ np := by
    rintro after was rfl rfl
    have me : r = p := inv.sole r p m ⟨_, .inr ⟨after, was, rfl⟩, forked⟩ mine
    rw [me, unsaved] at was
    cases was
  rcases at_cases change at_ with
    ⟨code₁, thread, rfl⟩ | ⟨c', code₁, here, thread, rfl⟩ | ⟨rfl, after, saved, rfl⟩ |
      ⟨after, was, rfl⟩
  · rw [on'] at thread
    cases thread
    rcases goesOn with done | same
    · rw [done] at forked
      cases forked
    · rw [same] at forked
      cases forked
      exact ⟨ready, .inl mine⟩
  · have was : k.At r code₁.base := .inl ⟨c', code₁, thread, rfl⟩
    apply old was
    rintro rfl
    have me : r = p := inv.sole r p m ⟨_, was, forked⟩ mine
    subst me
    exact here (inv.one c' c r (by rw [thread]; rfl) (by rw [on]; rfl))
  · rcases context after saved with nothing | was
    · rw [nothing] at forked
      cases forked
    · exact old (.inr ⟨after, was, rfl⟩) (context' after was rfl)
  · exact old (.inr ⟨after, was, rfl⟩) (context' after was rfl)

/-! ### Steps that keep the role of the CPU -/

structure SameRole (thread thread' : Thread nproc) : Prop where
  owner : thread'.owner = thread.owner
  space : thread'.space = thread.space
  returns : thread'.returns = thread.returns
  runs : thread'.runs = thread.runs
  saves : thread.saves = none

/-- What such a step may do to one process. -/
def Touch (k k' : Kernel nproc ncpu) (c : Fin ncpu) (q : Fin nproc) : Prop :=
  (k'.procs q).core = (k.procs q).core ∨
    ((k.procs q).state ≠ .running ∧ (k'.procs q).state ≠ .running ∧
      (∀ c', c' ≠ c → ¬ (k.thread c').Minds q) ∧
      ((k'.procs q).Waits → ((k'.procs q).Saved ∨
        (k.procs q).Waits ∧ (k'.procs q).context = (k.procs q).context) ∧
        (k'.procs q).kstack = true ∧ (k'.procs q).pgdir = true))

theorem plain (inv : Inv k) {thread : Thread nproc}
    (change : Change k k' c q) (cpu : k'.cpus c = { k.cpus c with thread })
    (role : SameRole (k.thread c) thread) (lock : thread.holds = true ↔ k'.lock = some c)
    (agrees : thread.Agrees k'.procs) (touch : Touch k k' c q)
    (forks : ∀ p base np, k'.At p base → base.np = some np → Creates k k' c p base np) :
    Inv k' := by
  have now : k'.thread c = thread := congrArg Cpu.thread cpu
  have old := inv.cpu c
  -- a process whose state the step leaves alone, or that stops before and after it
  have state : ∀ p, (k'.procs p).state = .running → (k.procs p).state = .running := by
    intro p running
    by_cases touched : p = q
    · subst touched
      rcases touch with same | ⟨-, stopped, -, -⟩
      · rw [← (core_eq same).1]
        exact running
      · exact absurd running stopped
    · rw [← (core_eq (change.procs p touched)).1]
      exact running
  apply inv.change change
  case own =>
    refine ⟨?_, ?_, ?_, ?_, ?_⟩
    · rw [now]
      exact lock
    · rw [now, cpu, role.owner]
      exact old.proc
    · rw [now, cpu, role.space]
      exact old.cr3
    · rw [now, cpu, role.returns]
      exact old.scheduler
    · rw [now]
      exact agrees
  case alone =>
    rcases touch with same | ⟨-, -, lonely, -⟩
    · exact .inl same
    · exact .inr lonely
  case takes =>
    intro p owner c' other owner'
    rw [now, role.owner] at owner
    exact other (inv.one c' c p owner' owner)
  case running =>
    intro p running
    by_cases here : (k.thread c).runs = some p
    · left
      rw [now, role.runs]
      exact here
    · exact .inr ⟨state p running, here⟩
  case ready =>
    intro p waits
    have unsaving : (k.thread c).saves ≠ some p := by
      rw [role.saves]
      nofun
    by_cases touched : p = q
    · subst touched
      rcases touch with same | ⟨-, -, -, ready⟩
      · have fields := core_eq same
        refine .inr (.inr ⟨?_, fields.2.2.2, unsaving⟩)
        simpa only [Proc.Waits, fields.1] using waits
      · rcases (ready waits).1 with saved | ⟨before, context⟩
        · exact .inl saved
        · exact .inr (.inr ⟨before, context, unsaving⟩)
    · have fields := core_eq (change.procs p touched)
      refine .inr (.inr ⟨?_, fields.2.2.2, unsaving⟩)
      simpa only [Proc.Waits, fields.1] using waits
  case space =>
    intro alive
    rcases touch with same | ⟨-, stopped, -, ready⟩
    · have fields := core_eq same
      rw [fields.2.1, fields.2.2.1]
      apply inv.space q
      simpa only [Proc.Waits, fields.1] using alive
    · exact (ready (alive.resolve_right stopped)).2
  case forks => exact forks

end Inv

end Laboratorio.Xv6.Sched
