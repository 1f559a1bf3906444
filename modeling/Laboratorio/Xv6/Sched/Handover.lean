import Laboratorio.Xv6.Sched.Steps

/-! # CPUs and stacks are handed over under `ptable.lock`

In every state of every run a running process is the `c->proc` of one CPU, a context is loaded by
one CPU only and after the CPU that saved it has left the stack, and `wait` frees what no CPU uses.
The CPU that holds the lock can always go on, so none of the checks on the way panics.
-/

namespace Laboratorio.Xv6.Sched

open Laboratorio.Lib Kernel Option

variable {nproc ncpu : Nat} {k : Kernel nproc ncpu} {c : Fin ncpu}

theorem inv_init (start : Initial k) : Inv k := by
  have thread : ∀ c, k.thread c = .scheduler .idle := fun c => (start.cpus c).1
  have state : ∀ p, (k.procs p).state = .runnable ∧ p = k.initproc ∨
      (k.procs p).state = .unused := by
    intro p
    by_cases first : p = k.initproc
    · subst first
      exact .inl ⟨start.first.1, rfl⟩
    · exact .inr (start.others p first).1
  have atUser : ∀ p base, k.At p base → base = .user := by
    rintro p base (⟨c, code, on, -⟩ | ⟨after, saved, rfl⟩)
    · rw [thread c] at on
      cases on
    · by_cases first : p = k.initproc
      · subst first
        rw [start.first.2.2.2] at saved
        cases saved
        rfl
      · rw [(start.others p first).2] at saved
        cases saved
  refine ⟨?_, ?_, ?_, ?_, ?_, ?_, ?_⟩
  · intro c
    refine ⟨?_, ?_, ?_, ?_, ?_⟩
    · simp [thread c, Thread.holds, start.lock]
    · rw [thread c]
      exact (start.cpus c).2.1
    · rw [thread c]
      exact (start.cpus c).2.2
    · rw [thread c]
      rintro _ ⟨⟩
    · rw [thread c]
      trivial
  · intro c c' p owner
    rw [thread c] at owner
    cases owner
  · intro p running
    rcases state p with ⟨ready, -⟩ | free
    · rw [ready] at running
      cases running
    · rw [free] at running
      cases running
  · intro p waits
    rcases state p with ⟨-, rfl⟩ | free
    · exact .inl ⟨.forkret, start.first.2.2.2, by rintro ⟨⟩⟩
    · rcases waits with waits | waits <;> rw [free] at waits <;> cases waits
  · intro p alive
    rcases state p with ⟨-, rfl⟩ | free
    · exact ⟨start.first.2.1, start.first.2.2.1⟩
    · rcases alive with (alive | alive) | alive <;> rw [free] at alive <;> cases alive
  · intro p base at_
    rw [atUser p base at_]
    trivial
  · rintro p p' np ⟨base, at_, forked⟩ -
    rw [atUser p base at_] at forked
    cases forked

theorem reachable_inv (reachable : (system nproc ncpu).Reachable k) : Inv k := by
  refine reachable.invariant inv_init ?_
  intro before label after _ inv _ taken
  exact inv.kept taken

/-! ## The holder of the lock goes on -/

theorem runProc_some (inv : Inv k) {p : Fin nproc} {code : Code nproc}
    (on : k.thread c = .proc p code) (holds : code.holds = true) (ok : Bool) :
    (k.runProc c p p ok code).isSome = true := by
  have held := inv.held on holds
  have agrees := (inv.cpu c).agrees
  rw [on] at agrees
  cases code with
  | «at» base => cases holds
  | acquire what back => cases holds
  | swtchSave after =>
    -- the checks of `sched`
    have stopped : (k.procs p).state ≠ .running := by
      rw [agrees.1]
      cases after <;> nofun
    simp [runProc, held, stopped]
  | swtchLoad after =>
    have saved := (inv.cpu c).scheduler p (by rw [on]; rfl)
    simp [runProc, saved]
  | release back =>
    simp [runProc, release, held]
  | zombieExit => cases agrees
  | _ =>
    simp only [runProc]
    repeat' first | rfl | split

theorem runScheduler_some (inv : Inv k) {code : SchedCode nproc} (on : k.thread c = .scheduler code)
    (holds : (Thread.scheduler code).holds = true) : (k.runScheduler c code).isSome = true := by
  have held := inv.sched_held on holds
  have agrees := (inv.cpu c).agrees
  rw [on] at agrees
  cases code with
  | idle => cases holds
  | intrAcquire chan => cases holds
  | intrRelease =>
    simp [runScheduler, release, held]
  | switchuvm p =>
    have space := inv.space p (.inl (.inl agrees.1))
    simp [runScheduler, space]
  | swtchLoad p =>
    obtain ⟨-, after, saved, -⟩ := agrees
    simp [runScheduler, saved]
  | release =>
    simp [runScheduler, release, held]
  | _ =>
    simp only [runScheduler]
    repeat' first | rfl | split

/-- The CPU that holds `ptable.lock` always has a step: `sched` finds the lock held and the state
changed, `switchuvm` finds a stack and a page directory, and nobody comes back from the
`sched()` of `exit`. -/
theorem holder_steps (reachable : (system nproc ncpu).Reachable k)
    (held : k.lock = some c) (ok : Bool) : (step k (.run c ok)).isSome = true := by
  have inv := reachable_inv reachable
  have holds := (inv.cpu c).lock.mpr held
  have mine := (inv.cpu c).proc
  cases on : k.thread c with
  | proc p code =>
    rw [on] at holds mine
    have thread : (k.cpus c).thread = .proc p code := on
    simp only [step, thread, mine]
    exact runProc_some inv on holds ok
  | scheduler code =>
    rw [on] at holds
    have thread : (k.cpus c).thread = .scheduler code := on
    simp only [step, thread]
    exact runScheduler_some inv on holds

/-- The first process and a free entry, before the scheduler runs. -/
def twoProcs (initproc : Fin 2) : Kernel 2 2 where
  lock := none
  nextpid := 2
  initproc := initproc
  procs p :=
    if p = initproc then ⟨⟨.runnable, none⟩, 1, none, false, true, true, some .forkret⟩
    else ⟨⟨.unused, none⟩, 0, none, false, false, false, none⟩
  cpus _ := ⟨.scheduler .idle, none, none, none⟩

theorem twoProcs_initial (initproc : Fin 2) : Initial (twoProcs initproc) := by
  refine ⟨rfl, ?_, ?_, fun c => ⟨rfl, rfl, rfl⟩⟩
  · simp [twoProcs]
  · intro p (other : p ≠ initproc)
    simp [twoProcs, other]

/-- The first process forks a second one, which the other CPU runs. -/
def forked (c d : Fin 2) : List (Label 2 2) :=
  List.replicate 8 (.run c true) ++ .call c .allocproc :: List.replicate 11 (.run c true) ++
    List.replicate 9 (.run d true)

/-- The second process is about to `swtch` out of `exit` while the first runs on the other CPU. -/
theorem exit_swtches : ∃ k : Kernel 2 2, (system 2 2).Reachable k ∧
    ((k.cpus 0).thread = .proc 0 (.at .user) ∧
      (k.cpus 1).thread = .proc 1 (.swtchSave .exit) ∧ k.lock = some 1) ∧
    (step k (.run 1 true)).isSome = true := by
  have ran : ∃ k ∈ (system 2 2).runWhen (fun _ _ => True) (twoProcs 0)
      (forked 0 1 ++ .call 1 .exit :: List.replicate 8 (.run 1 true)),
      (k.cpus 0).thread = .proc 0 (.at .user) ∧
        (k.cpus 1).thread = .proc 1 (.swtchSave .exit) ∧ k.lock = some 1 := by
    decide +kernel
  obtain ⟨k, reachable, ended⟩ :=
    System.ReachableWhen.exists_of_runWhen (.init (twoProcs_initial _)) ran
  exact ⟨k, reachable, ended, holder_steps reachable ended.2.2 true⟩

/-- The handover is safe in every run. -/
theorem handover_safe (nproc ncpu : Nat) (k : Kernel nproc ncpu)
    (reachable : (system nproc ncpu).Reachable k) :
    (∀ p, (k.procs p).state = .running → ∃! c, (k.cpus c).proc = some p) ∧
      (∀ c p, (k.cpus c).thread = .scheduler (.swtchLoad p) →
        (k.procs p).context.isSome = true ∧
          (∀ c' code, (k.cpus c').thread ≠ .proc p code) ∧
          ∀ c', (k.cpus c').proc = some p ∨ (k.cpus c').thread = .scheduler (.swtchLoad p) →
            c' = c) ∧
      ∀ c p code q, (k.cpus c).thread = .proc p code → code.reaps = some q →
        ∀ c', (∀ code', (k.cpus c').thread ≠ .proc q code') ∧ (k.cpus c').cr3 ≠ some q := by
  have inv := reachable_inv reachable
  refine ⟨?_, ?_, ?_⟩
  · intro p running
    obtain ⟨c, runs⟩ := inv.running p running
    have owner := Thread.owner_of_runs runs
    refine ⟨c, ?_, ?_⟩
    · rw [← owner]
      exact (inv.cpu c).proc
    · intro c' proc
      rw [(inv.cpu c').proc] at proc
      exact inv.one c' c p proc owner
  · intro c p on
    have owner : (k.thread c).owner = some p := by rw [thread, on]; rfl
    have agrees := (inv.cpu c).agrees
    rw [thread, on] at agrees
    obtain ⟨-, after, saved, -⟩ := agrees
    have only : ∀ c', (k.thread c').owner = some p → c' = c :=
      fun c' owner' => inv.one c' c p owner' owner
    refine ⟨by rw [saved]; rfl, ?_, ?_⟩
    · intro c' code on'
      have here := only c' (by rw [thread, on']; rfl)
      subst here
      rw [on] at on'
      cases on'
    · rintro c' (proc | on')
      · rw [(inv.cpu c').proc] at proc
        exact only c' proc
      · exact only c' (by rw [thread, on']; rfl)
  · intro c p code q on reaps c'
    have agrees := (inv.cpu c).agrees
    rw [thread] at agrees
    have held := inv.held (c := c) on (by cases code <;> simp_all [Code.reaps, Code.holds])
    have found : (k.procs p).state = .running ∧ (k.procs q).state = .zombie := by
      cases code <;> simp_all [Thread.Agrees, Code.reaps]
    have stopped : (k.procs q).state ≠ .running := by
      rw [found.2]
      rintro ⟨⟩
    -- the waiting process is not the one it frees, and nobody else deals with that one
    have unowned : ∀ c', (k.thread c').owner ≠ some q := by
      intro c₁ owner
      by_cases here : c₁ = c
      · subst here
        rw [thread, on] at owner
        cases owner
        exact stopped found.1
      · exact inv.alone held stopped c₁ here (.inl owner)
    refine ⟨?_, ?_⟩
    · intro code' on'
      exact unowned c' (by rw [thread, on']; rfl)
    · intro loaded
      rw [(inv.cpu c').cr3] at loaded
      exact unowned c' (Thread.owner_of_space loaded)

/-- A process is run by the second CPU, exits there, and is freed by its parent on the first. -/
theorem child_reaped :
    ∃ k : Kernel 2 2, (system 2 2).Reachable k ∧
      ((k.cpus 0).thread = .proc 0 (.waitKfree 1) ∧ (k.procs 0).state = .running) ∧
      (∃! c, (k.cpus c).proc = some 0) ∧ ∀ c, (k.cpus c).cr3 ≠ some 1 := by
  have ran : ∃ k ∈ (system 2 2).runWhen (fun _ _ => True) (twoProcs 0)
      (forked 0 1 ++ .call 1 .exit :: List.replicate 14 (.run 1 true) ++
        .call 0 .wait :: List.replicate 3 (.run 0 true)),
      (k.cpus 0).thread = .proc 0 (.waitKfree 1) ∧ (k.procs 0).state = .running := by
    decide +kernel
  obtain ⟨k, reachable, ended⟩ :=
    System.ReachableWhen.exists_of_runWhen (.init (twoProcs_initial _)) ran
  obtain ⟨running, -, freed⟩ := handover_safe 2 2 k reachable
  exact ⟨k, reachable, ended, running 0 ended.2,
    fun c => (freed 0 0 _ 1 ended.1 rfl c).2⟩

end Laboratorio.Xv6.Sched
