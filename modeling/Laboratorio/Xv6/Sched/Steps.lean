import Laboratorio.Xv6.Sched.Invariant

/-! # Every step keeps the invariant

The steps fall into a few kinds: a process stays on its CPU (`goes`, `acts`, `rouses`, `reaps`),
creates another one (`allocates`, `creates`), takes part in the handover (`leaves`, `saves`,
`departs`, `starts`, `resumes`), or the scheduler scans and turns to a process (`moves`, `turns`).
-/

namespace Laboratorio.Xv6.Sched

open Laboratorio.Lib Code Thread
open Function (update update_self update_of_ne)

variable {nproc ncpu : Nat}

/-! ## The kernel after a step -/

namespace Kernel

variable {k : Kernel nproc ncpu} {c : Fin ncpu} {q : Fin nproc}

@[simp]
theorem goto_cpu (thread : Thread nproc) :
    (k.goto c thread).cpus c = { k.cpus c with thread } := by
  simp [goto, setCpu]

@[simp]
theorem goto_procs (thread : Thread nproc) : (k.goto c thread).procs = k.procs := rfl

@[simp]
theorem goto_lock (thread : Thread nproc) : (k.goto c thread).lock = k.lock := rfl

@[simp]
theorem setProc_cpus (proc : Proc nproc) : (k.setProc q proc).cpus = k.cpus := rfl

@[simp]
theorem setProc_lock (proc : Proc nproc) : (k.setProc q proc).lock = k.lock := rfl

@[simp]
theorem setProc_self (proc : Proc nproc) : (k.setProc q proc).procs q = proc := by
  simp [setProc]

theorem thread_goto (thread : Thread nproc) : (k.goto c thread).thread c = thread := by
  simp [Kernel.thread, goto_cpu]

theorem change_setCpu (cpu : Cpu nproc) : Inv.Change k (k.setCpu c cpu) c q where
  cpus _ other := update_of_ne other _ _
  procs _ _ := rfl
  lock _ _ := Iff.rfl

theorem change_setProc (proc : Proc nproc) (thread : Thread nproc) :
    Inv.Change k ((k.setProc q proc).goto c thread) c q where
  cpus _ other := update_of_ne other _ _
  procs r other := by
    simp [goto_procs, setProc, update_of_ne other]
  lock _ _ := Iff.rfl

end Kernel

namespace Inv

open Kernel

variable {k k' : Kernel nproc ncpu} {c : Fin ncpu} {p q : Fin nproc} {code code' : Code nproc}

/-- Code that frees no process. -/
theorem of_no_reaps {conclusion : Prop} (none : code.reaps = none) (found : code.reaps = some q) :
    conclusion := by
  rw [none] at found
  cases found

theorem lock_others {lock : Option (Fin ncpu)} (free : k.lock = none ∨ k.lock = some c)
    (free' : lock = none ∨ lock = some c) (c' : Fin ncpu) (other : c' ≠ c) :
    lock = some c' ↔ k.lock = some c' := by
  rcases free with free | free <;> rcases free' with free' | free' <;>
    simp [free, free', other.symm]

theorem sameRole (here : code.works = true) (here' : code'.works = true) :
    SameRole (.proc p code) (.proc p code') := by
  refine ⟨rfl, rfl, rfl, ?_, ?_⟩
  · simp [runs, here, here']
  · cases code <;> simp_all [saves, works]

section

variable (inv : Inv k) {after : After nproc} {proc : Proc nproc}
include inv

theorem held (on : k.thread c = .proc p code) (holds : code.holds = true) : k.lock = some c := by
  apply (inv.cpu c).lock.mp
  rw [on]
  exact holds

theorem own (on : k.thread c = .proc p code) (here : code.works = true) :
    (k.procs p).state = .running ∧ (k.procs p).context = none := by
  have agrees := (inv.cpu c).agrees
  cases code <;> simp_all [Thread.Agrees, works]

/-- What `wakeup1` and `kill` do to a process: they wake a sleeper, or leave its state. -/
theorem touch_rouses (proc : Proc nproc) (held : k.lock = some c)
    (state : proc.state = (k.procs q).state ∨
      (k.procs q).state = .sleeping ∧ proc.state = .runnable)
    (same : proc.core = { k.procs q with state := proc.state }.core) (thread : Thread nproc) :
    Touch k ((k.setProc q proc).goto c thread) c q ∧
      (proc.core = (k.procs q).core ∨ (k.procs q).state ≠ .embryo) := by
  rcases state with unchanged | ⟨sleeping, runnable⟩
  · rw [unchanged] at same
    refine ⟨.inl ?_, .inl same⟩
    rw [goto_procs, setProc_self]
    exact same
  · have fields := Proc.core_eq same
    have stopped : (k.procs q).state ≠ .running := sleeping.trans_ne nofun
    refine ⟨.inr ⟨stopped, ?_, inv.alone held stopped, ?_⟩, .inr (sleeping.trans_ne nofun)⟩
    · rw [goto_procs, setProc_self, runnable]
      nofun
    · intro _
      rw [goto_procs, setProc_self, fields.2.1, fields.2.2.1]
      exact ⟨.inr ⟨.inr sleeping, fields.2.2.2⟩, inv.space q (.inl (.inr sleeping))⟩

/-- A step that changes no process, and at most takes or gives up the lock. -/
theorem moves {lock : Option (Fin ncpu)} {thread thread' : Thread nproc} (on : k.thread c = thread)
    (role : SameRole thread thread') (others : ∀ c', c' ≠ c → (lock = some c' ↔ k.lock = some c'))
    (holds : thread'.holds = true ↔ lock = some c) (agrees : thread'.Agrees k.procs)
    (base : ∀ p code, thread' = .proc p code → code.base.np = none ∨ k.At p code.base) :
    Inv ({ k with lock }.goto c thread') := by
  have change : Change k ({ k with lock }.goto c thread') c k.initproc :=
    ⟨fun _ other => update_of_ne other _ _, fun _ _ => rfl, others⟩
  apply inv.plain change (goto_cpu _) (on ▸ role) holds agrees (.inl rfl)
  apply inv.forks_old change ?_ ?_ (.inl rfl)
  · intro p code thread
    rw [thread_goto] at thread
    exact base p code thread
  · exact fun after saved => .inr (.inr ⟨after, saved, rfl⟩)

theorem proc_moves {lock : Option (Fin ncpu)} (on : k.thread c = .proc p code)
    (here : code.works = true) (here' : code'.works = true)
    (base : code'.base.np = none ∨ code'.base = code.base)
    (others : ∀ c', c' ≠ c → (lock = some c' ↔ k.lock = some c'))
    (holds : code'.holds = true ↔ lock = some c)
    (reaps : ∀ r, code'.reaps = some r → (k.procs r).state = .zombie) :
    Inv ({ k with lock }.goto c (.proc p code')) := by
  have running := inv.own on here
  apply inv.moves on (sameRole here here') others holds
  case agrees => cases code' <;> simp_all [Thread.Agrees, works]
  case base =>
    rintro _ _ ⟨⟩
    exact base.imp_right fun same => .inl ⟨c, code, on, same.symm⟩

section Moves

variable {proc : Proc nproc} (on : k.thread c = .proc p code)
  (here : code.works = true) (here' : code'.works = true) (holds : code'.holds = code.holds)
  (base : code'.base.np = none ∨ code'.base = code.base)
include on here here' holds base

theorem goes (reaps : ∀ r, code'.reaps = some r → (k.procs r).state = .zombie) :
    Inv (k.goto c (.proc p code')) := by
  have lock := (inv.cpu c).lock
  rw [on] at lock
  exact inv.proc_moves on here here' base (fun _ _ => Iff.rfl) (holds ▸ lock) reaps

theorem proc_goes (reaps : code'.reaps = none) : Inv (k.goto c (.proc p code')) :=
  inv.goes on here here' holds base fun _ => of_no_reaps reaps

theorem acts (touch : Touch k ((k.setProc q proc).goto c (.proc p code')) c q)
    (reaps : ∀ r, code'.reaps = some r → ((k.setProc q proc).procs r).state = .zombie)
    (context : proc.context = (k.procs q).context)
    (spared : proc.core = (k.procs q).core ∨ (k.procs q).state ≠ .embryo) :
    Inv ((k.setProc q proc).goto c (.proc p code')) := by
  have lock := (inv.cpu c).lock
  rw [on] at lock
  have running := inv.own on here
  have change := change_setProc (k := k) (c := c) (q := q) proc (.proc p code')
  have running' : ((k.setProc q proc).procs p).state = .running ∧
      ((k.setProc q proc).procs p).context = none := by
    by_cases touched : p = q
    · subst touched
      have same := Proc.core_eq (touch.resolve_right fun stopped => stopped.1 running.1)
      rw [goto_procs] at same
      rwa [same.1, same.2.2.2]
    · simp only [setProc, update_of_ne touched]
      exact running
  apply inv.plain change (goto_cpu _) (on ▸ sameRole here here')
  case lock =>
    simp only [Thread.holds, holds]
    exact lock
  case agrees => cases code' <;> simp_all [Thread.Agrees, works]
  case touch => exact touch
  case forks =>
    apply inv.forks_old change
    · intro p' code₁ thread
      rw [thread_goto] at thread
      cases thread
      exact base.imp_right fun same => .inl ⟨c, code, on, same.symm⟩
    · rw [goto_procs, setProc_self, context]
      exact fun after saved => .inr (.inr ⟨after, saved, rfl⟩)
    · rw [goto_procs, setProc_self]
      exact spared

/-- A change to fields the invariant does not speak of. -/
theorem notes (same : proc.core = (k.procs q).core) (reaps : code'.reaps = none) :
    Inv ((k.setProc q proc).goto c (.proc p code')) := by
  apply inv.acts on here here' holds base
  case touch =>
    left
    rw [goto_procs, setProc_self]
    exact same
  case reaps => exact fun _ => of_no_reaps reaps
  case context => exact (Proc.core_eq same).2.2.2
  case spared => exact .inl same

theorem rouses (holding : code.holds = true)
    (state : proc.state = (k.procs q).state ∨
      (k.procs q).state = .sleeping ∧ proc.state = .runnable)
    (same : proc.core = { k.procs q with state := proc.state }.core) (reaps : code'.reaps = none) :
    Inv ((k.setProc q proc).goto c (.proc p code')) := by
  obtain ⟨touch, spared⟩ := inv.touch_rouses proc (inv.held on holding) state same (.proc p code')
  have context := (Proc.core_eq same).2.2.2
  exact inv.acts on here here' holds base touch (fun _ => of_no_reaps reaps) context spared

/-- `wait` frees a part of a zombie, or its entry. -/
theorem reaps (holding : code.holds = true) (found : code.reaps = some q)
    (state : proc.state = .zombie ∨ proc.state = .unused ∧ code'.reaps = none)
    (found' : code'.reaps = none ∨ code'.reaps = some q)
    (context : proc.context = (k.procs q).context) :
    Inv ((k.setProc q proc).goto c (.proc p code')) := by
  have agrees := (inv.cpu c).agrees
  have zombie : (k.procs q).state = .zombie := by
    cases code <;> simp_all [Thread.Agrees, reaps]
  have stopped : (k.procs q).state ≠ .running := zombie.trans_ne (by rintro ⟨⟩)
  have gone : proc.state = .zombie ∨ proc.state = .unused := state.imp_right And.left
  apply inv.acts on here here' holds base
  case touch =>
    refine .inr ⟨stopped, ?_, inv.alone (inv.held on holding) stopped, ?_⟩
    · rw [goto_procs, setProc_self]
      rcases gone with gone | gone <;> rw [gone] <;> rintro ⟨⟩
    · rw [goto_procs, setProc_self]
      intro waits
      rcases gone with gone | gone <;> rcases waits with waits | waits <;>
        rw [gone] at waits <;> cases waits
  case reaps =>
    intro r reaped
    rcases found' with nothing | same
    · exact of_no_reaps nothing reaped
    · rw [same] at reaped
      cases reaped
      rw [setProc_self]
      exact state.resolve_right fun unused => of_no_reaps unused.2 same
  case context => exact context
  case spared => exact .inr (zombie.trans_ne (by rintro ⟨⟩))

end Moves

/-! ### `fork` -/

/-- A step of `fork` that changes the process it is creating. -/
theorem creates {np : Fin nproc} (on : k.thread c = .proc p code)
    (proc : Proc nproc) (here : code.works = true) (forking : code.base.np = some np)
    (here' : code'.works = true) (holds : code'.holds = code.holds) (reaps : code'.reaps = none)
    (stopped : proc.state ≠ .running)
    (ready : proc.Waits → proc.Saved ∧ proc.kstack = true ∧ proc.pgdir = true)
    (context : proc.context = some .forkret ∨ proc.context = (k.procs np).context)
    (base : code'.base.np = none ∨ code'.base.np = some np)
    (given : code'.base.Ready (k.setProc np proc).procs) :
    Inv ((k.setProc np proc).goto c (.proc p code')) := by
  have lock := (inv.cpu c).lock
  rw [on] at lock
  have mine : k.At p code.base := .inl ⟨c, code, on, rfl⟩
  have embryo : (k.procs np).state = .embryo := (inv.forks p _ mine).embryo forking
  have running := inv.own on here
  have other : p ≠ np := by
    rintro rfl
    rw [embryo] at running
    cases running.1
  have change := change_setProc (k := k) (c := c) (q := np) proc (.proc p code')
  have running' : ((k.setProc np proc).procs p).state = .running ∧
      ((k.setProc np proc).procs p).context = none := by
    simp only [setProc, update_of_ne other]
    exact running
  apply inv.plain change (goto_cpu _)
  case role => exact on ▸ sameRole here here'
  case lock =>
    simp only [Thread.holds, holds]
    exact lock
  case agrees => cases code' <;> simp_all [Thread.Agrees, works]
  case touch =>
    refine .inr ⟨?_, ?_, ?_, ?_⟩
    · rw [embryo]
      rintro ⟨⟩
    · rw [goto_procs, setProc_self]
      exact stopped
    · intro c' _
      exact inv.unminded (.inl embryo) c'
    · rw [goto_procs, setProc_self]
      intro waits
      exact ⟨.inl (ready waits).1, (ready waits).2⟩
  case forks =>
    apply inv.forks_moved change on running.2 forking (thread_goto _) given base
    intro after saved
    rw [goto_procs, setProc_self] at saved
    rcases context with fresh | same
    · rw [fresh] at saved
      cases saved
      exact .inl rfl
    · rw [same] at saved
      exact .inr saved

/-- A step of `fork` outside its critical sections. -/
theorem forms {np : Fin nproc} {base base' : Base nproc}
    (on : k.thread c = .proc p (.at base)) (forking : base.np = some np)
    (idle : proc.state ≠ .running ∧ ¬ proc.Waits)
    (context : proc.context = some .forkret ∨ proc.context = (k.procs np).context)
    (goesOn : base'.np = none ∨ base'.np = some np)
    (given : base'.Ready (k.setProc np proc).procs) :
    Inv ((k.setProc np proc).goto c (.proc p (.at base'))) :=
  inv.creates on proc rfl forking rfl rfl rfl idle.1 (fun waits => absurd waits idle.2) context
    goesOn given

/-- `allocproc` takes a free entry of the table. -/
theorem allocates {i : Nat} (on : k.thread c = .proc p (.allocScan i))
    (proc : Proc nproc) (free : (k.procs q).state = .unused) (state : proc.state = .embryo)
    (context : proc.context = (k.procs q).context) :
    Inv ((k.setProc q proc).goto c (.proc p (.release (.forkKstack q)))) := by
  have lock := (inv.cpu c).lock
  rw [on] at lock
  have running := inv.own on rfl
  have other : p ≠ q := by
    rintro rfl
    rw [free] at running
    cases running.1
  have change := change_setProc (k := k) (c := c) (q := q) proc
    (.proc p (.release (.forkKstack q)))
  have untaken : ∀ r, ¬ k.Forks r q := by
    rintro r ⟨base, at_, forked⟩
    have embryo := (inv.forks r base at_).embryo forked
    rw [free] at embryo
    cases embryo
  apply inv.plain change (goto_cpu _)
  case role =>
    rw [on]
    exact ⟨rfl, rfl, rfl, rfl, rfl⟩
  case lock => exact lock
  case agrees =>
    rw [goto_procs]
    refine ⟨?_, ?_, nofun⟩
    · simp only [setProc, update_of_ne other]
      exact running.1
    · simp only [setProc, update_of_ne other]
      exact running.2
  case touch =>
    refine .inr ⟨?_, ?_, ?_, ?_⟩
    · rw [free]
      nofun
    · rw [goto_procs, setProc_self, state]
      nofun
    · intro c' _
      exact inv.unminded (.inr free) c'
    · rw [goto_procs, setProc_self]
      rintro (waits | waits)
      · rw [state] at waits
        cases waits
      · rw [state] at waits
        cases waits
  case forks =>
    -- the new base is that of this thread; every other base speaks of another process
    intro r base np at_ forked
    have old : k.At r base → Creates k ((k.setProc q proc).goto c
        (.proc p (.release (.forkKstack q)))) c r base np := by
      intro was
      refine ⟨?_, .inl ⟨base, was, forked⟩⟩
      apply (inv.forks r base was).congr
      intro np' forked'
      apply change.procs
      rintro rfl
      exact untaken r ⟨base, was, forked'⟩
    rcases at_cases change at_ with
      ⟨code, thread, rfl⟩ | ⟨c', code, -, thread, same⟩ | ⟨rfl, after, saved, same⟩ | saved
    · rw [thread_goto] at thread
      cases thread
      cases forked
      refine ⟨?_, .inr ⟨⟨_, thread_goto _⟩, untaken⟩⟩
      simp [Code.base, Base.Ready, goto_procs, setProc_self, state]
    · exact old (.inl ⟨c', code, thread, same⟩)
    · rw [goto_procs, setProc_self, context] at saved
      exact old (.inr ⟨after, saved, same⟩)
    · exact old (.inr saved)

/-! ### Giving up the CPU -/

/-- Nobody else deals with the process of a CPU that holds the lock. -/
theorem mine_alone (held : k.lock = some c) (owner : (k.thread c).owner = some p) :
    ∀ c', c' ≠ c → ¬ (k.thread c').Minds p := by
  rintro c' other (owner' | found)
  · exact other (inv.one c' c p owner' owner)
  · have held' := (inv.cpu c').lock.mp (holds_of_target found)
    rw [held] at held'
    exact other (Option.some.inj held').symm

/-- A step of the handover: the CPU holds the lock and keeps its process. -/
theorem hands {thread' : Thread nproc} (proc : Proc nproc)
    (held : k.lock = some c) (owner : (k.thread c).owner = some p)
    (owner' : thread'.owner = some p) (space' : thread'.space = (k.thread c).space)
    (returns' : ∀ r, thread'.returns = some r → (k.cpus c).scheduler = some r)
    (holds' : thread'.holds = true) (agrees' : thread'.Agrees (k.setProc p proc).procs)
    (running : proc.state = .running → thread'.runs = some p)
    (saved : proc.Waits → proc.Saved ∨ thread'.saves = some p)
    (alive : proc.Waits ∨ proc.state = .running → proc.kstack = true ∧ proc.pgdir = true)
    (on : ∀ r code, thread' = .proc r code → code.base.np = none ∨ k.At r code.base)
    (context : ∀ after, proc.context = some after → after.base.np = none ∨ k.At p after.base) :
    Inv ((k.setProc p proc).goto c thread') := by
  have old := inv.cpu c
  have change := change_setProc (k := k) (c := c) (q := p) proc thread'
  have elsewhere : ∀ r, r ≠ p → ((k.setProc p proc).procs r) = k.procs r :=
    fun r other => update_of_ne other _ _
  apply inv.change change
  case own =>
    refine ⟨?_, ?_, ?_, ?_, ?_⟩
    · simp [thread_goto, holds', goto_lock, setProc_lock, held]
    · rw [thread_goto, goto_cpu, owner', ← owner]
      exact old.proc
    · rw [thread_goto, goto_cpu, space']
      exact old.cr3
    · rw [thread_goto, goto_cpu]
      exact returns'
    · rw [thread_goto]
      exact agrees'
  case alone => exact .inr (inv.mine_alone held owner)
  case takes =>
    intro r taken c' other mine
    rw [thread_goto, owner'] at taken
    cases taken
    exact inv.mine_alone held owner c' other (.inl mine)
  case running =>
    intro r runs
    rw [thread_goto]
    by_cases own : r = p
    · subst own
      rw [goto_procs, setProc_self] at runs
      exact .inl (running runs)
    · rw [goto_procs, elsewhere r own] at runs
      refine .inr ⟨runs, ?_⟩
      intro here
      have owned := owner_of_runs here
      rw [owner] at owned
      exact own (Option.some.inj owned).symm
  case ready =>
    intro r waits
    rw [thread_goto]
    by_cases own : r = p
    · subst own
      rw [goto_procs, setProc_self] at waits ⊢
      rcases saved waits with saved | saving
      · exact .inl saved
      · exact .inr (.inl saving)
    · rw [goto_procs, elsewhere r own] at waits ⊢
      refine .inr (.inr ⟨waits, rfl, ?_⟩)
      intro here
      have owned := owner_of_saves here
      rw [owner] at owned
      exact own (Option.some.inj owned).symm
  case space =>
    rw [goto_procs, setProc_self]
    exact alive
  case forks =>
    apply inv.forks_old change
    · intro r code thread
      rw [thread_goto] at thread
      exact on r code thread
    · rw [goto_procs, setProc_self]
      exact context
    · exact .inr (old.agrees.minded (.inl owner)).2.1

/-- The process changes its state and enters `sched`. -/
theorem leaves (on : k.thread c = .proc p code) (here : code.works = true)
    (holds : code.holds = true) (after : After nproc)
    (base : after.base.np = none ∨ after.base = code.base) :
    Inv ((k.setProc p { k.procs p with state := after.state }).goto c
      (.proc p (.swtchSave after))) := by
  have running := inv.own on here
  have returns := (inv.cpu c).scheduler
  rw [on] at returns
  apply inv.hands _ (inv.held on holds) (by rw [on]; rfl) rfl (by rw [on]; rfl)
  case returns' => exact returns
  case holds' => rfl
  case agrees' =>
    simp only [Thread.Agrees, setProc_self, true_and]
    exact running.2
  case running => exact fun still => absurd still after.state_ne_running
  case saved => exact fun _ => .inr rfl
  case alive => exact fun _ => inv.space p (.inr running.1)
  case on =>
    intro r code' thread
    cases thread
    rcases base with nothing | same
    · exact .inl nothing
    · exact .inr (.inl ⟨c, code, on, same.symm⟩)
  case context =>
    intro saved loaded
    exact .inr (.inr ⟨saved, loaded, rfl⟩)

/-- The first half of the `swtch` in `sched`: the context is saved. -/
theorem saves (on : k.thread c = .proc p (.swtchSave after)) :
    Inv ((k.setProc p { k.procs p with context := some after }).goto c
      (.proc p (.swtchLoad after))) := by
  have agrees := (inv.cpu c).agrees
  have returns := (inv.cpu c).scheduler
  rw [on] at returns agrees
  apply inv.hands _ (inv.held on rfl) (by rw [on]; rfl) rfl (by rw [on]; rfl)
  case returns' => exact returns
  case holds' => rfl
  case agrees' =>
    simp only [Thread.Agrees, setProc_self, and_true]
    exact agrees.1
  case running => exact fun still => absurd (agrees.1.symm.trans still) after.state_ne_running
  case saved =>
    intro waits
    refine .inl ⟨after, rfl, ?_⟩
    rintro rfl
    rcases waits with waits | waits <;> rw [agrees.1] at waits <;> cases waits
  case alive => exact inv.space p
  case on =>
    intro r code' thread
    cases thread
    exact .inr (.inl ⟨c, _, on, rfl⟩)
  case context =>
    intro saved loaded
    cases loaded
    exact .inr (.inl ⟨c, _, on, rfl⟩)

/-- The second half: the CPU is back on the stack of its scheduler. -/
theorem departs (on : k.thread c = .proc p (.swtchLoad after)) :
    Inv (k.goto c (.scheduler (.switchkvm p))) := by
  have agrees := (inv.cpu c).agrees
  rw [on] at agrees
  have unchanged : k.setProc p (k.procs p) = k := by
    simp [setProc]
  rw [← unchanged]
  have waits : (k.procs p).Waits → (k.procs p).Saved := by
    intro waits
    refine ⟨after, agrees.2, ?_⟩
    rintro rfl
    rcases waits with waits | waits <;> rw [agrees.1] at waits <;> cases waits
  apply inv.hands _ (inv.held on rfl) (by rw [on]; rfl) rfl (by rw [on]; rfl)
  case returns' => nofun
  case holds' => rfl
  case agrees' =>
    rw [unchanged]
    rcases after.state_cases with left | left | left
    · exact .inl (.inl (agrees.1.trans left))
    · exact .inl (.inr (agrees.1.trans left))
    · exact .inr (agrees.1.trans left)
  case running => exact fun still => absurd (agrees.1.symm.trans still) after.state_ne_running
  case saved => exact fun waiting => .inl (waits waiting)
  case alive => exact inv.space p
  case on => nofun
  case context =>
    intro saved loaded
    exact .inr (.inr ⟨saved, loaded, rfl⟩)

/-! ### The scheduler -/

theorem sched_held {code : SchedCode nproc} (on : k.thread c = .scheduler code)
    (holds : (Thread.scheduler code).holds = true) : k.lock = some c := by
  apply (inv.cpu c).lock.mp
  rw [on]
  exact holds

/-- `p->state = RUNNING`. -/
theorem starts (on : k.thread c = .scheduler (.setRunning p)) :
    Inv ((k.setProc p { k.procs p with state := .running }).goto c
      (.scheduler (.swtchSave p))) := by
  have agrees := (inv.cpu c).agrees
  rw [on] at agrees
  obtain ⟨runnable, saved⟩ := agrees
  apply inv.hands _ (inv.sched_held on rfl) (by rw [on]; rfl) rfl (by rw [on]; rfl)
  case returns' => rintro _ ⟨⟩
  case holds' => rfl
  case agrees' =>
    simp only [Thread.Agrees, setProc_self, true_and]
    exact saved
  case running => exact fun _ => rfl
  case saved => exact fun _ => .inl saved
  case alive => exact fun _ => inv.space p (.inl (.inl runnable))
  case on => rintro _ _ ⟨⟩
  case context =>
    intro after loaded
    exact .inr (.inr ⟨after, loaded, rfl⟩)

/-- The second half of the `swtch` in `scheduler`: the process goes on from its context. -/
theorem resumes (on : k.thread c = .scheduler (.swtchLoad p))
    (saved : (k.procs p).context = some after) :
    Inv ((k.setProc p { k.procs p with context := none }).goto c (.proc p after.code)) := by
  have agrees := (inv.cpu c).agrees
  have returns := (inv.cpu c).scheduler
  rw [on] at agrees returns
  obtain ⟨running, after', saved', lives⟩ := agrees
  rw [saved] at saved'
  have works : after.code.works = true := by
    cases after <;> simp_all [After.code, Code.works]
  have base : after.code.base = after.base := by
    cases after <;> simp_all [After.code, Code.base, After.base]
  apply inv.hands _ (inv.sched_held on rfl) (by rw [on]; rfl) rfl (by rw [on]; rfl)
  case returns' => exact returns
  case holds' => cases after <;> simp_all [After.code, Thread.holds, Code.holds]
  case agrees' =>
    cases after <;> simp_all [After.code, Thread.Agrees, Code.reaps]
  case running =>
    intro _
    simp [Thread.runs, works]
  case saved =>
    intro waits
    rcases waits with waits | waits <;> rw [running] at waits <;> cases waits
  case alive => exact inv.space p
  case on =>
    intro r code thread
    cases thread
    rw [base]
    exact .inr (.inr ⟨after, saved, rfl⟩)
  case context => rintro _ ⟨⟩

/-- A step of the handover that only changes the CPU. -/
theorem turns {code code' : SchedCode nproc} (on : k.thread c = .scheduler code)
    (holds : (Thread.scheduler code).holds = true) (cpu : Cpu nproc)
    (thread : cpu.thread = .scheduler code') (holds' : (Thread.scheduler code').holds = true)
    (proc : cpu.proc = (Thread.scheduler code').owner)
    (cr3 : cpu.cr3 = (Thread.scheduler code').space)
    (scheduler : ∀ p, (Thread.scheduler code').returns = some p → cpu.scheduler = some p)
    (agrees : (Thread.scheduler code').Agrees k.procs)
    (takes : ∀ p, (Thread.scheduler code').owner = some p →
      (Thread.scheduler code).owner = some p ∨ (k.procs p).state ≠ .running)
    (runs : (Thread.scheduler code').runs = (Thread.scheduler code).runs) :
    Inv (k.setCpu c cpu) := by
  have held := inv.sched_held on holds
  have here : (k.setCpu c cpu).cpus c = cpu := by
    simp [setCpu]
  have now : (k.setCpu c cpu).thread c = .scheduler code' := by
    rw [Kernel.thread, here, thread]
  have change := change_setCpu (k := k) (c := c) (q := k.initproc) cpu
  apply inv.change change
  case own =>
    refine ⟨?_, ?_, ?_, ?_, ?_⟩
    · simp only [now, holds', true_iff]
      exact held
    · rw [now, here]
      exact proc
    · rw [now, here]
      exact cr3
    · rw [now, here]
      exact scheduler
    · rw [now]
      exact agrees
  case alone => exact .inl rfl
  case takes =>
    intro p taken c' other mine
    rw [now] at taken
    rcases takes p taken with before | stopped
    · exact other (inv.one c' c p mine (by rw [on]; exact before))
    · exact inv.alone held stopped c' other (.inl mine)
  case running =>
    intro p running
    rw [now, runs, ← on]
    by_cases runs : (k.thread c).runs = some p
    · exact .inl runs
    · exact .inr ⟨running, runs⟩
  case ready =>
    intro p waits
    refine .inr (.inr ⟨waits, rfl, ?_⟩)
    rw [on]
    nofun
  case space => exact inv.space k.initproc
  case forks =>
    apply inv.forks_old change
    · intro p code₁ thread
      rw [now] at thread
      cases thread
    · intro after saved
      exact .inr (.inr ⟨after, saved, rfl⟩)
    · exact .inl rfl

theorem sched_goes {code : SchedCode nproc} (on : k.thread c = .scheduler code)
    (code' : SchedCode nproc) (role : SameRole (.scheduler code) (.scheduler code'))
    (holds : (Thread.scheduler code').holds = (Thread.scheduler code).holds)
    (agrees : (Thread.scheduler code').Agrees k.procs) : Inv (k.goto c (.scheduler code')) := by
  have lock := (inv.cpu c).lock
  rw [on] at lock
  exact inv.moves on role (fun _ _ => Iff.rfl) (holds ▸ lock) agrees nofun

theorem sched_acquires {code code' : SchedCode nproc}
    (on : k.thread c = .scheduler code) (taken : k.acquire c (.scheduler code') = some k')
    (role : SameRole (.scheduler code) (.scheduler code'))
    (holds : (Thread.scheduler code').holds = true)
    (agrees : (Thread.scheduler code').Agrees k.procs) : Inv k' := by
  obtain ⟨free, rfl⟩ := of_guard taken
  exact inv.moves on role (lock_others (.inl free) (.inr rfl)) (by simp [holds]) agrees nofun

theorem sched_releases {code : SchedCode nproc}
    (on : k.thread c = .scheduler code) (role : SameRole (.scheduler code) (.scheduler .idle))
    (taken : k.release c (.scheduler .idle) = some k') : Inv k' := by
  obtain ⟨mine, rfl⟩ := of_guard taken
  exact inv.moves on role (lock_others (.inr mine) (.inl rfl)) (by simp [Thread.holds]) trivial nofun

theorem kept_scheduler {code : SchedCode nproc} (on : k.thread c = .scheduler code)
    (taken : k.runScheduler c code = some k') : Inv k' := by
  have old := inv.cpu c
  have agrees := old.agrees
  have proc := old.proc
  have cr3 := old.cr3
  have saved := old.scheduler
  rw [on] at agrees proc cr3 saved
  cases code with
  | idle => exact inv.sched_acquires on taken ⟨rfl, rfl, rfl, rfl, rfl⟩ rfl trivial
  | intrAcquire chan => exact inv.sched_acquires on taken ⟨rfl, rfl, rfl, rfl, rfl⟩ rfl trivial
  | intrScan chan i =>
    simp only [runScheduler] at taken
    split at taken
    case isTrue bound =>
      cases taken
      have held := inv.sched_held on rfl
      obtain ⟨touch, spared⟩ := inv.touch_rouses
        { k.procs ⟨i, bound⟩ with toSleeper := (k.procs ⟨i, bound⟩).wakeup1 (some chan) } held
        Sleeper.wakeup1_state rfl (.scheduler (.intrScan chan (i + 1)))
      have change := change_setProc (k := k) (c := c) (q := ⟨i, bound⟩)
        { k.procs ⟨i, bound⟩ with toSleeper := (k.procs ⟨i, bound⟩).wakeup1 (some chan) }
        (.scheduler (.intrScan chan (i + 1)))
      apply inv.plain change (goto_cpu _) (on ▸ ⟨rfl, rfl, rfl, rfl, rfl⟩) _ trivial touch
      · apply inv.forks_old change
        · intro p code thread
          rw [thread_goto] at thread
          cases thread
        · rw [goto_procs, setProc_self]
          exact fun after saved => .inr (.inr ⟨after, saved, rfl⟩)
        · rw [goto_procs, setProc_self]
          exact spared
      · simp [Thread.holds, held]
    case isFalse =>
      cases taken
      exact inv.sched_goes on _ ⟨rfl, rfl, rfl, rfl, rfl⟩ rfl trivial
  | intrRelease => exact inv.sched_releases on ⟨rfl, rfl, rfl, rfl, rfl⟩ taken
  | loop i =>
    simp only [runScheduler] at taken
    split at taken
    case isTrue bound =>
      split at taken
      case isTrue runnable =>
        cases taken
        -- a process whose context is not saved yet would be that of the holder of the lock
        have ready : (k.procs ⟨i, bound⟩).Saved := by
          rcases inv.ready _ (.inl runnable) with saved | ⟨c', saving⟩
          · exact saved
          · have stopped : (k.procs ⟨i, bound⟩).state ≠ .running := runnable.trans_ne (by rintro ⟨⟩)
            have owner := Thread.owner_of_saves saving
            by_cases here : c' = c
            · subst here
              rw [on] at saving
              cases saving
            · exact absurd (.inl owner)
                (inv.alone (inv.sched_held on rfl) stopped c' here)
        exact inv.sched_goes on _ ⟨rfl, rfl, rfl, rfl, rfl⟩ rfl ⟨runnable, ready⟩
      case isFalse =>
        cases taken
        exact inv.sched_goes on _ ⟨rfl, rfl, rfl, rfl, rfl⟩ rfl trivial
    case isFalse =>
      cases taken
      exact inv.sched_goes on _ ⟨rfl, rfl, rfl, rfl, rfl⟩ rfl trivial
  | setProc p =>
    cases taken
    refine inv.turns on rfl _ rfl rfl rfl cr3 (by rintro _ ⟨⟩) agrees ?_ rfl
    rintro r ⟨⟩
    exact .inr (agrees.1.trans_ne (by rintro ⟨⟩))
  | switchuvm p =>
    obtain ⟨-, rfl⟩ := of_guard taken
    exact inv.turns on rfl _ rfl rfl proc rfl (by rintro _ ⟨⟩) agrees (fun r owner => .inl owner) rfl
  | setRunning p =>
    cases taken
    exact inv.starts on
  | swtchSave p =>
    cases taken
    exact inv.turns on rfl _ rfl rfl proc cr3 (fun r same => same) agrees
      (fun r owner => .inl owner) rfl
  | swtchLoad p =>
    simp only [runScheduler, Option.map_eq_some_iff] at taken
    obtain ⟨after, saved, rfl⟩ := taken
    exact inv.resumes on saved
  | switchkvm p =>
    cases taken
    exact inv.turns on rfl _ rfl rfl proc rfl (by rintro _ ⟨⟩) agrees (fun r owner => .inl owner) rfl
  | clearProc p =>
    cases taken
    exact inv.turns on rfl _ rfl rfl rfl cr3 (by rintro _ ⟨⟩) trivial (by rintro _ ⟨⟩) rfl
  | release => exact inv.sched_releases on ⟨rfl, rfl, rfl, rfl, rfl⟩ taken

/-! ### The processes -/

theorem kept_fork {base : Base nproc} (on : k.thread c = .proc p (.at base))
    {ok : Bool} (taken : k.runProc c p p ok (.at base) = some k') : Inv k' := by
  have given := inv.forks p base (.inl ⟨c, _, on, rfl⟩)
  have unused : ∀ {proc : Proc nproc}, proc.state = .unused → proc.state ≠ .running ∧ ¬ proc.Waits :=
    fun state => ⟨state.trans_ne nofun, not_or.mpr ⟨state.trans_ne nofun, state.trans_ne nofun⟩⟩
  have idle : ∀ {proc : Proc nproc}, proc.state = .embryo → proc.state ≠ .running ∧ ¬ proc.Waits :=
    fun state => ⟨state.trans_ne nofun, not_or.mpr ⟨state.trans_ne nofun, state.trans_ne nofun⟩⟩
  cases base with
  | user => cases taken
  | forkKstack np =>
    simp only [runProc] at taken
    split at taken
    · cases taken
      refine inv.forms on rfl (idle given) (.inl rfl) (.inr rfl) ?_
      simpa only [Code.base, Base.Ready, setProc_self, and_true] using given
    · cases taken
      exact inv.forms on rfl (unused rfl) (.inr rfl) (.inl rfl) trivial
  | forkPgdir np =>
    obtain ⟨formed, kstack, context⟩ := given
    simp only [runProc] at taken
    split at taken
    · cases taken
      refine inv.forms on rfl (idle formed) (.inr rfl) (.inr rfl) ?_
      simp only [Base.Ready, setProc_self, true_and]
      exact ⟨formed, kstack, context⟩
    · cases taken
      exact inv.forms on rfl (unused rfl) (.inr rfl) (.inl rfl) trivial
  | forkParent np =>
    cases taken
    refine inv.forms on rfl (idle given.1) (.inr rfl) (.inr rfl) ?_
    simp only [Base.Ready, setProc_self]
    exact given
  | forkReady np =>
    cases taken
    exact inv.proc_goes on rfl rfl rfl (.inr rfl) rfl

theorem nextpid (nextpid : Nat) : Inv { k with nextpid } where
  cpu c := ⟨(inv.cpu c).lock, (inv.cpu c).proc, (inv.cpu c).cr3, (inv.cpu c).scheduler,
    (inv.cpu c).agrees⟩
  one := inv.one
  running := inv.running
  ready := inv.ready
  space := inv.space
  forks := inv.forks
  sole := inv.sole

theorem kept_proc (on : k.thread c = .proc p code) {ok : Bool}
    (taken : k.runProc c p p ok code = some k') : Inv k' := by
  cases code with
  | «at» base => exact inv.kept_fork on taken
  | acquire what back =>
    obtain ⟨free, rfl⟩ := of_guard taken
    refine inv.proc_moves on rfl ?_ ?_ (lock_others (.inl free) (.inr rfl)) (iff_of_true ?_ rfl) ?_
    all_goals cases what <;> first | rfl | exact .inl rfl | exact .inr rfl | nofun
  | yieldState back =>
    cases taken
    exact inv.leaves on rfl rfl (.yield back) (.inr rfl)
  | sleepChan chan inWait =>
    cases taken
    exact inv.notes on rfl rfl rfl (.inl rfl) rfl rfl
  | sleepState inWait =>
    cases taken
    cases inWait with
    | false => exact inv.leaves on rfl rfl .sleep (.inl rfl)
    | true => exact inv.leaves on rfl rfl .wait (.inl rfl)
  | swtchSave after =>
    obtain ⟨-, rfl⟩ := of_guard taken
    exact inv.saves on
  | swtchLoad after =>
    have loaded := (inv.cpu c).scheduler p (by rw [on]; rfl)
    simp only [runProc, loaded] at taken
    cases taken
    exact inv.departs on
  | sleepTidy inWait =>
    cases taken
    cases inWait with
    | false => exact inv.notes on rfl rfl rfl (.inl rfl) rfl rfl
    | true => exact inv.notes on rfl rfl rfl (.inl rfl) rfl rfl
  | wakeupScan chan i back =>
    simp only [runProc] at taken
    split at taken
    · cases taken
      exact inv.rouses on rfl rfl rfl (.inr rfl) rfl Sleeper.wakeup1_state rfl rfl
    · cases taken
      exact inv.proc_goes on rfl rfl rfl (.inr rfl) rfl
  | killScan pid i =>
    simp only [runProc] at taken
    split at taken
    case isTrue bound =>
      split at taken
      · cases taken
        exact inv.rouses on rfl rfl rfl (.inl rfl) rfl Sleeper.kill_state rfl rfl
      · cases taken
        exact inv.proc_goes on rfl rfl rfl (.inl rfl) rfl
    case isFalse =>
      cases taken
      exact inv.proc_goes on rfl rfl rfl (.inl rfl) rfl
  | allocScan i =>
    simp only [runProc] at taken
    split at taken
    case isTrue bound =>
      split at taken
      case isTrue free =>
        cases taken
        refine Inv.nextpid (k := (k.setProc _ _).goto c _) ?_ (k.nextpid + 1)
        exact inv.allocates on _ free rfl rfl
      case isFalse =>
        cases taken
        exact inv.proc_goes on rfl rfl rfl (.inl rfl) rfl
    case isFalse =>
      cases taken
      exact inv.proc_goes on rfl rfl rfl (.inl rfl) rfl
  | forkRunnable np =>
    cases taken
    obtain ⟨-, kstack, pgdir, context⟩ := inv.forks p (.forkReady np) (.inl ⟨c, _, on, rfl⟩)
    refine inv.creates on _ rfl rfl rfl rfl rfl (by rintro ⟨⟩) ?_ (.inr rfl) (.inl rfl) trivial
    exact fun _ => ⟨⟨.forkret, context, by rintro ⟨⟩⟩, kstack, pgdir⟩
  | exitWakeup i =>
    simp only [runProc] at taken
    split at taken
    · cases taken
      exact inv.rouses on rfl rfl rfl (.inl rfl) rfl Sleeper.wakeup1_state rfl rfl
    · cases taken
      exact inv.proc_goes on rfl rfl rfl (.inl rfl) rfl
  | exitChildren i =>
    simp only [runProc] at taken
    split at taken
    · split at taken
      · cases taken
        split
        · exact inv.notes on rfl rfl rfl (.inl rfl) rfl rfl
        · exact inv.notes on rfl rfl rfl (.inl rfl) rfl rfl
      · cases taken
        exact inv.proc_goes on rfl rfl rfl (.inl rfl) rfl
    · cases taken
      exact inv.proc_goes on rfl rfl rfl (.inl rfl) rfl
  | exitWakeInit i j =>
    simp only [runProc] at taken
    split at taken
    · cases taken
      exact inv.rouses on rfl rfl rfl (.inl rfl) rfl Sleeper.wakeup1_state rfl rfl
    · cases taken
      exact inv.proc_goes on rfl rfl rfl (.inl rfl) rfl
  | exitState =>
    cases taken
    exact inv.leaves on rfl rfl .exit (.inl rfl)
  | waitScan havekids i =>
    simp only [runProc] at taken
    split at taken
    case isTrue bound =>
      split at taken
      · split at taken
        case isTrue zombie =>
          cases taken
          refine inv.goes on rfl rfl rfl (.inl rfl) ?_
          rintro r ⟨⟩
          exact zombie
        case isFalse =>
          cases taken
          exact inv.proc_goes on rfl rfl rfl (.inl rfl) rfl
      · cases taken
        exact inv.proc_goes on rfl rfl rfl (.inl rfl) rfl
    case isFalse =>
      split at taken
      · cases taken
        exact inv.proc_goes on rfl rfl rfl (.inl rfl) rfl
      · cases taken
        exact inv.proc_goes on rfl rfl rfl (.inl rfl) rfl
  | waitKfree q | waitFreevm q =>
    cases taken
    have zombie := ((inv.cpu c).agrees)
    rw [on] at zombie
    exact inv.reaps on rfl rfl rfl (.inl rfl) rfl rfl (.inl (zombie.2.2 q rfl)) (.inr rfl) rfl
  | waitUnused q =>
    cases taken
    exact inv.reaps on rfl rfl rfl (.inl rfl) rfl rfl (.inr ⟨rfl, rfl⟩) (.inl rfl) rfl
  | release back =>
    obtain ⟨mine, rfl⟩ := of_guard taken
    exact inv.proc_moves on rfl rfl (.inr rfl) (lock_others (.inr mine) (.inl rfl))
      (by simp [Code.holds]) nofun
  | zombieExit => cases taken

theorem kept {label : Label nproc ncpu} (taken : step k label = some k') : Inv k' := by
  cases label with
  | call c what =>
    simp only [step] at taken
    split at taken
    case h_1 p base on =>
      obtain ⟨allowed, rfl⟩ := of_guard taken
      refine inv.proc_goes on rfl rfl rfl ?_ rfl
      cases what with
      | forkRunnable np => cases allowed
      | _ => exact .inr rfl
    case h_2 on =>
      split at taken
      · cases taken
        exact inv.sched_goes on _ ⟨rfl, rfl, rfl, rfl, rfl⟩ rfl trivial
      · cases taken
    case h_3 => cases taken
  | run c ok =>
    simp only [step] at taken
    split at taken
    case h_1 p code on =>
      have mine := (inv.cpu c).proc
      rw [Kernel.thread, on] at mine
      rw [mine] at taken
      exact inv.kept_proc on taken
    case h_2 code on => exact inv.kept_scheduler on taken

end

end Inv

end Laboratorio.Xv6.Sched
