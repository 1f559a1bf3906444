import Laboratorio.Xv6.Proc.Fork

/-! # Who is killed

A process is killed only by its own `kill` as long as the flag of an `UNUSED` slot is
clear, because `allocproc` does not clear it.  Two steps set it there: a `kill` whose
scan stops at an `UNUSED` slot (`kill(0)` as long as the table has a free slot), and
a `fork` that fails after its `EMBRYO` was killed.  `kill_zero_marks_next_child` is a
run of the first kind; `killed_by_own_kill` covers the runs without either.
-/

namespace Laboratorio.Xv6.Procs

open Laboratorio.Lib List Table

variable {table : Table} {curproc np : Slot}

/-- The events since the slot was last handed out by `allocproc`. -/
def sinceAllocated (slot : Slot) (history : List Event) : List Event :=
  history.takeWhile fun event =>
    match event with
    | .allocated other _ => other != slot
    | _ => true

/-- Since `allocproc` gave the process in `slot` its pid, `kill` was called with that
pid or its own trap handler killed it. -/
def KilledByOwn (slot : Slot) (pid : Int32) (history : List Event) : Prop :=
  .killCalled pid ∈ sinceAllocated slot history ∨ .trapped slot ∈ sinceAllocated slot history

theorem sinceAllocated_cons {slot : Slot} {event : Event} (history : List Event)
    (other : ∀ birth, event ≠ .allocated slot birth) :
    sinceAllocated slot (event :: history) = event :: sinceAllocated slot history := by
  unfold sinceAllocated
  rw [takeWhile_cons_of_pos]
  cases event with
  | allocated handed birth =>
    simp only [bne_iff_ne]
    rintro rfl
    exact other birth rfl
  | _ => rfl

theorem sinceAllocated_allocated (slot : Slot) (birth : Nat) (history : List Event) :
    sinceAllocated slot (.allocated slot birth :: history) = [] := by
  simp [sinceAllocated]

/-- The flag of one slot can be trusted. -/
structure FlagOk (slot : Slot) (proc : Proc) (history : List Event) : Prop where
  clear : proc.state = .unused → proc.killed = false
  own : proc.state ≠ .unused → proc.killed = true → KilledByOwn slot proc.pid history
  untrapped : proc.state = .embryo → .trapped slot ∉ sinceAllocated slot history

namespace FlagOk

variable {slot : Slot} {proc after : Proc} {history : List Event}

theorem transfer (ok : FlagOk slot proc history) (pid : after.pid = proc.pid)
    (killed : after.killed = proc.killed)
    (unused : after.state = .unused ↔ proc.state = .unused)
    (embryo : after.state = .embryo → proc.state = .embryo) : FlagOk slot after history where
  clear free := killed.trans (ok.clear (unused.mp free))
  own used flagged := by
    rw [pid]
    exact ok.own (fun free => used (unused.mpr free)) (killed ▸ flagged)
  untrapped isEmbryo := ok.untrapped (embryo isEmbryo)

theorem event (ok : FlagOk slot proc history) {event : Event}
    (notAllocated : ∀ birth, event ≠ .allocated slot birth) (notTrapped : event ≠ .trapped slot) :
    FlagOk slot proc (event :: history) where
  clear := ok.clear
  own used flagged := by
    unfold KilledByOwn
    rw [sinceAllocated_cons history notAllocated]
    exact (ok.own used flagged).imp (mem_cons_of_mem _) (mem_cons_of_mem _)
  untrapped isEmbryo := by
    rw [sinceAllocated_cons history notAllocated, mem_cons, not_or]
    exact ⟨notTrapped.symm, ok.untrapped isEmbryo⟩

theorem of_clear (used : after.state ≠ .unused → after.state ≠ .embryo)
    (clear : after.killed = false) : FlagOk slot after history where
  clear _ := clear
  own _ flagged := by simp [clear] at flagged
  untrapped isEmbryo := by
    have isUsed : after.state ≠ .unused := by simp [isEmbryo]
    exact absurd isEmbryo (used isUsed)

end FlagOk

/-- The step leaves no flag set in an `UNUSED` slot: the scan of a `kill` does not stop
at one, and a `fork` does not give back an `EMBRYO` that was killed. -/
def keepsFreeSlotsClear (table : Table) : Label → Bool
  | .kill pid =>
    match table.find fun proc => proc.pid == pid with
    | some slot => (table.procs slot).state != .unused
    | none => true
  | .kallocStack curproc false | .copyuvm curproc false =>
    match (table.procs curproc).code.child with
    | some np => !(table.procs np).killed
    | none => true
  | _ => true

def FlagInv (table : Table) : Prop :=
  ∀ slot, FlagOk slot (table.procs slot) table.history

theorem flagInv_booted : FlagInv booted := by
  intro slot
  have clear : (booted.procs slot).killed = false := by
    unfold booted
    simp only
    split <;> rfl
  refine .of_clear (fun _ isEmbryo => ?_) clear
  unfold booted at isEmbryo
  simp only at isEmbryo
  split at isEmbryo <;> cases isEmbryo

/-- The flag of a child that its `fork` gives back is clear. -/
theorem killed_giveBack {label : Label} (kept : keepsFreeSlotsClear table label = true)
    (place : label = .kallocStack curproc false ∧ (table.procs curproc).code = .forkKalloc np ∨
      label = .copyuvm curproc false ∧ (table.procs curproc).code = .forkCopyuvm np) :
    (table.procs np).killed = false := by
  obtain ⟨rfl, code⟩ | ⟨rfl, code⟩ := place <;>
    simpa [keepsFreeSlotsClear, code, Code.child] using kept

/-- `FlagInv` needs `ForkInv` where the child of a `fork` becomes `RUNNABLE`: it was in
use before. -/
theorem FlagInv.step {next : Table} {label : Label} (inv : FlagInv table)
    (forkInv : ForkInv table) (kept : keepsFreeSlotsClear table label = true)
    (effect : Effect table label next) : FlagInv next := by
  intro slot
  cases effect with
  | moves moves =>
    rw [moves.history]
    exact (inv slot).transfer (moves.procs slot).pid (moves.procs slot).killed
      (moves.state_iff slot rfl) (moves.state_iff slot rfl).mp
  | allocproc np runs place free births history procs =>
    rw [procs slot, history]
    by_cases isNp : slot = np
    · subst isNp
      rw [if_pos rfl]
      refine ⟨nofun, fun _ flagged => ?_, fun _ => ?_⟩
      · have clear := (inv slot).clear free
        simp [clear] at flagged
      · simp [sinceAllocated_allocated]
    · have other : FlagOk slot (table.procs slot) (.allocated np table.births :: table.history) :=
        (inv slot).event (fun _ same => isNp (Event.allocated.inj same).1.symm) nofun
      rw [if_neg isNp]
      split
      · rename_i isCurproc
        subst isCurproc
        exact other.transfer rfl rfl Iff.rfl id
      · exact other
  | kallocStack np runs place =>
    rw [goto_procs]
    exact (inv slot).transfer rfl rfl Iff.rfl id
  | giveBack np runs place =>
    rw [goto_procs]
    induction slot using set_cases with
    | own => exact .of_clear (fun used => absurd rfl used) (killed_giveBack kept place)
    | others slot _ => exact (inv slot).transfer rfl rfl Iff.rfl id
  | copyuvm np runs place =>
    rw [goto_procs]
    induction slot using set_cases with
    | own => exact (inv np).transfer rfl rfl Iff.rfl id
    | others slot _ => exact (inv slot).transfer rfl rfl Iff.rfl id
  | @forkRunnable curproc np runs place =>
    have embryo := forkInv.embryo curproc np (by rw [place]; rfl)
    unfold forkRunnable
    rw [record_procs, goto_procs]
    refine FlagOk.event ?_ nofun nofun
    induction slot using set_cases with
    | own => exact (inv np).transfer rfl rfl (by simp [embryo]) nofun
    | others slot _ => exact (inv slot).transfer rfl rfl Iff.rfl id
  | @exit curproc next notInit runs place exits =>
    rw [exits.history]
    refine FlagOk.event ?_ nofun nofun
    have pid : (next.procs slot).pid = (table.procs slot).pid := by rw [exits.procs slot]
    have killed : (next.procs slot).killed = (table.procs slot).killed := by
      rw [exits.procs slot]
    by_cases isCurproc : slot = curproc
    · subst isCurproc
      exact (inv slot).transfer pid killed (by simp [runs, exits.zombie]) (by simp [exits.zombie])
    · cases exits.state slot isCurproc with
      | inl same => exact (inv slot).transfer pid killed (by rw [same]) (by rw [same]; exact id)
      | inr woken => exact (inv slot).transfer pid killed (by simp [woken]) (by simp [woken])
  | reap child runs place parent zombie =>
    rw [record_procs, goto_procs]
    refine FlagOk.event ?_ nofun nofun
    induction slot using set_cases with
    | own => exact .of_clear (fun used => absurd rfl used) rfl
    | others slot _ => exact (inv slot).transfer rfl rfl Iff.rfl id
  | @waitSleep curproc runs place none =>
    induction slot using set_cases with
    | own => exact (inv curproc).transfer rfl rfl (by simp [runs]) nofun
    | others slot _ => exact inv slot
  | killMisses missed => exact (inv slot).event nofun nofun
  | @killHits pid hitSlot hit =>
    rw [record_procs, record_history]
    by_cases isHit : slot = hitSlot
    · subst isHit
      have used : (table.procs slot).state ≠ .unused := by
        simpa [keepsFreeSlotsClear, hit] using kept
      have hasPid : (table.procs slot).pid = pid := by
        simpa using find_some hit
      rw [set_procs_self]
      refine ⟨fun free => ?_, fun _ _ => Or.inl ?_, fun isEmbryo => ?_⟩
      · exact absurd ((Sleeper.kill_state_iff .unused (by decide)).mp free) used
      · rw [sinceAllocated_cons, hasPid]
        · exact mem_cons_self
        · exact nofun
      · have before : (table.procs slot).state = .embryo :=
          (Sleeper.kill_state_iff .embryo (by decide)).mp isEmbryo
        rw [sinceAllocated_cons, mem_cons]
        · exact fun member => member.elim nofun ((inv slot).untrapped before)
        · exact nofun
    · rw [set_procs_of_ne _ _ isHit]
      exact (inv slot).event nofun nofun
  | @trap curproc runs =>
    rw [record_procs, record_history]
    by_cases isCurproc : slot = curproc
    · subst isCurproc
      refine ⟨by simp [runs], fun _ _ => Or.inr ?_, by simp [runs]⟩
      rw [sinceAllocated_cons]
      · exact mem_cons_self
      · exact nofun
    · rw [set_procs_of_ne _ _ isCurproc]
      exact (inv slot).event nofun fun same => isCurproc (Event.trapped.inj same).symm

theorem flagInv_reachable
    (reachable : system.ReachableWhen (fun table label => keepsFreeSlotsClear table label = true)
      table) : FlagInv table := by
  refine reachable.invariant ?_ ?_
  · rintro _ rfl
    exact flagInv_booted
  · intro table label next before inv kept taken
    exact inv.step (forkInv_reachable before) kept (effect_of_step taken)

theorem FlagInv.killed_allocproc {next : Table} (inv : FlagInv table)
    (taken : Procs.step table (.allocproc curproc) = some next)
    (place : (next.procs curproc).code = .forkKalloc np) : (next.procs np).killed = false := by
  have outside : (table.procs curproc).code = .elsewhere := by
    simp only [Procs.step, Option.ite_none_right_eq_some, runs_iff] at taken
    exact taken.1.2
  cases effect_of_step taken with
  | moves moves =>
    have child := moves.child curproc
    simp [place, outside, Code.child] at child
  | allocproc handed runs _ free births history procs =>
    have different : curproc ≠ handed := by
      rintro rfl
      simp [runs] at free
    have same : handed = np := by
      simpa [procs, different] using place
    subst same
    simpa [procs] using (inv handed).clear free
  | giveBack _ _ failed => simp at failed

theorem FlagInv.killed_forkRunnable (inv : FlagInv table)
    (embryo : (table.procs np).state = .embryo)
    (flagged : ((table.forkRunnable curproc np).procs np).killed = true) :
    .killCalled ((table.forkRunnable curproc np).procs np).pid ∈
      sinceAllocated np (table.forkRunnable curproc np).history := by
  simp only [forkRunnable, record_procs, goto_procs,
    set_procs_self] at flagged ⊢
  rw [record_history, sinceAllocated_cons]
  · refine mem_cons_of_mem _ ?_
    have own := (inv np).own (by simp [embryo]) flagged
    exact own.resolve_right ((inv np).untrapped embryo)
  · exact nofun

/-- A process is killed by its own `kill` only: a flagged process was killed under its
pid, or by its own trap, since it got that pid; `allocproc` hands out a clear flag and
`fork` returns a flagged child only if that child was killed meanwhile; and `kill`
returns 0 only if a process has the pid. -/
theorem killed_by_own_kill {table : Table}
    (reachable : system.ReachableWhen (fun table label => keepsFreeSlotsClear table label = true)
      table) :
    (∀ slot, (table.procs slot).state ≠ .unused → (table.procs slot).killed = true →
      KilledByOwn slot (table.procs slot).pid table.history) ∧
    (∀ curproc np next, step table (.allocproc curproc) = some next →
      (next.procs curproc).code = .forkKalloc np → (next.procs np).killed = false) ∧
    (∀ curproc np next, (table.procs curproc).code = .forkRunnable np →
      step table (.forkRunnable curproc) = some next → (next.procs np).killed = true →
      .killCalled (next.procs np).pid ∈ sinceAllocated np next.history) ∧
    (∀ pid, keepsFreeSlotsClear table (.kill pid) = true → (table.kill pid).2 = 0 →
      ∃ slot, (table.procs slot).state ≠ .unused ∧ (table.procs slot).pid = pid) := by
  have inv := flagInv_reachable reachable
  have forkInv := forkInv_reachable reachable
  refine ⟨fun slot => (inv slot).own, ?_, ?_, ?_⟩
  · intro curproc np next taken place
    exact inv.killed_allocproc taken place
  · intro curproc np next place taken flagged
    have embryo := forkInv.embryo curproc np (by rw [place]; rfl)
    simp only [step, place, Option.ite_none_right_eq_some, Option.some.injEq] at taken
    obtain ⟨_, rfl⟩ := taken
    exact inv.killed_forkRunnable embryo flagged
  · intro pid kept returned
    unfold kill at returned
    cases search : table.find fun proc => proc.pid == pid with
    | none => simp [search] at returned
    | some slot =>
      refine ⟨slot, ?_, ?_⟩
      · simpa [keepsFreeSlotsClear, search] using kept
      · simpa using find_some search

/-- Init forks a child with pid 2 and kills it. -/
def childKilled : List Label :=
  [.schedule initproc, .allocproc initproc, .kallocStack initproc true, .copyuvm initproc true,
    .forkRunnable initproc, .kill 2]

theorem child_killed_by_own_kill :
    ∃ table : Table, (table.procs firstChild).state = .runnable ∧
      (table.procs firstChild).killed = true ∧ KilledByOwn firstChild 2 table.history := by
  have ran : ∃ table ∈ system.runWhen (fun table label => keepsFreeSlotsClear table label = true)
      booted childKilled, (table.procs firstChild).state = .runnable ∧
        (table.procs firstChild).killed = true ∧ (table.procs firstChild).pid = 2 := by
    decide +kernel
  obtain ⟨table, run, state, killed, pid⟩ := ran
  have own := (killed_by_own_kill (.of_runWhen (.init rfl) run)).1 firstChild (by simp [state]) killed
  exact ⟨table, state, killed, pid ▸ own⟩

/-- `kill(0)` before init forks. -/
def killZero : List Label :=
  [.kill 0, .schedule initproc, .allocproc initproc, .kallocStack initproc true,
    .copyuvm initproc true, .forkRunnable initproc]

/-- `kill(0)` returns 0 although no process has pid 0, and the next child starts killed
without a `kill` of its pid. -/
theorem kill_zero_marks_next_child :
    ((booted.kill 0).2 = 0 ∧ ∀ slot, (booted.procs slot).state ≠ .unused →
      (booted.procs slot).pid ≠ 0) ∧
    ∃ table, system.Reachable table ∧ (table.procs firstChild).state = .runnable ∧
      (table.procs firstChild).killed = true ∧ ¬ KilledByOwn firstChild (table.procs firstChild).pid table.history := by
  refine ⟨⟨by decide +kernel, by decide +kernel⟩, ?_⟩
  have ran : ∃ table ∈ system.runWhen (fun _ _ => True) booted killZero,
      (table.procs firstChild).state = .runnable ∧ (table.procs firstChild).killed = true ∧
        sinceAllocated firstChild table.history = [.forked 0 1] := by
    decide +kernel
  obtain ⟨table, run, state, killed, since⟩ := ran
  refine ⟨table, .of_runWhen (.init rfl) run, state, killed, ?_⟩
  simp [KilledByOwn, since]

end Laboratorio.Xv6.Procs
