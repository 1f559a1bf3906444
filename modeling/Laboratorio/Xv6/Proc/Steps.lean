import Laboratorio.Xv6.Proc.Model

/-! # What a step of the process table can do

`Effect` lists the changes a step can make, with the guards under which it makes them,
and `effect_of_step` is the only place where `step` is unfolded.  Most steps only move
processes among `SLEEPING`, `RUNNABLE` and `RUNNING` (`Moves`).  `exit` is described by
`Passed`, an invariant of its loop over the table.
-/

namespace Laboratorio.Xv6.Procs

open Laboratorio.Lib Table List

variable {slot curproc : Slot} {state : ProcState} {table next : Table} {found : Proc → Bool}

/-- The slot of the child a `fork` is making. -/
def Code.child : Code → Option Slot
  | .forkKalloc np | .forkCopyuvm np | .forkRunnable np => some np
  | .elsewhere | .wait => none

/-- A live process changes its state, its channel or, outside `fork`, its place. -/
structure Moved (before after : Proc) : Prop where
  pid : after.pid = before.pid
  killed : after.killed = before.killed
  parent : after.parent = before.parent
  birth : after.birth = before.birth
  state : after.state = before.state ∨ before.state.live = true ∧ after.state.live = true
  code : after.code = before.code ∨ before.code.child = none ∧ after.code.child = none
  awake : after.code.child ≠ none → after.state = .sleeping → before.state = .sleeping
  waits : ∀ slot, after.state = .sleeping → after.chan = some (.proc slot) →
    before.state = .sleeping ∧ before.chan = some (.proc slot)

/-- Only live processes move; the rest of the table stays. -/
structure Moves (table next : Table) : Prop where
  history : next.history = table.history
  births : next.births = table.births
  procs : ∀ slot, Moved (table.procs slot) (next.procs slot)

theorem Moved.refl (proc : Proc) : Moved proc proc where
  pid := rfl
  killed := rfl
  parent := rfl
  birth := rfl
  state := Or.inl rfl
  code := Or.inl rfl
  awake _ := id
  waits _ := And.intro

namespace Moves

variable {table next : Table}

theorem refl (table : Table) : Moves table table :=
  ⟨rfl, rfl, fun slot => Moved.refl (table.procs slot)⟩

theorem set {proc : Proc} (moved : Moved (table.procs slot) proc) :
    Moves table (table.set slot proc) := by
  refine ⟨rfl, rfl, fun other => ?_⟩
  induction other using set_cases with
  | own => exact moved
  | others other _ => exact Moved.refl _

theorem wakeup1 (table : Table) (chan : Chan) : Moves table (table.wakeup1 chan) := by
  refine ⟨rfl, rfl, fun slot => ⟨rfl, rfl, rfl, rfl, ?_, Or.inl rfl, ?_, ?_⟩⟩
  · exact Sleeper.wakeup1_state.imp_right fun woken => by simp [woken, Table.wakeup1, ProcState.live]
  · exact fun _ asleep => (Sleeper.asleep_of_wakeup1 asleep).1
  · intro waited asleep waits
    simp only [Table.wakeup1, Sleeper.wakeup1_chan] at waits
    exact ⟨(Sleeper.asleep_of_wakeup1 asleep).1, waits⟩

theorem state_iff (moves : Moves table next) (slot : Slot) (outside : state.live = false) :
    (next.procs slot).state = state ↔ (table.procs slot).state = state := by
  cases (moves.procs slot).state with
  | inl same => rw [same]
  | inr both =>
    have before : (table.procs slot).state ≠ state := by
      rintro rfl
      simp [both.1] at outside
    have after : (next.procs slot).state ≠ state := by
      rintro rfl
      simp [both.2] at outside
    exact iff_of_false after before

theorem live_iff (moves : Moves table next) (slot : Slot) :
    (next.procs slot).state.live = true ↔ (table.procs slot).state.live = true := by
  cases (moves.procs slot).state with
  | inl same => rw [same]
  | inr both => simp [both.1, both.2]

theorem child (moves : Moves table next) (slot : Slot) :
    (next.procs slot).code.child = (table.procs slot).code.child := by
  cases (moves.procs slot).code with
  | inl same => rw [same]
  | inr both => rw [both.1, both.2]

end Moves

/-! ## The loop of `exit` -/

/-- What the loop of `exit` has done to `table` after a part of the slots: the children
of `curproc` among them belong to init, and init does not sleep in `wait` if one of
them is a `ZOMBIE`. -/
structure Passed (curproc : Slot) (slots : List Slot) (table next : Table) : Prop where
  history : next.history = table.history
  births : next.births = table.births
  procs : ∀ slot, next.procs slot = { table.procs slot with
    state := (next.procs slot).state
    parent := if slot ∈ slots ∧ (table.procs slot).parent = some curproc then some initproc
      else (table.procs slot).parent }
  state : ∀ slot, (next.procs slot).state = (table.procs slot).state ∨
    (table.procs slot).state = .sleeping ∧ (next.procs slot).state = .runnable
  woken : ∀ child ∈ slots, (table.procs child).parent = some curproc →
    (table.procs child).state = .zombie → ∀ slot, (next.procs slot).state = .sleeping →
    (next.procs slot).chan ≠ some (.proc initproc)

theorem Passed.nil (curproc : Slot) (table : Table) : Passed curproc [] table table where
  history := rfl
  births := rfl
  procs slot := by simp
  state slot := Or.inl rfl
  woken _ absent := by cases absent

theorem wakeup1_procs (table : Table) (chan : Chan) (slot : Slot) :
    (table.wakeup1 chan).procs slot =
      { table.procs slot with state := ((table.wakeup1 chan).procs slot).state } := by
  simp only [wakeup1, Sleeper.wakeup1]
  split <;> rfl

theorem not_asleep_wakeup1 {chan : Chan}
    (asleep : ((table.wakeup1 chan).procs slot).state = .sleeping) :
    ((table.wakeup1 chan).procs slot).chan ≠ some chan := by
  simp only [wakeup1, Sleeper.wakeup1_chan]
  exact (Sleeper.asleep_of_wakeup1 asleep).2

namespace Passed

variable {curproc : Slot} {slots visited rest : List Slot} {table next last : Table}

section

variable (passed : Passed curproc slots table next)
include passed

theorem chan (slot : Slot) : (next.procs slot).chan = (table.procs slot).chan := by
  rw [passed.procs slot]

theorem parent (slot : Slot) :
    (next.procs slot).parent =
      if slot ∈ slots ∧ (table.procs slot).parent = some curproc then some initproc
      else (table.procs slot).parent := by
  rw [passed.procs slot]

theorem state_iff (slot : Slot) (outside : state.live = false) :
    (next.procs slot).state = state ↔ (table.procs slot).state = state := by
  cases passed.state slot with
  | inl same => rw [same]
  | inr woken =>
    rw [woken.1, woken.2]
    constructor <;>
    · rintro rfl
      cases outside

theorem sleeping
    (asleep : (next.procs slot).state = .sleeping) : (table.procs slot).state = .sleeping := by
  cases passed.state slot with
  | inl same => rw [← same, asleep]
  | inr woken => exact woken.1

end

/-- `init` is not the exiting process, so no slot is passed on twice. -/
theorem trans (notInit : curproc ≠ initproc) (first : Passed curproc visited table next)
    (second : Passed curproc rest next last) : Passed curproc (visited ++ rest) table last where
  history := second.history.trans first.history
  births := second.births.trans first.births
  procs slot := by
    rw [second.procs slot, first.procs slot]
    have other : initproc ≠ curproc := notInit.symm
    by_cases abandoned : (table.procs slot).parent = some curproc
    · by_cases early : slot ∈ visited <;> simp [abandoned, early]
    · simp [abandoned]
  state slot := by
    cases second.state slot with
    | inl same => rw [same]; exact first.state slot
    | inr woken => exact Or.inr ⟨first.sleeping woken.1, woken.2⟩
  woken child mentioned abandoned zombie slot asleep := by
    by_cases early : child ∈ visited
    · rw [second.chan slot]
      exact first.woken child early abandoned zombie slot (second.sleeping asleep)
    · have late := (mem_append.mp mentioned).resolve_left early
      refine second.woken child late ?_ ((first.state_iff child rfl).mpr zombie) slot asleep
      rw [first.parent child]
      simp [early, abandoned]

theorem abandon (curproc slot : Slot) (table : Table) :
    Passed curproc [slot] table (table.abandon curproc slot) := by
  unfold Table.abandon
  by_cases abandoned : (table.procs slot).parent = some curproc
  · rw [if_pos abandoned]
    -- the child is passed on, with init still asleep
    have given : ∀ other, (table.set slot { table.procs slot with
        parent := some initproc }).procs other = { table.procs other with
          parent := if other ∈ [slot] ∧ (table.procs other).parent = some curproc then
            some initproc else (table.procs other).parent } := by
      intro other
      induction other using set_cases with
      | own => simp [abandoned]
      | others other different => simp [different]
    have states : ∀ other, ((table.set slot { table.procs slot with
        parent := some initproc }).procs other).state = (table.procs other).state := by
      intro other
      rw [given other]
    by_cases zombie : (table.procs slot).state = .zombie
    · rw [if_pos zombie]
      refine ⟨rfl, rfl, fun other => ?_, fun other => ?_, fun _ _ _ _ other asleep => ?_⟩
      · rw [wakeup1_procs, given other]
      · rw [← states other]
        exact Sleeper.wakeup1_state
      · exact not_asleep_wakeup1 asleep
    · rw [if_neg zombie]
      refine ⟨rfl, rfl, fun other => ?_, fun other => Or.inl (states other), ?_⟩
      · rw [given other]
      · intro child mentioned _ isZombie
        rw [mem_singleton.mp mentioned] at isZombie
        exact absurd isZombie zombie
  · rw [if_neg abandoned]
    refine ⟨rfl, rfl, fun other => ?_, fun _ => Or.inl rfl, ?_⟩
    · by_cases same : other = slot
      · subst same
        simp [abandoned]
      · simp [same]
    · intro child mentioned isChild
      rw [mem_singleton.mp mentioned] at isChild
      exact absurd isChild abandoned

theorem foldl (notInit : curproc ≠ initproc) (slots : List Slot) (table : Table) :
    Passed curproc slots table (slots.foldl (Table.abandon curproc) table) := by
  induction slots generalizing table with
  | nil => exact Passed.nil curproc table
  | cons slot slots ih =>
    exact (Passed.abandon curproc slot table).trans notInit (ih _)

theorem passAbandoned (notInit : curproc ≠ initproc) (table : Table) :
    Passed curproc (List.finRange nproc) table (table.passAbandoned curproc) :=
  Passed.foldl notInit _ table

end Passed

/-- The table `exit` leaves: the parent of `curproc` and, for a `ZOMBIE` child, init
have been woken. -/
structure Exits (curproc : Slot) (table next : Table) : Prop where
  history : next.history = .exited (table.procs curproc).birth :: table.history
  births : next.births = table.births
  procs : ∀ slot, next.procs slot = { table.procs slot with
    state := (next.procs slot).state
    parent := if (table.procs slot).parent = some curproc then some initproc
      else (table.procs slot).parent }
  zombie : (next.procs curproc).state = .zombie
  state : ∀ slot, slot ≠ curproc → (next.procs slot).state = (table.procs slot).state ∨
    (table.procs slot).state = .sleeping ∧ (next.procs slot).state = .runnable
  parentWoken : ∀ slot parent, (table.procs curproc).parent = some parent →
    (next.procs slot).state = .sleeping → (next.procs slot).chan ≠ some (.proc parent)
  initWoken : ∀ child, (table.procs child).parent = some curproc →
    (table.procs child).state = .zombie → ∀ slot, (next.procs slot).state = .sleeping →
    (next.procs slot).chan ≠ some (.proc initproc)

/-- The exiting process runs, so no slot comes into use. -/
theorem Exits.used (exits : Exits curproc table next)
    (runs : (table.procs curproc).state = .running) (slot : Slot)
    (used : (next.procs slot).state ≠ .unused) : (table.procs slot).state ≠ .unused := by
  by_cases isCurproc : slot = curproc
  · simp [isCurproc, runs]
  · cases exits.state slot isCurproc with
    | inl same => exact same ▸ used
    | inr woken => simp [woken.1]

/-- `wakeup1(curproc->parent)` leaves nobody asleep on that address. -/
theorem wakeParent_spec (table : Table) (curproc : Slot) :
    (table.wakeParent curproc).history = table.history ∧
    (table.wakeParent curproc).births = table.births ∧
    ∀ slot, (table.wakeParent curproc).procs slot = { table.procs slot with
        state := ((table.wakeParent curproc).procs slot).state } ∧
      (((table.wakeParent curproc).procs slot).state = (table.procs slot).state ∨
        (table.procs slot).state = .sleeping ∧
          ((table.wakeParent curproc).procs slot).state = .runnable) ∧
      ∀ parent, (table.procs curproc).parent = some parent →
        ((table.wakeParent curproc).procs slot).state = .sleeping →
        (table.procs slot).chan ≠ some (.proc parent) := by
  unfold wakeParent
  cases isParent : (table.procs curproc).parent with
  | none => exact ⟨rfl, rfl, fun slot => ⟨rfl, Or.inl rfl, nofun⟩⟩
  | some parent =>
    refine ⟨rfl, rfl, fun slot => ⟨wakeup1_procs table _ slot, Sleeper.wakeup1_state, ?_⟩⟩
    intro other same asleep
    cases same
    have missed := not_asleep_wakeup1 asleep
    rw [wakeup1_procs] at missed
    exact missed

theorem exit_exits (table : Table) (notInit : curproc ≠ initproc) :
    Exits curproc table (table.exit curproc) := by
  obtain ⟨history, births, woken⟩ := wakeParent_spec table curproc
  have passed := Passed.passAbandoned notInit (table.wakeParent curproc)
  unfold exit
  generalize table.wakeParent curproc = middle at history births woken passed
  generalize middle.passAbandoned curproc = left at passed
  -- what `exit` leaves in a slot, the state of `curproc` apart
  have kept : ∀ slot, (left.set curproc { left.procs curproc with state := .zombie }).procs slot =
      { left.procs slot with
        state := if slot = curproc then .zombie else (left.procs slot).state } := by
    intro slot
    by_cases isCurproc : slot = curproc
    · subst isCurproc
      simp
    · simp [set_procs_of_ne, isCurproc]
  have stillAsleep : ∀ slot, ((left.set curproc
      { left.procs curproc with state := .zombie }).procs slot).state = .sleeping →
      (left.procs slot).state = .sleeping := by
    intro slot sleeps
    rw [kept slot] at sleeps
    by_cases isCurproc : slot = curproc
    · simp [isCurproc] at sleeps
    · simpa [isCurproc] using sleeps
  refine ⟨?_, ?_, fun slot => ?_, ?_, fun slot different => ?_, fun slot parent isParent sleeps => ?_,
    fun child abandoned zombie slot sleeps => ?_⟩
  · simp [passed.history, history]
  · simp [passed.births, births]
  · rw [record_procs, kept slot, passed.procs slot, (woken slot).1]
    simp
  · simp
  · rw [record_procs, kept slot]
    simp only [different]
    cases passed.state slot with
    | inl unchanged => rw [unchanged]; exact (woken slot).2.1
    | inr moved =>
      cases (woken slot).2.1 with
      | inl before => exact Or.inr ⟨before ▸ moved.1, moved.2⟩
      | inr before => simp [before.2] at moved
  · rw [record_procs] at sleeps ⊢
    have leftAsleep := passed.sleeping (stillAsleep slot sleeps)
    have missed := (woken slot).2.2 parent isParent leftAsleep
    rw [kept slot, passed.procs slot, (woken slot).1]
    exact missed
  · rw [record_procs] at sleeps ⊢
    have leftAsleep := stillAsleep slot sleeps
    rw [kept slot]
    refine passed.woken child (mem_finRange child) ?_ ?_ slot leftAsleep
    · rw [(woken child).1]
      exact abandoned
    · cases (woken child).2.1 with
      | inl unchanged => rw [unchanged, zombie]
      | inr moved => simp [zombie] at moved

/-! ## The effect of a step -/

/-- The changes a step can make. -/
inductive Effect (table : Table) : Label → Table → Prop
  | moves {label : Label} {next : Table} : Moves table next → Effect table label next
  | allocproc {curproc : Slot} {next : Table} (np : Slot)
      (runs : (table.procs curproc).state = .running)
      (place : (table.procs curproc).code = .elsewhere) (free : (table.procs np).state = .unused)
      (births : next.births = table.births + 1)
      (history : next.history = .allocated np table.births :: table.history)
      (procs : ∀ slot, next.procs slot =
        if slot = np then { table.procs np with
          state := .embryo, pid := table.nextpid, birth := table.births }
        else if slot = curproc then { table.procs curproc with code := .forkKalloc np }
        else table.procs slot) : Effect table (.allocproc curproc) next
  | kallocStack {curproc : Slot} (np : Slot) (runs : (table.procs curproc).state = .running)
      (place : (table.procs curproc).code = .forkKalloc np) :
      Effect table (.kallocStack curproc true) (table.goto curproc (.forkCopyuvm np))
  | giveBack {curproc : Slot} {label : Label} (np : Slot)
      (runs : (table.procs curproc).state = .running)
      (place : label = .kallocStack curproc false ∧
          (table.procs curproc).code = .forkKalloc np ∨
        label = .copyuvm curproc false ∧ (table.procs curproc).code = .forkCopyuvm np) :
      Effect table label
        ((table.set np { table.procs np with state := .unused }).goto curproc .elsewhere)
  | copyuvm {curproc : Slot} (np : Slot) (runs : (table.procs curproc).state = .running)
      (place : (table.procs curproc).code = .forkCopyuvm np) :
      Effect table (.copyuvm curproc true)
        ((table.set np { table.procs np with parent := some curproc }).goto curproc
          (.forkRunnable np))
  | forkRunnable {curproc : Slot} (np : Slot) (runs : (table.procs curproc).state = .running)
      (place : (table.procs curproc).code = .forkRunnable np) :
      Effect table (.forkRunnable curproc) (table.forkRunnable curproc np)
  | exit {curproc : Slot} {next : Table} (notInit : curproc ≠ initproc)
      (runs : (table.procs curproc).state = .running)
      (place : (table.procs curproc).code = .elsewhere) (exits : Exits curproc table next) :
      Effect table (.exit curproc) next
  | reap {curproc : Slot} (child : Slot) (runs : (table.procs curproc).state = .running)
      (place : (table.procs curproc).code.child = none)
      (parent : (table.procs child).parent = some curproc)
      (zombie : (table.procs child).state = .zombie) :
      Effect table (.wait curproc) (((table.set child { table.procs child with
        pid := 0, parent := none, killed := false, state := .unused }).goto curproc
          .elsewhere).record (.reaped (table.procs child).birth (table.procs curproc).birth))
  | waitSleep {curproc : Slot} (runs : (table.procs curproc).state = .running)
      (place : (table.procs curproc).code.child = none)
      (none : ∀ child, (table.procs child).parent = some curproc →
        (table.procs child).state ≠ .zombie) :
      Effect table (.wait curproc) (table.set curproc { table.procs curproc with
        chan := some (.proc curproc), state := .sleeping, code := .wait })
  | killMisses {pid : Int32} (missed : table.find (fun proc => proc.pid == pid) = none) :
      Effect table (.kill pid) (table.record (.killCalled pid))
  | killHits {pid : Int32} (slot : Slot)
      (hit : table.find (fun proc => proc.pid == pid) = some slot) :
      Effect table (.kill pid)
        ((table.set slot { table.procs slot with
          toSleeper := (table.procs slot).kill, killed := true }).record (.killCalled pid))
  | trap {curproc : Slot} (runs : (table.procs curproc).state = .running) :
      Effect table (.trap curproc)
        ((table.set curproc { table.procs curproc with killed := true }).record
          (.trapped curproc))

theorem Table.runs_iff {code : Code} :
    table.runs curproc code = true ↔
      (table.procs curproc).state = .running ∧ (table.procs curproc).code = code := by
  simp [runs]

theorem Table.of_runs {code : Code} {result : Table}
    (taken : (if table.runs curproc code then some result else none) = some next) :
    ((table.procs curproc).state = .running ∧ (table.procs curproc).code = code) ∧
      result = next :=
  (of_guard taken).imp_left runs_iff.mp

theorem Table.find_some
    (search : table.find found = some slot) : found (table.procs slot) = true := by
  simpa using find?_some search

theorem Table.find_none
    (search : table.find found = none) (slot : Slot) : found (table.procs slot) = false := by
  have missed := find?_eq_none.mp search slot (mem_finRange slot)
  simpa using missed

theorem allocproc_effect (runs : (table.procs curproc).state = .running)
    (place : (table.procs curproc).code = .elsewhere) :
    Effect table (.allocproc curproc) (table.allocproc curproc) := by
  unfold allocproc
  cases search : table.find fun proc => proc.state == .unused with
  | none => exact .moves (Moves.refl table)
  | some np =>
    have free : (table.procs np).state = .unused := by
      simpa using find_some search
    have different : np ≠ curproc := by
      rintro rfl
      simp [runs] at free
    refine .allocproc np runs place free rfl rfl fun slot => ?_
    by_cases isNp : slot = np
    · subst isNp
      simp [goto_procs_of_ne, different]
    · by_cases isCurproc : slot = curproc
      · subst isCurproc
        simp [set_procs_of_ne, isNp]
      · simp [goto_procs_of_ne, set_procs_of_ne, isNp, isCurproc]

theorem wait_effect (runs : (table.procs curproc).state = .running)
    (place : (table.procs curproc).code.child = none) :
    Effect table (.wait curproc) (table.wait curproc) := by
  unfold wait
  split
  · rename_i child search
    have found := find_some search
    simp only [Bool.and_eq_true, beq_iff_eq] at found
    exact .reap child runs place found.1 found.2
  · rename_i search
    split
    · refine .moves (Moves.set ⟨rfl, rfl, rfl, rfl, Or.inl rfl, Or.inr ⟨place, rfl⟩, ?_, ?_⟩)
      · intro forking
        exact absurd rfl forking
      · exact fun _ => And.intro
    · refine .waitSleep runs place fun child isChild zombie => ?_
      have missed := find_none search child
      simp [isChild, zombie] at missed

theorem kill_effect (table : Table) (pid : Int32) :
    Effect table (.kill pid) (table.kill pid).1 := by
  unfold kill
  cases search : table.find fun proc => proc.pid == pid with
  | none => exact .killMisses search
  | some slot => exact .killHits slot search

/-- A running process outside `fork` gives up its CPU or keeps it. -/
theorem moved_of_running {proc : Proc} {chan : Option Chan}
    (runs : proc.state = .running) (stays : state.live = true)
    (place : state = .sleeping → proc.code.child = none ∧ ∀ slot, chan ≠ some (.proc slot)) :
    Moved proc { proc with state := state, chan := chan } := by
  refine ⟨rfl, rfl, rfl, rfl, Or.inr ⟨by simp [runs, ProcState.live], stays⟩, Or.inl rfl, ?_, ?_⟩
  · intro forking asleep
    exact absurd (place asleep).1 forking
  · intro slot asleep waits
    exact absurd waits ((place asleep).2 slot)

theorem effect_of_step {label : Label}
    (taken : step table label = some next) : Effect table label next := by
  cases label with
  | allocproc curproc =>
    obtain ⟨⟨runs, place⟩, rfl⟩ := of_runs taken
    exact allocproc_effect runs place
  | kallocStack curproc ok =>
    simp only [step] at taken
    split at taken
    · rename_i np place
      obtain ⟨⟨runs, _⟩, rfl⟩ := of_runs taken
      cases ok with
      | true => exact .kallocStack np runs place
      | false => exact .giveBack np runs (Or.inl ⟨rfl, place⟩)
    · cases taken
  | copyuvm curproc ok =>
    simp only [step] at taken
    split at taken
    · rename_i np place
      obtain ⟨⟨runs, _⟩, rfl⟩ := of_runs taken
      cases ok with
      | true => exact .copyuvm np runs place
      | false => exact .giveBack np runs (Or.inr ⟨rfl, place⟩)
    · cases taken
  | forkRunnable curproc =>
    simp only [step] at taken
    split at taken
    · rename_i np place
      obtain ⟨⟨runs, _⟩, rfl⟩ := of_runs taken
      exact .forkRunnable np runs place
    · cases taken
  | exit curproc =>
    obtain ⟨⟨notInit, runs⟩, rfl⟩ := of_guard taken
    obtain ⟨runs, place⟩ := runs_iff.mp runs
    exact .exit notInit runs place (exit_exits table notInit)
  | wait curproc =>
    obtain ⟨runs, rfl⟩ := of_guard taken
    simp only [Bool.or_eq_true, runs_iff] at runs
    obtain start | again := runs
    · exact wait_effect start.1 (by simp [start.2, Code.child])
    · exact wait_effect again.1 (by simp [again.2, Code.child])
  | sleep curproc address =>
    obtain ⟨⟨runs, place⟩, rfl⟩ := of_runs taken
    exact .moves (Moves.set (moved_of_running runs rfl fun _ =>
      ⟨by simp [place, Code.child], nofun⟩))
  | wakeup address =>
    cases taken
    exact .moves (Moves.wakeup1 table _)
  | kill pid =>
    cases taken
    exact kill_effect table pid
  | trap curproc =>
    obtain ⟨⟨runs, _⟩, rfl⟩ := of_runs taken
    exact .trap runs
  | schedule slot =>
    obtain ⟨runnable, rfl⟩ := of_guard taken
    refine .moves (Moves.set ⟨rfl, rfl, rfl, rfl, Or.inr ⟨?_, rfl⟩, Or.inl rfl, nofun, nofun⟩)
    simp [runnable, ProcState.live]
  | yield curproc =>
    obtain ⟨runs, rfl⟩ := of_guard taken
    exact .moves (Moves.set (moved_of_running runs rfl nofun))

end Laboratorio.Xv6.Procs
