import Laboratorio.Xv6.Proc.Fork

/-! # The protocol of `exit` and `wait`

`TreeInv` is about the parents in the table: every process but init has a live parent,
and no process sleeps in `wait` over a `ZOMBIE` child.  `exit` keeps the second part
because it wakes its parent before it becomes a `ZOMBIE`, and init when it passes it a
`ZOMBIE` (`Exits.parentWoken`, `Exits.initWoken`), all in one critical section.

`PastInv` ties the table to the history: who forked whom, who exited and who was
reaped.  A process is named there by its birth, so that a slot or a pid used again
does not hide a second `wait`.
-/

namespace Laboratorio.Xv6.Procs

open Laboratorio.Lib ProcState Table List

variable {before after proc : Proc} {table : Table} {slot curproc np child : Slot} {event : Event}
  {allowed : Table → Label → Prop}

/-- A change of a slot that the parents in the table do not see. -/
structure SameNode (before after : Proc) : Prop where
  parent : after.parent = before.parent
  live : after.state.live = before.state.live
  zombie : after.state = .zombie ↔ before.state = .zombie

/-- No process has gone to sleep in `wait`. -/
def NoNewWait (before after : Proc) : Prop :=
  ∀ slot, after.state = .sleeping → after.chan = some (.proc slot) →
    before.state = .sleeping ∧ before.chan = some (.proc slot)

theorem SameNode.refl (proc : Proc) : SameNode proc proc :=
  ⟨rfl, rfl, Iff.rfl⟩

theorem NoNewWait.refl (proc : Proc) : NoNewWait proc proc :=
  fun _ => And.intro

theorem SameNode.grown (same : SameNode before after) : after.state.grown ↔ before.state.grown := by
  unfold ProcState.grown
  rw [same.live, same.zombie]

theorem Moves.sameNode {next : Table} (moves : Moves table next) (slot : Slot) :
    SameNode (table.procs slot) (next.procs slot) where
  parent := (moves.procs slot).parent
  live := by
    rw [Bool.eq_iff_iff]
    exact moves.live_iff slot
  zombie := moves.state_iff slot rfl

theorem Exits.grown {next : Table} (exits : Exits curproc table next)
    (runs : (table.procs curproc).state = .running) (slot : Slot)
    (grown : (next.procs slot).state.grown) : (table.procs slot).state.grown := by
  by_cases isCurproc : slot = curproc
  · exact Or.inl (by simp [isCurproc, runs, live])
  · cases exits.state slot isCurproc with
    | inl same => exact same ▸ grown
    | inr woken => exact Or.inl (by simp [woken.1, live])

/-- A slot that takes no part in the tree before or after the change. -/
theorem SameNode.outside (parent : after.parent = before.parent)
    (free : before.state = .unused ∨ before.state = .embryo)
    (stays : after.state = .unused ∨ after.state = .embryo) :
    SameNode before after ∧ NoNewWait before after := by
  refine ⟨⟨parent, ?_, ?_⟩, ?_⟩
  · cases free with
    | _ isBefore => cases stays with
      | _ isAfter => simp [isBefore, isAfter, ProcState.live]
  · cases free with
    | _ isBefore => cases stays with
      | _ isAfter => simp [isBefore, isAfter]
  · intro _ asleep
    cases stays with
    | _ isAfter => simp [isAfter] at asleep

theorem SameNode.kill (proc : Proc) :
    SameNode proc { proc with toSleeper := proc.toSleeper.kill, killed := true } ∧
      NoNewWait proc { proc with toSleeper := proc.toSleeper.kill, killed := true } := by
  refine ⟨⟨rfl, ?_, ?_⟩, fun _ asleep => absurd asleep Sleeper.kill_awake⟩
  · cases proc.toSleeper.kill_state with
    | inl same => simp [same]
    | inr woken => simp [woken, ProcState.live]
  · exact Sleeper.kill_state_iff .zombie (by decide)

/-- The parents in the table. -/
structure TreeInv (table : Table) : Prop where
  init : (table.procs initproc).state.live = true
  root : (table.procs initproc).parent = none
  irrefl : ∀ slot, (table.procs slot).parent ≠ some slot
  live : ∀ slot parent, (table.procs slot).parent = some parent →
    (table.procs parent).state.live = true
  child : ∀ slot, slot ≠ initproc → (table.procs slot).state.grown →
    (table.procs slot).parent ≠ none
  wait : ∀ slot child, (table.procs slot).state = .sleeping →
    (table.procs slot).chan = some (.proc slot) → (table.procs child).parent = some slot →
    (table.procs child).state ≠ .zombie

namespace TreeInv

variable {table next : Table}

section

variable (inv : TreeInv table)
include inv

theorem of_same (same : ∀ slot, SameNode (table.procs slot) (next.procs slot))
    (wait : ∀ slot, (next.procs slot).state = .sleeping →
      (next.procs slot).chan = some (.proc slot) →
      ∀ child, (table.procs child).parent = some slot → (table.procs child).state ≠ .zombie) :
    TreeInv next where
  init := by
    rw [(same initproc).live]
    exact inv.init
  root := by
    rw [(same initproc).parent]
    exact inv.root
  irrefl slot := by
    rw [(same slot).parent]
    exact inv.irrefl slot
  live slot parent isParent := by
    rw [(same slot).parent] at isParent
    rw [(same parent).live]
    exact inv.live slot parent isParent
  child slot notInit grown := by
    rw [(same slot).parent]
    exact inv.child slot notInit ((same slot).grown.mp grown)
  wait slot child asleep waits isChild zombie := by
    rw [(same child).parent] at isChild
    exact wait slot asleep waits child isChild ((same child).zombie.mp zombie)

theorem of_noNewWait (same : ∀ slot, SameNode (table.procs slot) (next.procs slot) ∧
      NoNewWait (table.procs slot) (next.procs slot)) : TreeInv next := by
  refine inv.of_same (fun slot => (same slot).1) fun slot asleep waits child => ?_
  obtain ⟨slept, waited⟩ := (same slot).2 slot asleep waits
  exact inv.wait slot child slept waited

theorem set (same : SameNode (table.procs slot) proc ∧ NoNewWait (table.procs slot) proc) :
    TreeInv (table.set slot proc) := by
  refine inv.of_noNewWait fun other => ?_
  induction other using set_cases with
  | own => exact same
  | others other _ => exact ⟨SameNode.refl _, NoNewWait.refl _⟩

theorem goto (slot : Slot) (code : Code) : TreeInv (table.goto slot code) :=
  inv.set ⟨⟨rfl, rfl, Iff.rfl⟩, NoNewWait.refl (table.procs slot)⟩

theorem record (event : Event) : TreeInv (table.record event) :=
  inv.of_noNewWait fun _ => ⟨SameNode.refl _, NoNewWait.refl _⟩

theorem setLeaf (notLive : (table.procs slot).state.live = false)
    (up : ∀ parent, proc.parent = some parent → (table.procs parent).state.live = true)
    (child : proc.state.grown → proc.parent ≠ none) (awake : proc.state ≠ .sleeping)
    (alive : proc.state ≠ .zombie) : TreeInv (table.set slot proc) := by
  have kept : ∀ other, (table.procs other).state.live = true → other ≠ slot := by
    rintro other live rfl
    rw [notLive] at live
    cases live
  have live : ∀ other parent, ((table.set slot proc).procs other).parent = some parent →
      (table.procs parent).state.live = true := by
    intro other parent isParent
    induction other using set_cases with
    | own => exact up parent isParent
    | others other _ => exact inv.live other parent isParent
  refine ⟨?_, ?_, fun other isSelf => ?_, fun other parent isParent => ?_,
    fun other notInit grown => ?_, fun other child asleep waits isChild zombie => ?_⟩
  · rw [set_procs_of_ne _ _ (kept _ inv.init)]
    exact inv.init
  · rw [set_procs_of_ne _ _ (kept _ inv.init)]
    exact inv.root
  · have notSlot := kept other (live other other isSelf)
    rw [set_procs_of_ne _ _ notSlot] at isSelf
    exact inv.irrefl other isSelf
  · have isLive := live other parent isParent
    rw [set_procs_of_ne _ _ (kept parent isLive)]
    exact isLive
  · induction other using set_cases with
    | own => exact child grown
    | others other _ => exact inv.child other notInit grown
  · induction other using set_cases with
    | own => exact awake asleep
    | others other _ =>
      induction child using set_cases with
      | own => exact alive zombie
      | others child _ => exact inv.wait other child asleep waits isChild zombie

/-- `np->parent = curproc` -/
theorem adopt (runs : (table.procs curproc).state = .running)
    (embryo : (table.procs np).state = .embryo) :
    TreeInv (table.set np { table.procs np with parent := some curproc }) := by
  apply inv.setLeaf
  case notLive => simp [embryo, ProcState.live]
  case up =>
    simp [runs, ProcState.live]
  case child => rintro _ ⟨⟩
  case awake => simp [embryo]
  case alive => simp [embryo]

/-- `np->state = RUNNABLE` -/
theorem grow (embryo : (table.procs np).state = .embryo) (parent : (table.procs np).parent ≠ none) :
    TreeInv (table.set np { table.procs np with state := .runnable }) := by
  apply inv.setLeaf
  case notLive => simp [embryo, ProcState.live]
  case up => exact fun other isParent => inv.live np other isParent
  case child => exact fun _ => parent
  case awake => rintro ⟨⟩
  case alive => rintro ⟨⟩

theorem exit (notInit : curproc ≠ initproc)
    (runs : (table.procs curproc).state = .running) (exits : Exits curproc table next) :
    TreeInv next := by
  have parents : ∀ slot, (next.procs slot).parent =
      if (table.procs slot).parent = some curproc then some initproc
      else (table.procs slot).parent := by
    intro slot
    rw [exits.procs slot]
  have live : ∀ slot, slot ≠ curproc → (table.procs slot).state.live = true →
      (next.procs slot).state.live = true := by
    intro slot different before
    cases exits.state slot different with
    | inl same => rw [same]; exact before
    | inr woken => simp [woken.2, ProcState.live]
  have wasSleeping : ∀ slot, (next.procs slot).state = .sleeping →
      (table.procs slot).state = .sleeping ∧ slot ≠ curproc := by
    intro slot asleep
    have different : slot ≠ curproc := by
      rintro rfl
      simp [exits.zombie] at asleep
    cases exits.state slot different with
    | inl same => exact ⟨same ▸ asleep, different⟩
    | inr woken => exact ⟨woken.1, different⟩
  refine ⟨live _ notInit.symm inv.init, ?_, fun slot isSelf => ?_, fun slot parent isParent => ?_,
    fun slot other grown => ?_, fun slot child asleep waits isChild zombie => ?_⟩
  · rw [parents, inv.root]
    simp
  · rw [parents] at isSelf
    split at isSelf
    · -- only init itself could be passed to itself, and it has no parent
      rename_i abandoned
      cases isSelf
      simp [inv.root] at abandoned
    · exact inv.irrefl slot isSelf
  · rw [parents] at isParent
    split at isParent
    · cases isParent
      exact live _ notInit.symm inv.init
    · rename_i kept
      refine live parent ?_ (inv.live slot parent isParent)
      rintro rfl
      exact kept isParent
  · rw [parents]
    split
    · simp
    · exact inv.child slot other (exits.grown runs slot grown)
  · obtain ⟨slept, different⟩ := wasSleeping slot asleep
    have chan : (next.procs slot).chan = (table.procs slot).chan := by rw [exits.procs slot]
    rw [parents] at isChild
    by_cases isCurproc : child = curproc
    · -- the new `ZOMBIE` has woken its parent
      subst isCurproc
      rw [if_neg (inv.irrefl child)] at isChild
      exact exits.parentWoken slot slot isChild asleep waits
    · have zombieBefore : (table.procs child).state = .zombie := by
        cases exits.state child isCurproc with
        | inl same => rw [← same, zombie]
        | inr woken => simp [woken.2] at zombie
      split at isChild
      · -- an abandoned `ZOMBIE` has woken init
        rename_i abandoned
        cases isChild
        exact exits.initWoken child abandoned zombieBefore _ asleep waits
      · exact inv.wait slot child slept (chan ▸ waits) isChild zombieBefore

theorem reap (zombie : (table.procs child).state = .zombie) :
    TreeInv (table.set child { table.procs child with
      pid := 0, parent := none, killed := false, state := .unused }) := by
  apply inv.setLeaf
  case notLive => simp [zombie, ProcState.live]
  case up => rintro _ ⟨⟩
  case child => simp [ProcState.grown, ProcState.live]
  case awake => rintro ⟨⟩
  case alive => rintro ⟨⟩

theorem waitSleep (runs : (table.procs curproc).state = .running)
    (none : ∀ child, (table.procs child).parent = some curproc →
      (table.procs child).state ≠ .zombie) :
    TreeInv (table.set curproc { table.procs curproc with
      chan := some (.proc curproc), state := .sleeping, code := .wait }) := by
  refine inv.of_same (fun slot => ?_) (fun slot asleep waits child isChild => ?_)
  · induction slot using set_cases with
    | own => exact ⟨rfl, by simp [runs, ProcState.live], by simp [runs]⟩
    | others slot _ => exact SameNode.refl _
  · induction slot using set_cases with
    | own => exact none child isChild
    | others slot _ => exact inv.wait slot child asleep waits isChild

theorem step {label : Label} (forkInv : ForkInv table)
    (effect : Effect table label next) : TreeInv next := by
  cases effect with
  | moves moves =>
    exact inv.of_noNewWait fun slot => ⟨moves.sameNode slot, (moves.procs slot).waits⟩
  | allocproc np runs place free births history procs =>
    refine inv.of_noNewWait fun slot => ?_
    rw [procs slot]
    split
    · rename_i isNp
      subst isNp
      exact SameNode.outside rfl (Or.inl free) (Or.inr rfl)
    · split
      · rename_i isCurproc
        subst isCurproc
        exact ⟨⟨rfl, rfl, Iff.rfl⟩, NoNewWait.refl (table.procs slot)⟩
      · exact ⟨SameNode.refl _, NoNewWait.refl _⟩
  | kallocStack np runs place => exact inv.goto _ _
  | @giveBack curproc _ np runs place =>
    have child : (table.procs curproc).code.child = some np := by
      cases place with
      | _ failed => rw [failed.2]; rfl
    have embryo := forkInv.embryo curproc np child
    refine TreeInv.goto (inv.set ?_) _ _
    exact SameNode.outside rfl (Or.inr embryo) (Or.inl rfl)
  | @copyuvm curproc np runs place =>
    have embryo := forkInv.embryo curproc np (by rw [place]; rfl)
    exact (inv.adopt runs embryo).goto _ _
  | @forkRunnable curproc np runs place =>
    have embryo := forkInv.embryo curproc np (by rw [place]; rfl)
    have parent := forkInv.parent curproc np place
    exact ((inv.grow embryo (by simp [parent])).goto _ _).record _
  | exit notInit runs place exits => exact inv.exit notInit runs exits
  | reap child runs place parent zombie => exact ((inv.reap zombie).goto _ _).record _
  | waitSleep runs place none => exact inv.waitSleep runs none
  | killMisses missed => exact inv.record _
  | killHits slot hit => exact (inv.set (SameNode.kill _)).record _
  | trap runs =>
    refine TreeInv.record (inv.set ?_) _
    exact ⟨⟨rfl, rfl, Iff.rfl⟩, NoNewWait.refl _⟩

end

end TreeInv

theorem booted_parent (slot : Slot) : (booted.procs slot).parent = none := by
  unfold booted
  simp only
  split <;> rfl

theorem booted_state (notInit : slot ≠ initproc) : (booted.procs slot).state = .unused := by
  simp [booted, notInit]

theorem treeInv_booted : TreeInv booted where
  init := rfl
  root := rfl
  irrefl slot := by simp [booted_parent]
  live slot := by simp [booted_parent]
  child slot notInit grown := by
    simp [booted_state notInit, ProcState.grown, ProcState.live] at grown
  wait slot child := by simp [booted_parent]

theorem treeInv_reachable (reachable : system.ReachableWhen allowed table) : TreeInv table := by
  refine reachable.invariant ?_ ?_
  · rintro _ rfl
    exact treeInv_booted
  · intro table label next before inv _ taken
    exact inv.step (forkInv_reachable before) (effect_of_step taken)

/-! ## Who reaps whom -/

/-- A reaped child had exited and had not been reaped, and its reaper is the process that
forked it, or init (birth 0) once that process has exited. -/
def FairReap (child reaper : Nat) (earlier : List Event) : Prop :=
  .exited child ∈ earlier ∧ (∀ other, .reaped child other ∉ earlier) ∧
    ∃ parent, .forked parent child ∈ earlier ∧
      (reaper = parent ∨ reaper = 0 ∧ .exited parent ∈ earlier)

def FairHistory : List Event → Prop
  | [] => True
  | .reaped child reaper :: earlier => FairReap child reaper earlier ∧ FairHistory earlier
  | _ :: earlier => FairHistory earlier

def Event.isReap : Event → Bool
  | .reaped _ _ => true
  | _ => false

theorem FairHistory.cons {history : List Event} (fair : FairHistory history)
    (other : event.isReap = false) : FairHistory (event :: history) := by
  cases event with
  | reaped child reaper => cases other
  | _ => exact fair

theorem FairHistory.fairReap {later earlier : List Event} {child reaper : Nat}
    (fair : FairHistory (later ++ .reaped child reaper :: earlier)) :
    FairReap child reaper earlier := by
  induction later with
  | nil => exact fair.1
  | cons event later ih =>
    refine ih ?_
    cases event with
    | reaped child reaper => exact fair.2
    | _ => exact fair

/-- How the processes in the table came about. -/
structure PastInv (table : Table) : Prop where
  birth : ∀ slot, (table.procs slot).state ≠ .unused → (table.procs slot).birth < table.births
  own : ∀ slot other, (table.procs slot).state ≠ .unused → (table.procs other).state ≠ .unused →
    (table.procs slot).birth = (table.procs other).birth → slot = other
  gone : ∀ child reaper, .reaped child reaper ∈ table.history → child < table.births ∧
    ∀ slot, (table.procs slot).state ≠ .unused → (table.procs slot).birth ≠ child
  exited : ∀ slot, (table.procs slot).state = .zombie →
    .exited (table.procs slot).birth ∈ table.history
  origin : ∀ slot parent, (table.procs slot).state.grown → (table.procs slot).parent = some parent →
    ∃ forker, .forked forker (table.procs slot).birth ∈ table.history ∧
      (forker = (table.procs parent).birth ∨ parent = initproc ∧ .exited forker ∈ table.history)
  root : (table.procs initproc).birth = 0
  fair : FairHistory table.history

namespace PastInv

variable {table next : Table}

/-- A change of a slot that adds no process to the tree. -/
structure SameAge (before after : Proc) : Prop where
  birth : after.birth = before.birth
  used : after.state ≠ .unused → before.state ≠ .unused
  zombie : after.state = .zombie → before.state = .zombie
  grown : after.state.grown → before.state.grown ∧ after.parent = before.parent

theorem SameAge.refl (proc : Proc) : SameAge proc proc :=
  ⟨rfl, id, id, fun grown => ⟨grown, rfl⟩⟩

theorem SameAge.outside (birth : after.birth = before.birth)
    (used : before.state ≠ .unused) (stays : after.state = .unused ∨ after.state = .embryo) :
    SameAge before after := by
  refine ⟨birth, fun _ => used, fun zombie => ?_, fun grown => ?_⟩
  · cases stays with
    | _ state => simp [state] at zombie
  · cases stays with
    | _ state => simp [state, ProcState.grown, ProcState.live] at grown

theorem SameAge.of_sameNode (birth : after.birth = before.birth)
    (used : after.state ≠ .unused → before.state ≠ .unused) (same : SameNode before after) :
    SameAge before after :=
  ⟨birth, used, same.zombie.mp, fun grown => ⟨same.grown.mp grown, same.parent⟩⟩

section

variable (inv : PastInv table)
include inv

/-- A change that brings no new process: what the history has to say about new parents and
`ZOMBIE`s. -/
theorem change (births : next.births = table.births)
    (birth : ∀ slot, (next.procs slot).birth = (table.procs slot).birth)
    (used : ∀ slot, (next.procs slot).state ≠ .unused → (table.procs slot).state ≠ .unused)
    (grows : ∀ event ∈ table.history, event ∈ next.history)
    (reaped : ∀ child reaper, .reaped child reaper ∈ next.history →
      .reaped child reaper ∈ table.history)
    (fair : FairHistory next.history)
    (exited : ∀ slot, (next.procs slot).state = .zombie →
      (table.procs slot).state = .zombie ∨ .exited (table.procs slot).birth ∈ next.history)
    (origin : ∀ slot parent, (next.procs slot).state.grown →
      (next.procs slot).parent = some parent →
      ((table.procs slot).state.grown ∧ (table.procs slot).parent = some parent) ∨
      ∃ forker, .forked forker (table.procs slot).birth ∈ next.history ∧
        (forker = (table.procs parent).birth ∨ parent = initproc ∧ .exited forker ∈ next.history)) :
    PastInv next where
  birth slot isUsed := by
    rw [birth, births]
    exact inv.birth slot (used slot isUsed)
  own slot other isUsed otherUsed same := by
    rw [birth, birth] at same
    exact inv.own slot other (used slot isUsed) (used other otherUsed) same
  gone child reaper recorded := by
    obtain ⟨old, absent⟩ := inv.gone child reaper (reaped child reaper recorded)
    refine ⟨births ▸ old, fun slot isUsed => ?_⟩
    rw [birth]
    exact absent slot (used slot isUsed)
  exited slot zombie := by
    rw [birth]
    rcases exited slot zombie with wasZombie | recorded
    · exact grows _ (inv.exited slot wasZombie)
    · exact recorded
  origin slot parent grown isParent := by
    rw [birth, birth]
    rcases origin slot parent grown isParent with ⟨wasGrown, wasParent⟩ | new
    · obtain ⟨forker, forked, who⟩ := inv.origin slot parent wasGrown wasParent
      exact ⟨forker, grows _ forked, who.imp_right (And.imp_right (grows _))⟩
    · exact new
  root := by
    rw [birth]
    exact inv.root
  fair := fair

theorem of_same (history : next.history = table.history) (births : next.births = table.births)
    (same : ∀ slot, SameAge (table.procs slot) (next.procs slot)) : PastInv next := by
  refine inv.change births (fun slot => (same slot).birth) (fun slot => (same slot).used)
    (fun _ => history ▸ id) (fun _ _ => history ▸ id) (history ▸ inv.fair)
    (fun slot zombie => .inl ((same slot).zombie zombie)) fun slot parent grown isParent => ?_
  obtain ⟨wasGrown, sameParent⟩ := (same slot).grown grown
  exact .inl ⟨wasGrown, sameParent ▸ isParent⟩

theorem set (same : SameAge (table.procs slot) proc) : PastInv (table.set slot proc) := by
  refine inv.of_same rfl rfl fun other => ?_
  induction other using set_cases with
  | own => exact same
  | others other _ => exact SameAge.refl _

theorem goto (slot : Slot) (code : Code) : PastInv (table.goto slot code) :=
  inv.set ⟨rfl, id, id, fun grown => ⟨grown, rfl⟩⟩

theorem record (reaped : ∀ child reaper, event = .reaped child reaper → child < table.births ∧
      ∀ slot, (table.procs slot).state ≠ .unused → (table.procs slot).birth ≠ child)
    (fair : FairHistory (event :: table.history)) : PastInv (table.record event) where
  birth := inv.birth
  own := inv.own
  gone child reaper recorded := by
    cases mem_cons.mp recorded with
    | inl isNew => exact reaped child reaper isNew.symm
    | inr old => exact inv.gone child reaper old
  exited slot zombie := mem_cons_of_mem _ (inv.exited slot zombie)
  origin slot parent grown isParent := by
    obtain ⟨forker, forked, who⟩ := inv.origin slot parent grown isParent
    exact ⟨forker, mem_cons_of_mem _ forked,
      who.imp_right (And.imp_right (mem_cons_of_mem _))⟩
  root := inv.root
  fair := fair

theorem record_other (other : event.isReap = false) : PastInv (table.record event) := by
  refine inv.record ?_ (inv.fair.cons other)
  rintro child reaper rfl
  cases other

theorem allocproc (treeInv : TreeInv table)
    (free : (table.procs np).state = .unused) (births : next.births = table.births + 1)
    (history : next.history = .allocated np table.births :: table.history)
    (procs : ∀ slot, next.procs slot = if slot = np then { table.procs np with
        state := .embryo, pid := table.nextpid, birth := table.births }
      else if slot = curproc then { table.procs curproc with code := .forkKalloc np }
      else table.procs slot) : PastInv next := by
  have new : (next.procs np).state = .embryo ∧ (next.procs np).birth = table.births := by
    simp [procs]
  have kept : ∀ slot, slot ≠ np → (next.procs slot).state = (table.procs slot).state ∧
      (next.procs slot).birth = (table.procs slot).birth ∧
      (next.procs slot).parent = (table.procs slot).parent := by
    intro slot different
    rw [procs slot, if_neg different]
    split
    · rename_i isCurproc
      rw [isCurproc]
      exact ⟨rfl, rfl, rfl⟩
    · exact ⟨rfl, rfl, rfl⟩
  have older : ∀ slot, slot ≠ np → (next.procs slot).state ≠ .unused →
      (next.procs slot).birth < table.births := by
    intro slot different used
    obtain ⟨state, birth, _⟩ := kept slot different
    rw [birth]
    exact inv.birth slot (state ▸ used)
  have liveKept : ∀ slot, (table.procs slot).state.live = true → slot ≠ np := by
    rintro slot live rfl
    simp [free, ProcState.live] at live
  refine ⟨fun slot used => ?_, fun slot other used otherUsed same => ?_,
    fun child reaper recorded => ?_, fun slot isZombie => ?_, fun slot parent isGrown isParent => ?_,
    ?_, ?_⟩
  · rw [births]
    by_cases isNp : slot = np
    · rw [isNp]
      omega
    · have := older slot isNp used
      omega
  · by_cases isNp : slot = np
    · by_cases otherIsNp : other = np
      · rw [isNp, otherIsNp]
      · have := older other otherIsNp otherUsed
        rw [isNp] at same
        omega
    · by_cases otherIsNp : other = np
      · have := older slot isNp used
        rw [otherIsNp] at same
        omega
      · obtain ⟨state, birth, _⟩ := kept slot isNp
        obtain ⟨otherState, otherBirth, _⟩ := kept other otherIsNp
        rw [birth, otherBirth] at same
        exact inv.own slot other (state ▸ used) (otherState ▸ otherUsed) same
  · rw [history, List.mem_cons] at recorded
    obtain ⟨old, absent⟩ := inv.gone child reaper (recorded.resolve_left (by rintro ⟨⟩))
    refine ⟨by omega, fun slot used => ?_⟩
    by_cases isNp : slot = np
    · rw [isNp]
      omega
    · obtain ⟨state, birth, _⟩ := kept slot isNp
      rw [birth]
      exact absent slot (state ▸ used)
  · have notNp : slot ≠ np := by
      rintro rfl
      simp [new.1] at isZombie
    obtain ⟨state, birth, _⟩ := kept slot notNp
    rw [history, birth]
    exact List.mem_cons_of_mem _ (inv.exited slot (state ▸ isZombie))
  · have notNp : slot ≠ np := by
      rintro rfl
      simp [new.1, ProcState.grown, ProcState.live] at isGrown
    obtain ⟨state, birth, sameParent⟩ := kept slot notNp
    have wasParent := sameParent ▸ isParent
    obtain ⟨forker, forked, who⟩ := inv.origin slot parent (state ▸ isGrown) wasParent
    obtain ⟨_, parentBirth, _⟩ := kept parent (liveKept parent (treeInv.live slot parent wasParent))
    rw [history, birth, parentBirth]
    exact ⟨forker, List.mem_cons_of_mem _ forked,
      who.imp_right (And.imp_right (List.mem_cons_of_mem _))⟩
  · rw [(kept _ (liveKept _ treeInv.init)).2.1]
    exact inv.root
  · rw [history]
    exact inv.fair.cons rfl

theorem forkRunnable (forkInv : ForkInv table)
    (place : (table.procs curproc).code = .forkRunnable np) :
    PastInv (table.forkRunnable curproc np) := by
  have embryo := forkInv.embryo curproc np (by rw [place]; rfl)
  have kept : ∀ slot, slot ≠ np → ((table.forkRunnable curproc np).procs slot).state =
      (table.procs slot).state := by
    intro slot different
    simp [Table.forkRunnable, Table.goto_procs, Table.set_procs_of_ne, different]
  have new : ((table.forkRunnable curproc np).procs np).state = .runnable := by
    simp [Table.forkRunnable, Table.goto_procs]
  have others : ∀ slot, ((table.forkRunnable curproc np).procs slot).birth =
      (table.procs slot).birth ∧ ((table.forkRunnable curproc np).procs slot).parent =
      (table.procs slot).parent := by
    intro slot
    by_cases isNp : slot = np
    · subst isNp
      simp [forkRunnable, goto_procs]
    · simp [Table.forkRunnable, Table.goto_procs, Table.set_procs_of_ne, isNp]
  have used : ∀ slot, ((table.forkRunnable curproc np).procs slot).state ≠ .unused →
      (table.procs slot).state ≠ .unused := by
    intro slot isUsed
    by_cases isNp : slot = np
    · simp [isNp, embryo]
    · exact kept slot isNp ▸ isUsed
  refine inv.change rfl (fun slot => (others slot).1) used (fun _ => mem_cons_of_mem _)
    (fun _ _ recorded => (mem_cons.mp recorded).resolve_left nofun) (inv.fair.cons rfl)
    (fun slot isZombie => .inl ?_) fun slot parent isGrown isParent => ?_
  · have notNp : slot ≠ np := by
      rintro rfl
      simp [new] at isZombie
    exact kept slot notNp ▸ isZombie
  · rw [(others slot).2] at isParent
    by_cases isNp : slot = np
    · -- the new child, with the process that just forked it as parent
      subst isNp
      have parentIs := forkInv.parent curproc slot place
      rw [parentIs] at isParent
      cases isParent
      exact .inr ⟨_, mem_cons_self, Or.inl rfl⟩
    · exact .inl ⟨kept slot isNp ▸ isGrown, isParent⟩

theorem exit (notInit : curproc ≠ initproc)
    (runs : (table.procs curproc).state = .running) (exits : Exits curproc table next) :
    PastInv next := by
  have birth : ∀ slot, (next.procs slot).birth = (table.procs slot).birth := by
    intro slot
    rw [exits.procs slot]
  apply inv.change exits.births birth (exits.used runs) <;> rw [exits.history]
  case grows => exact fun _ => mem_cons_of_mem _
  case reaped => exact fun _ _ recorded => (mem_cons.mp recorded).resolve_left nofun
  case fair => exact inv.fair.cons rfl
  case exited =>
    intro slot isZombie
    by_cases isCurproc : slot = curproc
    · rw [isCurproc]
      exact .inr mem_cons_self
    · cases exits.state slot isCurproc with
      | inl same => exact .inl (same ▸ isZombie)
      | inr woken => simp [woken.2] at isZombie
  case origin =>
    intro slot parent isGrown isParent
    have wasGrown := exits.grown runs slot isGrown
    rw [exits.procs slot] at isParent
    split at isParent
    · -- an abandoned child: its parent is now init, and `curproc` has exited
      rename_i abandoned
      cases isParent
      obtain ⟨forker, forked, who⟩ := inv.origin slot curproc wasGrown abandoned
      refine .inr ⟨forker, mem_cons_of_mem _ forked, Or.inr ⟨rfl, ?_⟩⟩
      rw [who.resolve_right fun isInit => notInit isInit.1]
      exact mem_cons_self
    · exact .inl ⟨wasGrown, isParent⟩

theorem fairReap (parent : (table.procs child).parent = some curproc)
    (zombie : (table.procs child).state = .zombie) :
    FairReap (table.procs child).birth (table.procs curproc).birth table.history := by
  refine ⟨inv.exited child zombie, fun other recorded => ?_, ?_⟩
  · exact (inv.gone _ other recorded).2 child (by simp [zombie]) rfl
  · obtain ⟨forker, forked, who⟩ := inv.origin child curproc (Or.inr zombie) parent
    refine ⟨forker, forked, ?_⟩
    cases who with
    | inl same => exact Or.inl same.symm
    | inr isInit =>
      obtain ⟨rfl, exited⟩ := isInit
      exact Or.inr ⟨inv.root, exited⟩

/-- The child leaves the table with its last event. -/
theorem reap (parent : (table.procs child).parent = some curproc)
    (zombie : (table.procs child).state = .zombie) :
    PastInv (((table.set child { table.procs child with
      pid := 0, parent := none, killed := false, state := .unused }).goto curproc
        .elsewhere).record (.reaped (table.procs child).birth (table.procs curproc).birth)) := by
  have used : (table.procs child).state ≠ .unused := by simp [zombie]
  have freed : PastInv ((table.set child { table.procs child with
      pid := 0, parent := none, killed := false, state := .unused }).goto curproc .elsewhere) := by
    refine PastInv.goto (inv.set ?_) _ _
    exact SameAge.outside rfl used (Or.inl rfl)
  refine freed.record ?_ ⟨inv.fairReap parent zombie, inv.fair⟩
  intro reaped reaper same
  obtain ⟨rfl, _⟩ := Event.reaped.inj same
  refine ⟨inv.birth child used, fun slot stillUsed sameBirth => ?_⟩
  -- births are not shared, so only the freed slot has this one
  rw [goto_procs] at stillUsed sameBirth
  induction slot using set_cases with
  | own => exact stillUsed rfl
  | others slot isOther => exact isOther (inv.own slot child stillUsed used sameBirth)

theorem step {label : Label} (forkInv : ForkInv table)
    (treeInv : TreeInv table) (effect : Effect table label next) : PastInv next := by
  cases effect with
  | moves moves =>
    refine inv.of_same moves.history moves.births fun slot => ?_
    exact .of_sameNode (moves.procs slot).birth (moves.state_iff slot rfl).not.mp
      (moves.sameNode slot)
  | allocproc np runs place free births history procs =>
    exact inv.allocproc treeInv free births history procs
  | kallocStack np runs place => exact inv.goto _ _
  | @giveBack curproc _ np runs place =>
    have child : (table.procs curproc).code.child = some np := by
      cases place with
      | _ failed => rw [failed.2]; rfl
    refine PastInv.goto (inv.set ?_) _ _
    exact SameAge.outside rfl (by simp [forkInv.embryo curproc np child]) (Or.inl rfl)
  | @copyuvm curproc np runs place =>
    have embryo := forkInv.embryo curproc np (by rw [place]; rfl)
    refine PastInv.goto (inv.set ?_) _ _
    exact SameAge.outside rfl (by simp [embryo]) (Or.inr embryo)
  | forkRunnable np runs place => exact inv.forkRunnable forkInv place
  | exit notInit runs place exits => exact inv.exit notInit runs exits
  | reap child runs place parent zombie => exact inv.reap parent zombie
  | waitSleep runs place none =>
    refine inv.set ⟨rfl, fun _ => by simp [runs], nofun, fun _ => ⟨Or.inl ?_, rfl⟩⟩
    simp [runs, live]
  | killMisses missed => exact inv.record_other rfl
  | killHits slot hit =>
    refine PastInv.record_other (inv.set (.of_sameNode rfl ?_ (SameNode.kill _).1)) rfl
    exact fun used free => used ((Sleeper.kill_state_iff .unused (by decide)).mpr free)
  | trap runs =>
    refine PastInv.record_other (inv.set ?_) rfl
    exact ⟨rfl, id, id, fun grown => ⟨grown, rfl⟩⟩

end

end PastInv

theorem pastInv_booted : PastInv booted where
  birth slot used := by
    by_cases isInit : slot = initproc
    · subst isInit
      decide
    · exact absurd (booted_state isInit) used
  own slot other used otherUsed _ := by
    have isInit : ∀ slot, (booted.procs slot).state ≠ .unused → slot = initproc := by
      intro slot isUsed
      by_contra notInit
      exact isUsed (booted_state notInit)
    rw [isInit slot used, isInit other otherUsed]
  gone child reaper recorded := by simp [booted] at recorded
  exited slot zombie := by
    by_cases isInit : slot = initproc
    · subst isInit
      cases zombie
    · simp [booted_state isInit] at zombie
  origin slot parent _ isParent := by simp [booted_parent] at isParent
  root := rfl
  fair := trivial

theorem pastInv_reachable (reachable : system.ReachableWhen allowed table) : PastInv table := by
  refine reachable.invariant ?_ ?_
  · rintro _ rfl
    exact pastInv_booted
  · intro table label next before inv _ taken
    exact inv.step (forkInv_reachable before) (treeInv_reachable before) (effect_of_step taken)

/-- The protocol of `exit` and `wait`, in every reachable table: a process other than init
that has been forked has a parent that is neither `UNUSED` nor `ZOMBIE`; no process
sleeps in `wait` over a `ZOMBIE` child; and every reaped process had exited, is reaped
for the first time, and by the process that forked it or, once that one has exited, by
init. -/
theorem exit_wait_protocol {table : Table} (reachable : system.Reachable table) :
    (∀ slot, slot ≠ initproc →
      (table.procs slot).state ∈ [.sleeping, .runnable, .running, .zombie] →
      ∃ parent, (table.procs slot).parent = some parent ∧
        (table.procs parent).state ≠ .unused ∧ (table.procs parent).state ≠ .zombie) ∧
    (∀ slot child, (table.procs slot).state = .sleeping →
      (table.procs slot).chan = some (.proc slot) → (table.procs child).parent = some slot →
      (table.procs child).state ≠ .zombie) ∧
    (∀ later child reaper earlier, table.history = later ++ .reaped child reaper :: earlier →
      FairReap child reaper earlier) := by
  have treeInv := treeInv_reachable reachable
  refine ⟨fun slot notInit state => ?_, treeInv.wait, fun later child reaper earlier split => ?_⟩
  · have grown : (table.procs slot).state.grown := by
      cases isState : (table.procs slot).state <;>
        simp [isState, ProcState.grown, ProcState.live] at state ⊢
    obtain ⟨parent, isParent⟩ := Option.ne_none_iff_exists'.mp (treeInv.child slot notInit grown)
    have live := treeInv.live slot parent isParent
    refine ⟨parent, isParent, ?_, ?_⟩ <;> intro state <;> simp [state, ProcState.live] at live
  · have fair := (pastInv_reachable reachable).fair
    rw [split] at fair
    exact fair.fairReap

/-- Init forks, sleeps in `wait`, is woken by the exit of its child and reaps it. -/
def childReaped : List Label :=
  [.schedule initproc, .allocproc initproc, .kallocStack initproc true, .copyuvm initproc true,
    .forkRunnable initproc, .wait initproc, .schedule firstChild, .exit firstChild,
    .schedule initproc, .wait initproc]

theorem first_child_reaped :
    ∃ table, system.Reachable table ∧
      table.history = [.reaped 1 0, .exited 1, .forked 0 1, .allocated firstChild 1,
        .allocated initproc 0] ∧
      FairReap 1 0 [.exited 1, .forked 0 1, .allocated firstChild 1, .allocated initproc 0] := by
  have ran : ∃ table ∈ system.runWhen (fun _ _ => True) booted childReaped, table.history =
      [.reaped 1 0, .exited 1, .forked 0 1, .allocated firstChild 1, .allocated initproc 0] := by
    decide +kernel
  obtain ⟨table, reachable, history⟩ := System.ReachableWhen.exists_of_runWhen (.init rfl) ran
  exact ⟨table, reachable, history, (exit_wait_protocol reachable).2.2 [] 1 0 _ history⟩

end Laboratorio.Xv6.Procs
