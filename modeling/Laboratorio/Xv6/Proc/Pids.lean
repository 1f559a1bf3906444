import Mathlib.Algebra.Ring.Nat
import Laboratorio.Xv6.Proc.ExitWait

/-! # Process ids

`nextpid` is an `int` that wraps around, and `allocproc` compares it with nothing.  The pid of a
process is its birth plus one, modulo `2^32` (`PidInv`).  So pids identify processes, and are
positive, as long as fewer than `2^31 - 1` slots have been handed out (`pids_identify`); after
that they become negative, and the pid of init is given out again (`pids_wrap`).
-/

namespace Laboratorio.Xv6.Procs

open Laboratorio.Lib Table

variable {table next : Table} {label : Label}

/-! ## The counter -/

/-- `nextpid` and the number of births move together. -/
structure SameCounters (table next : Table) : Prop where
  nextpid : next.nextpid = table.nextpid
  births : next.births = table.births

theorem abandon_counters (curproc : Slot) (table : Table) (slot : Slot) :
    SameCounters table (table.abandon curproc slot) := by
  unfold abandon
  split
  · dsimp only
    split <;> exact ⟨rfl, rfl⟩
  · exact ⟨rfl, rfl⟩

theorem foldl_abandon_counters (curproc : Slot) (slots : List Slot) (table : Table) :
    SameCounters table (slots.foldl (Table.abandon curproc) table) := by
  induction slots generalizing table with
  | nil => exact ⟨rfl, rfl⟩
  | cons slot slots ih =>
    have first := abandon_counters curproc table slot
    have rest := ih (table.abandon curproc slot)
    exact ⟨rest.nextpid.trans first.nextpid, rest.births.trans first.births⟩

theorem wakeParent_counters (table : Table) (curproc : Slot) :
    SameCounters table (table.wakeParent curproc) := by
  unfold wakeParent
  split <;> exact ⟨rfl, rfl⟩

theorem exit_counters (table : Table) (curproc : Slot) :
    SameCounters table (table.exit curproc) := by
  have first := wakeParent_counters table curproc
  have rest : SameCounters (table.wakeParent curproc)
      ((table.wakeParent curproc).passAbandoned curproc) := foldl_abandon_counters curproc _ _
  generalize left : (table.wakeParent curproc).passAbandoned curproc = passed at rest
  simp only [exit, left]
  exact ⟨rest.nextpid.trans first.nextpid, rest.births.trans first.births⟩

theorem allocproc_counters (table : Table) (curproc : Slot) :
    SameCounters table (table.allocproc curproc) ∨
      (table.allocproc curproc).nextpid = table.nextpid + 1 ∧
        (table.allocproc curproc).births = table.births + 1 := by
  unfold allocproc
  split
  · exact .inl ⟨rfl, rfl⟩
  · exact .inr ⟨rfl, rfl⟩

theorem wait_counters (table : Table) (curproc : Slot) :
    SameCounters table (table.wait curproc) := by
  unfold wait
  split
  · exact ⟨rfl, rfl⟩
  · split <;> exact ⟨rfl, rfl⟩

theorem kill_counters (table : Table) (pid : Int32) : SameCounters table (table.kill pid).1 := by
  unfold kill
  split <;> exact ⟨rfl, rfl⟩

theorem step_counters (taken : step table label = some next) :
    SameCounters table next ∨ (∃ curproc, label = .allocproc curproc) ∧
      next.nextpid = table.nextpid + 1 ∧ next.births = table.births + 1 := by
  cases label with
  | allocproc curproc =>
    obtain ⟨-, rfl⟩ := of_guard taken
    exact (allocproc_counters table curproc).imp_right fun counters => ⟨⟨curproc, rfl⟩, counters⟩
  | exit curproc =>
    obtain ⟨-, rfl⟩ := of_guard taken
    exact .inl (exit_counters table curproc)
  | wait curproc =>
    obtain ⟨-, rfl⟩ := of_guard taken
    exact .inl (wait_counters table curproc)
  | kill pid =>
    cases taken
    exact .inl (kill_counters table pid)
  | wakeup address =>
    cases taken
    exact .inl ⟨rfl, rfl⟩
  | kallocStack curproc ok | copyuvm curproc ok =>
    simp only [step] at taken
    split at taken
    · obtain ⟨-, rfl⟩ := of_guard taken
      left
      cases ok <;> exact ⟨rfl, rfl⟩
    · cases taken
  | forkRunnable curproc =>
    simp only [step] at taken
    split at taken
    · obtain ⟨-, rfl⟩ := of_guard taken
      exact .inl ⟨rfl, rfl⟩
    · cases taken
  | _ =>
    obtain ⟨-, rfl⟩ := of_guard taken
    exact .inl ⟨rfl, rfl⟩

/-! ## The pid of a process -/

/-- The pid of the process that was born as number `birth`. -/
def pidOf (birth : Nat) : Int32 := Int32.ofNat (birth + 1)

theorem pidOf_succ (birth : Nat) : pidOf (birth + 1) = pidOf birth + 1 := by
  simp only [pidOf, Int32.ofNat_add]
  rfl

structure PidInv (table : Table) : Prop where
  next : table.nextpid = pidOf table.births
  pid : ∀ slot, (table.procs slot).state ≠ .unused →
    (table.procs slot).pid = pidOf (table.procs slot).birth

/-- A slot in use was in use before, with the same pid. -/
def Kept (table next : Table) : Prop :=
  ∀ slot, (next.procs slot).state ≠ .unused → (table.procs slot).state ≠ .unused ∧
    (next.procs slot).pid = (table.procs slot).pid ∧
    (next.procs slot).birth = (table.procs slot).birth

namespace Kept

theorem trans {middle : Table} (first : Kept table middle) (second : Kept middle next) :
    Kept table next := by
  intro slot used
  obtain ⟨between, pid, birth⟩ := second slot used
  obtain ⟨before, firstPid, firstBirth⟩ := first slot between
  exact ⟨before, pid.trans firstPid, birth.trans firstBirth⟩

theorem set (slot : Slot) (proc : Proc) (pid : proc.pid = (table.procs slot).pid)
    (birth : proc.birth = (table.procs slot).birth)
    (used : proc.state ≠ .unused → (table.procs slot).state ≠ .unused) :
    Kept table (table.set slot proc) := by
  intro other otherUsed
  induction other using set_cases with
  | own => exact ⟨used otherUsed, pid, birth⟩
  | others other _ => exact ⟨otherUsed, rfl, rfl⟩

theorem goto (table : Table) (slot : Slot) (code : Code) : Kept table (table.goto slot code) :=
  set slot _ rfl rfl id

end Kept

namespace PidInv

variable {table next : Table}

theorem of_kept (inv : PidInv table) (counter : next.nextpid = pidOf next.births)
    (kept : Kept table next) : PidInv next where
  next := counter
  pid slot used := by
    obtain ⟨before, pid, birth⟩ := kept slot used
    rw [pid, birth]
    exact inv.pid slot before

theorem step (inv : PidInv table) (forkInv : ForkInv table)
    (taken : step table label = some next) : PidInv next := by
  have counter : next.nextpid = pidOf next.births := by
    rcases step_counters taken with same | ⟨-, nextpid, births⟩
    · rw [same.nextpid, same.births]
      exact inv.next
    · rw [nextpid, births, pidOf_succ, inv.next]
  cases effect_of_step taken with
  | moves moves =>
    apply inv.of_kept counter
    intro slot used
    refine ⟨?_, (moves.procs slot).pid, (moves.procs slot).birth⟩
    rwa [ne_eq, ← moves.state_iff slot rfl]
  | allocproc np runs place free births history procs =>
    refine ⟨counter, fun slot used => ?_⟩
    rw [procs slot] at used ⊢
    split
    · exact inv.next
    · rename_i notNp
      rw [if_neg notNp] at used
      split
      · exact inv.pid _ (by rw [runs]; nofun)
      · rename_i notCurproc
        rw [if_neg notCurproc] at used
        exact inv.pid slot used
  | kallocStack np runs place => exact inv.of_kept counter (Kept.goto table _ _)
  | giveBack np runs place =>
    refine inv.of_kept counter (Kept.trans ?_ (Kept.goto _ _ _))
    exact Kept.set np _ rfl rfl fun used => absurd rfl used
  | copyuvm np runs place =>
    refine inv.of_kept counter (Kept.trans ?_ (Kept.goto _ _ _))
    exact Kept.set np _ rfl rfl id
  | forkRunnable np runs place =>
    have embryo : (table.procs np).state ≠ .unused := by
      rw [forkInv.embryo _ np (by rw [place]; rfl)]
      nofun
    refine inv.of_kept counter (Kept.trans ?_ (Kept.goto _ _ .elsewhere))
    exact Kept.set np _ rfl rfl fun _ => embryo
  | @exit curproc _ notInit runs place exits =>
    apply inv.of_kept counter
    intro slot used
    have pid := congrArg Proc.pid (exits.procs slot)
    have birth := congrArg Proc.birth (exits.procs slot)
    exact ⟨exits.used runs slot used, pid, birth⟩
  | reap child runs place parent zombie =>
    apply inv.of_kept counter
    intro slot used
    rw [record_procs, goto_procs] at used ⊢
    induction slot using set_cases with
    | own => exact absurd rfl used
    | others slot _ => exact ⟨used, rfl, rfl⟩
  | waitSleep runs place none =>
    exact inv.of_kept counter (.set _ _ rfl rfl fun _ => by rw [runs]; nofun)
  | killMisses missed =>
    exact inv.of_kept counter fun slot used => ⟨used, rfl, rfl⟩
  | killHits slot hit =>
    refine inv.of_kept counter (Kept.set slot _ rfl rfl fun used free => used ?_)
    exact (Sleeper.kill_state_iff .unused (by decide)).mpr free
  | trap runs => exact inv.of_kept counter (Kept.set _ _ rfl rfl id)

end PidInv

theorem pidInv_booted : PidInv booted where
  next := rfl
  pid slot used := by
    by_cases isInit : slot = initproc
    · subst isInit
      rfl
    · simp [booted, isInit] at used

theorem pidInv_reachable {allowed : Table → Label → Prop}
    (reachable : system.ReachableWhen allowed table) : PidInv table := by
  refine reachable.invariant ?_ ?_
  · rintro _ rfl
    exact pidInv_booted
  · intro table label next before inv _ taken
    exact inv.step (forkInv_reachable before) taken

/-! ## While the counter has not wrapped around -/

/-- `fork` takes a slot only while fewer than `2^31 - 1` have been handed out. -/
def beforeWrap (table : Table) : Label → Prop
  | .allocproc _ => table.births < 2 ^ 31 - 1
  | _ => True

theorem births_le (reachable : system.ReachableWhen beforeWrap table) :
    table.births ≤ 2 ^ 31 - 1 := by
  induction reachable with
  | init start =>
    cases start
    decide
  | step label _ permitted taken bound =>
    rcases step_counters taken with same | ⟨⟨curproc, rfl⟩, -, births⟩
    · rw [same.births]
      exact bound
    · rw [births]
      exact permitted

theorem toInt_pidOf {birth : Nat} (small : birth < 2 ^ 31 - 1) :
    (pidOf birth).toInt = birth + 1 := by
  rw [pidOf, Int32.toInt_ofNat_of_lt (by omega)]
  rfl

theorem pids_identify {table : Table} (reachable : system.ReachableWhen beforeWrap table) :
    (∀ slot other, (table.procs slot).state ≠ .unused → (table.procs other).state ≠ .unused →
      (table.procs slot).pid = (table.procs other).pid → slot = other) ∧
    ∀ slot, (table.procs slot).state ≠ .unused → 0 < (table.procs slot).pid := by
  have pids := pidInv_reachable reachable
  have past := pastInv_reachable reachable
  have few := births_le reachable
  have value : ∀ slot, (table.procs slot).state ≠ .unused →
      (table.procs slot).pid.toInt = (table.procs slot).birth + 1 := by
    intro slot used
    rw [pids.pid slot used]
    exact toInt_pidOf (Nat.lt_of_lt_of_le (past.birth slot used) few)
  refine ⟨?_, ?_⟩
  · intro slot other used otherUsed same
    apply past.own slot other used otherUsed
    have equal := congrArg Int32.toInt same
    rw [value slot used, value other otherUsed] at equal
    omega
  · intro slot used
    rw [Int32.lt_iff_toInt_lt, value slot used]
    have zero : (0 : Int32).toInt = 0 := rfl
    omega

instance (table : Table) (label : Label) : Decidable (beforeWrap table label) :=
  match label with
  | .allocproc _ => inferInstanceAs (Decidable (table.births < 2 ^ 31 - 1))
  | .kallocStack .. | .copyuvm .. | .forkRunnable _ | .exit _ | .wait _ | .sleep .. | .wakeup _
  | .kill _ | .trap _ | .schedule _ | .yield _ => inferInstanceAs (Decidable True)

/-- The calls of init for one child. -/
def forkOnce : List Label :=
  [.schedule initproc, .allocproc initproc, .kallocStack initproc true, .copyuvm initproc true,
    .forkRunnable initproc]

theorem first_child_has_own_pid : ∃ table : Table,
    (table.procs initproc).pid = 1 ∧ (table.procs firstChild).pid = 2 ∧
    (∀ slot other, (table.procs slot).state ≠ .unused → (table.procs other).state ≠ .unused →
      (table.procs slot).pid = (table.procs other).pid → slot = other) ∧
    ∀ slot, (table.procs slot).state ≠ .unused → 0 < (table.procs slot).pid := by
  have ran : ∃ table ∈ system.runWhen beforeWrap booted forkOnce,
      (table.procs initproc).pid = 1 ∧ (table.procs firstChild).pid = 2 := by
    decide +kernel
  obtain ⟨table, reachable, root, child⟩ := System.ReachableWhen.exists_of_runWhen (.init rfl) ran
  exact ⟨table, root, child, pids_identify reachable⟩

/-! ## After that -/

/-- Init runs, and there is no other process. -/
structure Alone (table : Table) : Prop where
  runs : (table.procs initproc).state = .running
  place : (table.procs initproc).code = .elsewhere
  root : (table.procs initproc).parent = none
  others : ∀ slot, slot ≠ initproc → (table.procs slot).state = .unused ∧
    (table.procs slot).parent = none ∧ (table.procs slot).code = .elsewhere

/-- The child of init runs, too. -/
structure OneChild (table : Table) (np : Slot) : Prop where
  notInit : np ≠ initproc
  runs : (table.procs initproc).state = .running
  place : (table.procs initproc).code = .elsewhere
  root : (table.procs initproc).parent = none
  childRuns : (table.procs np).state = .running
  childPlace : (table.procs np).code = .elsewhere
  parent : (table.procs np).parent = some initproc
  others : ∀ slot, slot ≠ initproc → slot ≠ np → (table.procs slot).state = .unused ∧
    (table.procs slot).parent = none ∧ (table.procs slot).code = .elsewhere

variable {table : Table}

theorem reachable_step (reachable : system.Reachable table)
    (taken : step table label = some next) : system.Reachable next :=
  .step label reachable trivial taken

theorem Alone.allocproc (alone : Alone table) : ∃ np next, np ≠ initproc ∧
    step table (.allocproc initproc) = some next ∧ next.births = table.births + 1 ∧
    next.procs np = { table.procs np with
      state := .embryo, pid := table.nextpid, birth := table.births } ∧
    next.procs initproc = { table.procs initproc with code := .forkKalloc np } ∧
    ∀ slot, slot ≠ initproc → slot ≠ np → next.procs slot = table.procs slot := by
  have enabled : table.runs initproc .elsewhere = true :=
    Table.runs_iff.mpr ⟨alone.runs, alone.place⟩
  cases search : table.find fun proc => proc.state == .unused with
  | none =>
    have missed := Table.find_none search firstChild
    rw [(alone.others firstChild (by decide)).1] at missed
    cases missed
  | some np =>
    have free := Table.find_some search
    have notInit : np ≠ initproc := by
      rintro rfl
      rw [alone.runs] at free
      cases free
    refine ⟨np, table.allocproc initproc, notInit, ?_, ?_, ?_, ?_, ?_⟩
    · simp [step, if_pos enabled]
    · simp only [Table.allocproc, search]
      rfl
    · simp only [Table.allocproc, search]
      rw [Table.goto_procs_of_ne _ _ notInit]
      exact Table.set_procs_self ..
    · simp only [Table.allocproc, search, Table.goto_procs_self]
      rw [Table.set_procs_of_ne _ _ notInit.symm]
    · intro slot notRoot notNp
      simp only [Table.allocproc, search]
      rw [Table.goto_procs_of_ne _ _ notRoot]
      exact Table.set_procs_of_ne _ _ notNp

theorem Alone.fork (alone : Alone table) (reachable : system.Reachable table) :
    ∃ np next, system.Reachable next ∧ next.births = table.births + 1 ∧ OneChild next np ∧
      (next.procs np).birth = table.births := by
  obtain ⟨np, t₁, notInit, taken₁, births, child, init, others⟩ := alone.allocproc
  have notNp := notInit.symm
  obtain ⟨free, -, childPlace⟩ := alone.others np notInit
  -- the rest of `fork`, and the child is scheduled
  generalize second : t₁.goto initproc (.forkCopyuvm np) = t₂
  have init₂ : t₂.procs initproc = { table.procs initproc with code := .forkCopyuvm np } := by
    rw [← second, goto_procs_self, init]
  have others₂ : ∀ slot, slot ≠ initproc → t₂.procs slot = t₁.procs slot := by
    intro slot notRoot
    rw [← second, goto_procs_of_ne _ _ notRoot]
  have taken₂ : step t₁ (.kallocStack initproc true) = some t₂ := by
    simp [step, init, runs_iff, alone.runs, kallocStack, second]
  generalize third : (t₂.set np { t₂.procs np with parent := some initproc }).goto initproc
    (.forkRunnable np) = t₃
  have init₃ : t₃.procs initproc = { table.procs initproc with code := .forkRunnable np } := by
    rw [← third, goto_procs_self, set_procs_of_ne _ _ notNp, init₂]
  have child₃ : t₃.procs np = { t₁.procs np with parent := some initproc } := by
    rw [← third, goto_procs_of_ne _ _ notInit, set_procs_self, others₂ np notInit]
  have others₃ : ∀ slot, slot ≠ initproc → slot ≠ np → t₃.procs slot = t₁.procs slot := by
    intro slot notRoot other
    rw [← third, goto_procs_of_ne _ _ notRoot, set_procs_of_ne _ _ other,
      others₂ slot notRoot]
  have taken₃ : step t₂ (.copyuvm initproc true) = some t₃ := by
    simp [step, init₂, runs_iff, alone.runs, copyuvm, third]
  generalize fourth : t₃.forkRunnable initproc np = t₄
  have init₄ : t₄.procs initproc = table.procs initproc := by
    rw [← fourth, forkRunnable, record_procs, goto_procs_self,
      set_procs_of_ne _ _ notNp, init₃, ← alone.place]
  have child₄ : t₄.procs np = { t₃.procs np with state := .runnable } := by
    rw [← fourth, forkRunnable, record_procs, goto_procs_of_ne _ _ notInit,
      set_procs_self]
  have others₄ : ∀ slot, slot ≠ initproc → slot ≠ np → t₄.procs slot = t₃.procs slot := by
    intro slot notRoot other
    rw [← fourth, forkRunnable, record_procs, goto_procs_of_ne _ _ notRoot,
      set_procs_of_ne _ _ other]
  have taken₄ : step t₃ (.forkRunnable initproc) = some t₄ := by
    simp [step, init₃, runs_iff, alone.runs, fourth]
  have taken₅ : step t₄ (.schedule np) =
      some (t₄.set np { t₄.procs np with state := .running, chan := none }) := by
    simp [step, child₄]
  have reachable₂ := reachable_step (reachable_step reachable taken₁) taken₂
  have reachable₄ := reachable_step (reachable_step reachable₂ taken₃) taken₄
  refine ⟨np, _, reachable_step reachable₄ taken₅, ?_,
    ⟨notInit, ?_, ?_, ?_, ?_, ?_, ?_, ?_⟩, ?_⟩
  · rw [← births, ← fourth, ← third, ← second]
    rfl
  · rw [set_procs_of_ne _ _ notNp, init₄, alone.runs]
  · rw [set_procs_of_ne _ _ notNp, init₄, alone.place]
  · rw [set_procs_of_ne _ _ notNp, init₄, alone.root]
  · rw [set_procs_self]
  · rw [set_procs_self, child₄, child₃, child]
    exact childPlace
  · rw [set_procs_self, child₄, child₃]
  · intro slot notRoot other
    rw [set_procs_of_ne _ _ other, others₄ slot notRoot other, others₃ slot notRoot other,
      others slot notRoot other]
    exact alone.others slot notRoot
  · rw [set_procs_self, child₄, child₃, child]

theorem OneChild.exit_wait {np : Slot} (one : OneChild table np)
    (reachable : system.Reachable table) :
    ∃ next, system.Reachable next ∧ next.births = table.births ∧ Alone next := by
  have enabled : table.runs np .elsewhere = true :=
    runs_iff.mpr ⟨one.childRuns, one.childPlace⟩
  have taken₁ : step table (.exit np) = some (table.exit np) := by
    simp [step, one.notInit, enabled]
  have exits := exit_exits table one.notInit
  generalize table.exit np = t₁ at taken₁ exits
  have parents : ∀ slot, (t₁.procs slot).parent = (table.procs slot).parent := by
    intro slot
    have noChild : (table.procs slot).parent ≠ some np := by
      by_cases isInit : slot = initproc
      · rw [isInit, one.root]
        rintro ⟨⟩
      · by_cases isNp : slot = np
        · rw [isNp, one.parent]
          exact fun equal => one.notInit (Option.some.inj equal).symm
        · rw [(one.others slot isInit isNp).2.1]
          rintro ⟨⟩
    rw [exits.procs slot]
    exact if_neg noChild
  have codes : ∀ slot, (t₁.procs slot).code = (table.procs slot).code := by
    intro slot
    have code := congrArg Proc.code (exits.procs slot)
    exact code
  have states : ∀ slot, slot ≠ np → (t₁.procs slot).state = (table.procs slot).state := by
    intro slot other
    rcases exits.state slot other with same | ⟨asleep, -⟩
    · exact same
    · by_cases isInit : slot = initproc
      · rw [isInit, one.runs] at asleep
        cases asleep
      · rw [(one.others slot isInit other).1] at asleep
        cases asleep
  have initRuns : t₁.runs initproc .elsewhere = true := by
    rw [runs_iff, states initproc one.notInit.symm, codes]
    exact ⟨one.runs, one.place⟩
  have search : (t₁.find fun proc => proc.parent == some initproc && proc.state == .zombie) =
      some np := by
    cases search : t₁.find fun proc => proc.parent == some initproc && proc.state == .zombie with
    | none =>
      have missed := find_none search np
      simp only [parents, one.parent, exits.zombie, beq_self_eq_true, Bool.and_self,
        Bool.true_eq_false] at missed
    | some slot =>
      have found := find_some search
      simp only [parents, Bool.and_eq_true] at found
      by_contra different
      have other : slot ≠ np := fun equal => different (by rw [equal])
      have notRoot : slot ≠ initproc := by
        rintro rfl
        rw [one.root] at found
        cases found.1
      rw [(one.others slot notRoot other).2.1] at found
      cases found.1
  have taken₂ : step t₁ (.wait initproc) = some (t₁.wait initproc) := by
    simp [step, initRuns]
  refine ⟨_, reachable_step (reachable_step reachable taken₁) taken₂, ?_, ?_⟩
  · rw [← exits.births]
    exact (wait_counters t₁ initproc).births
  · have notNp := one.notInit.symm
    simp only [wait, search]
    refine ⟨?_, ?_, ?_, ?_⟩
    · rw [record_procs, goto_procs_self, set_procs_of_ne _ _ notNp,
        states initproc notNp, one.runs]
    · rw [record_procs, goto_procs_self]
    · rw [record_procs, goto_procs_self, set_procs_of_ne _ _ notNp,
        parents, one.root]
    · intro slot notRoot
      rw [record_procs, goto_procs_of_ne _ _ notRoot]
      induction slot using set_cases with
      | own => exact ⟨rfl, rfl, (codes np).trans one.childPlace⟩
      | others slot isOther =>
        rw [states slot isOther, parents, codes]
        exact one.others slot notRoot isOther

/-- Init can fork, and reap, any number of children one after the other. -/
theorem alone_after (n : Nat) :
    ∃ table, system.Reachable table ∧ Alone table ∧ table.births = n + 1 := by
  induction n with
  | zero =>
    have start : system.Reachable booted := .init rfl
    have taken : step booted (.schedule initproc) = some (booted.set initproc
        { booted.procs initproc with state := .running, chan := none }) := rfl
    refine ⟨_, reachable_step start taken, ⟨?_, ?_, ?_, ?_⟩, rfl⟩
    · rw [set_procs_self]
    · rw [set_procs_self]
      rfl
    · rw [set_procs_self]
      rfl
    · intro slot notRoot
      rw [set_procs_of_ne _ _ notRoot]
      simp [booted, if_neg notRoot]
  | succ n ih =>
    obtain ⟨table, reachable, alone, births⟩ := ih
    obtain ⟨np, forked, forkedReachable, forkedBirths, one, -⟩ := alone.fork reachable
    obtain ⟨next, nextReachable, nextBirths, nextAlone⟩ := one.exit_wait forkedReachable
    exact ⟨next, nextReachable, nextAlone, by rw [nextBirths, forkedBirths, births]⟩

/-- The child that init forks after `n` others. -/
theorem child_after (n : Nat) : ∃ table np, system.Reachable table ∧ OneChild table np ∧
    (table.procs np).pid = pidOf (n + 1) ∧ (table.procs initproc).pid = 1 := by
  obtain ⟨before, reachable, alone, births⟩ := alone_after n
  obtain ⟨np, table, forked, -, one, birth⟩ := alone.fork reachable
  have pids := pidInv_reachable forked
  refine ⟨table, np, forked, one, ?_, ?_⟩
  · rw [pids.pid np (by rw [one.childRuns]; nofun), birth, births]
  · rw [pids.pid initproc (by rw [one.runs]; nofun), (pastInv_reachable forked).root]
    rfl

/-- With `2^31 - 2` children before it a child gets a negative pid; with `2^32 - 1` it gets the
pid of init. -/
theorem pids_wrap :
    (∃ table np, system.Reachable table ∧ (table.procs np).state = .running ∧
      (table.procs np).pid < 0) ∧
    ∃ table np, system.Reachable table ∧ np ≠ initproc ∧ (table.procs np).state = .running ∧
      (table.procs initproc).state = .running ∧
      (table.procs np).pid = (table.procs initproc).pid := by
  refine ⟨?_, ?_⟩
  · obtain ⟨table, np, reachable, one, pid, -⟩ := child_after (2 ^ 31 - 2)
    refine ⟨table, np, reachable, one.childRuns, ?_⟩
    rw [pid]
    decide
  · obtain ⟨table, np, reachable, one, pid, root⟩ := child_after (2 ^ 32 - 1)
    refine ⟨table, np, reachable, one.notInit, one.childRuns, one.runs, ?_⟩
    rw [pid, root]
    decide

end Laboratorio.Xv6.Procs
