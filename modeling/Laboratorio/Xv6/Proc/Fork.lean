import Laboratorio.Xv6.Proc.Steps

/-! # The child of a `fork`

The slot a `fork` works on is an `EMBRYO` that no other process has, from `allocproc`
to the critical section that makes it `RUNNABLE`.  The slots are told apart by state:
`allocproc` takes an `UNUSED` one, `wait` frees a `ZOMBIE`, and nothing else touches
an `EMBRYO`.
-/

namespace Laboratorio.Xv6.Procs

open Laboratorio.Lib Table

variable {slot np curproc : Slot}

/-- A process inside `fork` is not asleep, and the slot it works on is an `EMBRYO` of its
own, with the parent already set in the last part. -/
structure ForkInv (table : Table) : Prop where
  awake : ∀ slot np, (table.procs slot).code.child = some np →
    (table.procs slot).state = .runnable ∨ (table.procs slot).state = .running
  embryo : ∀ slot np, (table.procs slot).code.child = some np → (table.procs np).state = .embryo
  own : ∀ slot other np, (table.procs slot).code.child = some np →
    (table.procs other).code.child = some np → slot = other
  parent : ∀ slot np, (table.procs slot).code = .forkRunnable np →
    (table.procs np).parent = some slot

namespace ForkInv

variable {table next : Table}

section

variable (inv : ForkInv table)
include inv

theorem ne_of_not_embryo {other : Slot} (forking : (table.procs slot).code.child = some np)
    (grown : (table.procs other).state ≠ .embryo) : other ≠ np := by
  rintro rfl
  exact grown (inv.embryo slot other forking)

/-- A step that starts no `fork` keeps `ForkInv` if it leaves the processes inside `fork`
awake and their children `EMBRYO`s. -/
theorem of_subset (forks : ∀ slot np, (next.procs slot).code.child = some np →
      (table.procs slot).code.child = some np ∧ (next.procs np).state = (table.procs np).state)
    (awake : ∀ slot np, (next.procs slot).code.child = some np →
      (table.procs slot).state = .runnable ∨ (table.procs slot).state = .running →
      (next.procs slot).state = .runnable ∨ (next.procs slot).state = .running)
    (parent : ∀ slot np, (next.procs slot).code = .forkRunnable np →
      (next.procs np).parent = some slot) : ForkInv next where
  awake slot np forking := awake slot np forking (inv.awake slot np (forks slot np forking).1)
  embryo slot np forking := by
    obtain ⟨before, same⟩ := forks slot np forking
    rw [same, inv.embryo slot np before]
  own slot other np forking alsoForking :=
    inv.own slot other np (forks slot np forking).1 (forks other np alsoForking).1
  parent := parent

theorem moves (moves : Moves table next) : ForkInv next := by
  refine inv.of_subset (fun slot np forking => ?_) (fun slot np forking before => ?_)
    (fun slot np last => ?_)
  · have before := moves.child slot ▸ forking
    have embryo := inv.embryo slot np before
    exact ⟨before, ((moves.state_iff np rfl).mpr embryo).trans embryo.symm⟩
  · have live : (next.procs slot).state.live = true :=
      (moves.live_iff slot).mpr (by cases before with | _ state => simp [state, ProcState.live])
    have notAsleep : (next.procs slot).state ≠ .sleeping := by
      intro asleep
      have slept := (moves.procs slot).awake (by simp [forking]) asleep
      simp [slept] at before
    cases state : (next.procs slot).state <;> simp_all [ProcState.live]
  · rw [(moves.procs np).parent]
    cases (moves.procs slot).code with
    | inl same => exact inv.parent slot np (same ▸ last)
    | inr both => simp [last, Code.child] at both

/-- `curproc` leaves `fork`, with any change to the slot of its child. -/
theorem leave {proc : Proc} (place : (table.procs curproc).code.child = some np)
    (code : proc.code = (table.procs np).code) :
    ForkInv ((table.set np proc).goto curproc .elsewhere) := by
  have other : ∀ slot np', (((table.set np proc).goto curproc .elsewhere).procs slot).code.child =
      some np' → slot ≠ curproc ∧ (table.procs slot).code.child = some np' ∧ slot ≠ np := by
    intro slot np' forking
    have different : slot ≠ curproc := by
      rintro rfl
      simp [Code.child] at forking
    rw [goto_procs_of_ne _ _ different] at forking
    induction slot using set_cases with
    | own =>
      rw [code] at forking
      have embryo := inv.embryo curproc np place
      have awake := inv.awake np np' forking
      simp [embryo] at awake
    | others slot notNp => exact ⟨different, forking, notNp⟩
  have unchanged : ∀ slot np', (((table.set np proc).goto curproc .elsewhere).procs
      slot).code.child = some np' →
      ((table.set np proc).goto curproc .elsewhere).procs slot = table.procs slot ∧
      (((table.set np proc).goto curproc .elsewhere).procs np').state = (table.procs np').state ∧
      (((table.set np proc).goto curproc .elsewhere).procs np').parent =
        (table.procs np').parent := by
    intro slot np' forking
    obtain ⟨different, before, notNp⟩ := other slot np' forking
    -- two forks never work on one slot
    have apart : np' ≠ np := by
      rintro rfl
      exact different (inv.own slot curproc np' before place)
    rw [goto_procs_of_ne _ _ different, set_procs_of_ne _ _ notNp, goto_procs,
      set_procs_of_ne _ _ apart]
    exact ⟨rfl, rfl, rfl⟩
  refine inv.of_subset (fun slot np' forking => ⟨(other slot np' forking).2.1,
    (unchanged slot np' forking).2.1⟩) (fun slot np' forking before => ?_) (fun slot np' last => ?_)
  · rw [(unchanged slot np' forking).1]
    exact before
  · have forking : (((table.set np proc).goto curproc .elsewhere).procs slot).code.child =
        some np' := by
      rw [last]
      rfl
    obtain ⟨same, _, parent⟩ := unchanged slot np' forking
    rw [parent]
    exact inv.parent slot np' (same ▸ last)

theorem allocproc (runs : (table.procs curproc).state = .running)
    (free : (table.procs np).state = .unused) (procs : ∀ slot, next.procs slot =
      if slot = np then { table.procs np with
        state := .embryo, pid := table.nextpid, birth := table.births }
      else if slot = curproc then { table.procs curproc with code := .forkKalloc np }
      else table.procs slot) : ForkInv next := by
  have notNp : ∀ slot np', (table.procs slot).code.child = some np' → slot ≠ np ∧ np' ≠ np := by
    intro slot np' forking
    refine ⟨?_, (inv.ne_of_not_embryo forking (by simp [free])).symm⟩
    rintro rfl
    have awake := inv.awake slot np' forking
    simp [free] at awake
  -- a process inside `fork` is `curproc` with its new child, or was inside `fork` before
  have forks : ∀ slot np', (next.procs slot).code.child = some np' →
      slot = curproc ∧ np' = np ∨ slot ≠ curproc ∧ (table.procs slot).code.child = some np' ∧
        next.procs slot = table.procs slot := by
    intro slot np' forking
    rw [procs slot] at forking ⊢
    by_cases isNp : slot = np
    · subst isNp
      simp only [if_true] at forking
      exact absurd rfl (notNp slot np' forking).1
    · by_cases isCurproc : slot = curproc
      · subst isCurproc
        simp only [isNp, if_false, if_true, Code.child, Option.some.injEq] at forking
        exact Or.inl ⟨rfl, forking.symm⟩
      · simp only [isNp, isCurproc, if_false] at forking ⊢
        exact Or.inr ⟨isCurproc, forking, trivial⟩
  have notCurproc : curproc ≠ np := by
    rintro rfl
    simp [runs] at free
  refine ⟨fun slot np' forking => ?_, fun slot np' forking => ?_, fun slot other np' forking also => ?_,
    fun slot np' last => ?_⟩
  · obtain ⟨rfl, _⟩ | ⟨_, before, same⟩ := forks slot np' forking
    · simp [procs, notCurproc, runs]
    · rw [same]
      exact inv.awake slot np' before
  · obtain ⟨_, rfl⟩ | ⟨_, before, _⟩ := forks slot np' forking
    · simp [procs]
    · have embryo := inv.embryo slot np' before
      have different : np' ≠ curproc := by
        rintro rfl
        simp [runs] at embryo
      simp [procs, (notNp slot np' before).2, different, embryo]
  · obtain ⟨rfl, isNp⟩ | ⟨_, before, _⟩ := forks slot np' forking
    · obtain ⟨rfl, _⟩ | ⟨_, alsoBefore, _⟩ := forks other np' also
      · rfl
      · exact absurd isNp (notNp other np' alsoBefore).2
    · obtain ⟨_, isNp⟩ | ⟨_, alsoBefore, _⟩ := forks other np' also
      · exact absurd isNp (notNp slot np' before).2
      · exact inv.own slot other np' before alsoBefore
  · obtain ⟨rfl, _⟩ | ⟨_, before, same⟩ := forks slot np' (by rw [last]; rfl)
    · simp [procs, notCurproc] at last
    · have parent := inv.parent slot np' (same ▸ last)
      have different : np' ≠ curproc := by
        rintro rfl
        have embryo := inv.embryo slot np' before
        simp [runs] at embryo
      simp [procs, (notNp slot np' before).2, different, parent]

/-- The next part of `fork`, which may set the parent of the child. -/
theorem next_part {code : Code} {parent : Option Slot}
    (runs : (table.procs curproc).state = .running)
    (place : (table.procs curproc).code.child = some np) (child : code.child = some np)
    (set : code = .forkRunnable np → parent = some curproc) :
    ForkInv ((table.set np { table.procs np with parent := parent }).goto curproc code) := by
  have embryo := inv.embryo curproc np place
  have states : ∀ slot, (((table.set np { table.procs np with parent := parent }).goto curproc
      code).procs slot).state = (table.procs slot).state := by
    intro slot
    rw [goto_procs]
    induction slot using set_cases with
    | own => rfl
    | others slot _ => rfl
  have codes : ∀ slot, (((table.set np { table.procs np with parent := parent }).goto curproc
      code).procs slot).code = if slot = curproc then code else (table.procs slot).code := by
    intro slot
    rw [goto_procs]
    induction slot using set_cases with
    | own => rfl
    | others slot _ => rfl
  refine inv.of_subset (fun slot np' forking => ⟨?_, states np'⟩)
    (fun slot np' forking before => by rw [states slot]; exact before) (fun slot np' last => ?_)
  · rw [codes slot] at forking
    by_cases isCurproc : slot = curproc
    · subst isCurproc
      simp only [if_true, child] at forking
      rw [place, forking]
    · simpa [isCurproc] using forking
  · rw [codes slot] at last
    rw [goto_procs]
    by_cases isCurproc : slot = curproc
    · subst isCurproc
      simp only [if_true] at last
      subst last
      cases child
      simp [set rfl]
    · simp only [isCurproc, if_false] at last
      have forking : (table.procs slot).code.child = some np' := by rw [last]; rfl
      have apart : np' ≠ np := by
        rintro rfl
        exact isCurproc (inv.own slot curproc np' forking place)
      rw [set_procs_of_ne _ _ apart]
      exact inv.parent slot np' last

theorem exit (runs : (table.procs curproc).state = .running)
    (place : (table.procs curproc).code = .elsewhere) (exits : Exits curproc table next) :
    ForkInv next := by
  have codes : ∀ slot, (next.procs slot).code = (table.procs slot).code := by
    intro slot
    rw [exits.procs slot]
  have awake : ∀ slot, (table.procs slot).state ≠ .sleeping → slot ≠ curproc →
      (next.procs slot).state = (table.procs slot).state := by
    intro slot notAsleep different
    exact (exits.state slot different).resolve_right fun moved => notAsleep moved.1
  have notCurproc : ∀ slot np, (table.procs slot).code.child = some np → slot ≠ curproc := by
    rintro slot np forking rfl
    simp [place, Code.child] at forking
  refine inv.of_subset (fun slot np forking => ?_) (fun slot np forking before => ?_)
    (fun slot np last => ?_)
  · rw [codes slot] at forking
    have embryo := inv.embryo slot np forking
    refine ⟨forking, awake np (by simp [embryo]) ?_⟩
    rintro rfl
    simp [runs] at embryo
  · rw [codes slot] at forking
    rw [awake slot ?_ (notCurproc slot np forking)]
    · exact before
    · cases before with
      | _ state => simp [state]
  · rw [codes slot] at last
    have forking : (table.procs slot).code.child = some np := by rw [last]; rfl
    have parent := inv.parent slot np last
    rw [exits.procs np]
    simp [parent, notCurproc slot np forking]

theorem set {proc : Proc} (grown : (table.procs slot).state ≠ .embryo)
    (code : proc.code = (table.procs slot).code ∨ proc.code.child = none)
    (awake : proc.code.child ≠ none → (table.procs slot).state = .runnable ∨
      (table.procs slot).state = .running → proc.state = .runnable ∨ proc.state = .running) :
    ForkInv (table.set slot proc) := by
  have forks : ∀ other np, ((table.set slot proc).procs other).code.child = some np →
      (table.procs other).code.child = some np ∧
        ((table.set slot proc).procs np) = table.procs np := by
    intro other np forking
    have before : (table.procs other).code.child = some np := by
      induction other using set_cases with
      | own =>
        cases code with
        | inl same => exact same ▸ forking
        | inr outside => simp [outside] at forking
      | others other _ => exact forking
    exact ⟨before, set_procs_of_ne _ _ (inv.ne_of_not_embryo before grown).symm⟩
  refine inv.of_subset (fun other np forking => ?_) (fun other np forking before => ?_)
    (fun other np last => ?_)
  · obtain ⟨before, same⟩ := forks other np forking
    exact ⟨before, by rw [same]⟩
  · induction other using set_cases with
    | own => exact awake (by simp [forking]) before
    | others other _ => exact before
  · have forking : ((table.set slot proc).procs other).code.child = some np := by
      rw [last]
      rfl
    rw [(forks other np forking).2]
    induction other using set_cases with
    | own =>
      cases code with
      | inl same => exact inv.parent slot np (same ▸ last)
      | inr outside => simp [outside] at forking
    | others other _ => exact inv.parent other np last

theorem kill : ForkInv (table.set slot { table.procs slot with
    toSleeper := (table.procs slot).kill, killed := true }) := by
  have same : ∀ other, ((table.set slot { table.procs slot with
        toSleeper := (table.procs slot).kill, killed := true }).procs other).code =
          (table.procs other).code ∧
      ((table.set slot { table.procs slot with
        toSleeper := (table.procs slot).kill, killed := true }).procs other).parent =
          (table.procs other).parent ∧
      ((table.procs other).state ≠ .sleeping → ((table.set slot { table.procs slot with
        toSleeper := (table.procs slot).kill, killed := true }).procs other).state =
          (table.procs other).state) := by
    intro other
    induction other using set_cases with
    | own =>
      exact ⟨rfl, rfl, fun awake => Sleeper.kill_state.resolve_right fun woken => awake woken.1⟩
    | others other _ => exact ⟨rfl, rfl, fun _ => rfl⟩
  refine inv.of_subset (fun other np forking => ?_) (fun other np forking before => ?_)
    (fun other np last => ?_)
  · rw [(same other).1] at forking
    exact ⟨forking, (same np).2.2 (by simp [inv.embryo other np forking])⟩
  · rw [(same other).2.2 (by cases before with | _ state => simp [state])]
    exact before
  · rw [(same other).1] at last
    rw [(same np).2.1]
    exact inv.parent other np last

theorem record (event : Event) : ForkInv (table.record event) :=
  ⟨inv.awake, inv.embryo, inv.own, inv.parent⟩

theorem step {label : Label} (effect : Effect table label next) : ForkInv next := by
  cases effect with
  | moves moves => exact inv.moves moves
  | allocproc np runs place free births history procs => exact inv.allocproc runs free procs
  | kallocStack np runs place =>
    have same : table.set np { table.procs np with parent := (table.procs np).parent } = table := by
      simp [Table.set]
    rw [← same]
    exact inv.next_part runs (by rw [place]; rfl) rfl (by rintro ⟨⟩)
  | giveBack np runs place =>
    refine inv.leave ?_ rfl
    cases place with
    | inl stack => rw [stack.2]; rfl
    | inr memory => rw [memory.2]; rfl
  | copyuvm np runs place =>
    exact inv.next_part runs (by rw [place]; rfl) rfl fun _ => rfl
  | forkRunnable np runs place =>
    refine ForkInv.record (inv.leave ?_ ?_) _
    · rw [place]
      rfl
    · rfl
  | exit notInit runs place exits => exact inv.exit runs place exits
  | @reap curproc child runs place parent zombie =>
    have different : child ≠ curproc := by
      rintro rfl
      simp [runs] at zombie
    have freed : ForkInv (table.set child { table.procs child with
        pid := 0, parent := none, killed := false, state := .unused }) := by
      refine inv.set (by simp [zombie]) (Or.inl rfl) ?_
      simp [zombie]
    refine ForkInv.record (freed.set ?_ (Or.inr rfl) fun forking => absurd rfl forking) _
    rw [Table.set_procs_of_ne _ _ different.symm]
    simp [runs]
  | waitSleep runs place none =>
    exact inv.set (by simp [runs]) (Or.inr rfl) (fun forking => absurd rfl forking)
  | killMisses missed => exact inv.record _
  | killHits slot hit => exact inv.kill.record _
  | trap runs =>
    refine ForkInv.record (inv.set ?_ ?_ ?_) _
    · simp [runs]
    · exact Or.inl rfl
    · exact fun _ before => before

end

end ForkInv

theorem forkInv_booted : ForkInv booted := by
  have outside : ∀ slot, (booted.procs slot).code.child = none := by
    intro slot
    unfold booted
    simp only
    split <;> rfl
  refine ⟨?_, ?_, ?_, fun slot np last => ?_⟩
  · simp [outside]
  · simp [outside]
  · simp [outside]
  · have none := outside slot
    simp [last, Code.child] at none

theorem forkInv_reachable {allowed : Table → Label → Prop} {table : Table}
    (reachable : system.ReachableWhen allowed table) : ForkInv table := by
  refine reachable.invariant ?_ ?_
  · rintro _ rfl
    exact forkInv_booted
  · intro table label next _ inv _ taken
    exact inv.step (effect_of_step taken)

end Laboratorio.Xv6.Procs
