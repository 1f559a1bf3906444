import Laboratorio.Xv6.Sleeplock.Model

/-! # Exclusion and wakeups of a sleep lock

`Inv` ties every process that sleeps on the lock, or is about to, to a reason: the lock is
taken, or the process that has just given it up has its `wakeup` ahead and the scan has not
come to the sleeper yet (`Pos.owes`).  A process that has released `lk->lk` inside `sleep` and
is not `SLEEPING` yet holds `ptable.lock`, so that the scan cannot pass it by.
-/

namespace Laboratorio.Xv6.Sleeplocks

open Laboratorio.Lib Function

variable {pos : Pos} {proc : Proc}

/-! ## Positions -/

def Pos.holdsLk : Pos → Bool
  | .idle => false
  | .acquiresleep pos =>
    (pos matches .test | .sleep .acquirePtable | .sleep .releaseLk | .setLocked | .setPid | .release)
  | .releasesleep pos => !(pos matches .acquire)
  | .holdingsleep pos => (pos matches .test | .release _)

def Pos.holdsPtable : Pos → Bool
  | .acquiresleep (.sleep pos) =>
    (pos matches .releaseLk | .setChan | .setState | .sched | .clearChan | .releasePtable)
  | .releasesleep (.wakeup pos) => (pos matches .scan _ | .releasePtable)
  | _ => false

/-- The `wakeup` that is ahead will look at process `q`. -/
def Pos.owes : Pos → Nat → Bool
  | .releasesleep .clearPid, _ => true
  | .releasesleep (.wakeup .acquirePtable), _ => true
  | .releasesleep (.wakeup (.scan i)), q => i ≤ q
  | _, _ => false

/-- What a process knows of the lock.  What `holdingsleep` has answered is right if the pids are
`distinct`. -/
def Proc.Fine (proc : Proc) (distinct : Prop) (locked : Bool) : Prop :=
  match proc.pos with
  | .acquiresleep (.sleep .acquirePtable) => locked = true
  | .acquiresleep (.sleep .releaseLk) => locked = true
  | .acquiresleep .setLocked => locked = false
  | .acquiresleep .setPid => proc.owns = true
  | .releasesleep .acquire => proc.owns = true
  | .releasesleep .clearLocked => proc.owns = true
  | .releasesleep .clearPid => locked = false
  | .holdingsleep (.release r) => distinct → r = proc.owns
  | .holdingsleep (.returns r) => distinct → r = proc.owns
  | _ => True

/-- `SLEEPING` on the lock, or inside `sleep` and past the release of `lk->lk`. -/
def Proc.Waits (proc : Proc) : Prop :=
  (proc.state = .sleeping ∧ proc.chan = some .lk) ∨
    proc.pos = .acquiresleep (.sleep .setChan) ∨ proc.pos = .acquiresleep (.sleep .setState)

theorem Pos.holdsLk_of_owes {q : Nat} (owes : pos.owes q = true) : pos.holdsLk = true := by
  unfold Pos.owes at owes
  split at owes
  case h_4 => cases owes
  all_goals rfl

/-- Only a process that holds `lk->lk` knows whether the lock is taken. -/
theorem Proc.Fine.away {distinct : Prop} {locked locked' : Bool} (fine : proc.Fine distinct locked)
    (outside : proc.pos.holdsLk = false) : proc.Fine distinct locked' := by
  rcases proc with ⟨sleeper, pos, owns⟩
  cases pos with
  | idle => exact trivial
  | acquiresleep pos =>
    cases pos with
    | sleep pos => cases pos <;> first | exact fine | cases outside
    | setLocked => cases outside
    | _ => exact fine
  | releasesleep pos => cases pos <;> first | exact fine | cases outside
  | holdingsleep pos => cases pos <;> exact fine

variable {nproc : Nat} {k next : Kernel nproc} {p q : Fin nproc}

structure Inv (k : Kernel nproc) : Prop where
  lk : ∀ p, (k.procs p).pos.holdsLk = true ↔ k.lock.lk = some p
  ptable : ∀ p, (k.procs p).pos.holdsPtable = true ↔ k.ptableLock = some (.proc p)
  unique : ∀ p q, (k.procs p).owns = true → (k.procs q).owns = true → p = q
  owned : k.lock.locked = true ↔ ∃ p, (k.procs p).owns = true
  pid : ∀ p, (k.procs p).owns = true → (k.procs p).pos ≠ .acquiresleep .setPid →
    k.lock.pid = k.pid p
  fine : ∀ p, (k.procs p).Fine (Injective k.pid) k.lock.locked
  waiting : ∀ p, (k.procs p).Waits →
    k.lock.locked = true ∨ ∃ r, (k.procs r).pos.owes p = true

theorem inv_initial (initial : Initial k) : Inv k := by
  constructor
  case lk =>
    intro p
    rw [initial.idle, initial.lk]
    exact iff_of_false Bool.false_ne_true nofun
  case ptable =>
    intro p
    rw [initial.idle, initial.ptableLock]
    exact iff_of_false Bool.false_ne_true nofun
  case unique =>
    intro p q owns
    simp only [initial.owns, Bool.false_eq_true] at owns
  case owned => simp [initial.locked, initial.owns]
  case pid =>
    intro p owns
    simp only [initial.owns, Bool.false_eq_true] at owns
  case fine =>
    intro p
    simp [Proc.Fine, initial.idle]
  case waiting =>
    intro p waits
    simp only [Proc.Waits, initial.idle, initial.chan, and_false, reduceCtorEq, or_self] at waits

/-! ## Steps that leave `locked` and `pid` alone -/

/-- What the new record of a process must keep. -/
structure Passes (k : Kernel nproc) (p : Fin nproc) (proc : Proc) : Prop where
  owns : proc.owns = (k.procs p).owns
  setPid : (k.procs p).pos = .acquiresleep .setPid → proc.pos = .acquiresleep .setPid
  fine : proc.Fine (Injective k.pid) k.lock.locked
  waits : proc.Waits → (k.procs p).Waits ∨ k.lock.locked = true
  owes : ∀ q : Fin nproc, (k.procs q).Waits → (k.procs p).pos.owes q = true →
    proc.pos.owes q = true

theorem update_owns (proc : Proc) (owns : proc.owns = (k.procs p).owns) (q : Fin nproc) :
    (update k.procs p proc q).owns = (k.procs q).owns := by
  induction q using update_cases with
  | own => exact owns
  | others q _ => rfl

theorem Inv.passes (inv : Inv k) (passes : Passes k p proc)
    {lk : Option (Fin nproc)} {ptableLock : Option (Holder nproc)}
    (lkSelf : proc.pos.holdsLk = true ↔ lk = some p)
    (lkOthers : ∀ q, q ≠ p → (lk = some q ↔ k.lock.lk = some q))
    (ptableSelf : proc.pos.holdsPtable = true ↔ ptableLock = some (.proc p))
    (ptableOthers : ∀ q, q ≠ p → (ptableLock = some (.proc q) ↔ k.ptableLock = some (.proc q))) :
    Inv ({ k with lock.lk := lk, ptableLock }.setProc p proc) := by
  have self : update k.procs p proc p = proc := update_self ..
  have others : ∀ q, q ≠ p → update k.procs p proc q = k.procs q :=
    fun q different => update_of_ne different ..
  have owns := update_owns proc passes.owns
  have owes : ∀ r (q : Fin nproc), (k.procs q).Waits → (k.procs r).pos.owes q = true →
      (update k.procs p proc r).pos.owes q = true := by
    intro r q waits owes
    by_cases same : r = p
    · subst same
      rw [self]
      exact passes.owes q waits owes
    · rw [others r same]
      exact owes
  constructor <;> simp [Kernel.setProc]
  case lk =>
    intro q
    by_cases same : q = p
    · rw [same, self]
      exact lkSelf
    · rw [others q same, lkOthers q same]
      exact inv.lk q
  case ptable =>
    intro q
    by_cases same : q = p
    · rw [same, self]
      exact ptableSelf
    · rw [others q same, ptableOthers q same]
      exact inv.ptable q
  case unique =>
    intro q r
    rw [owns, owns]
    exact inv.unique q r
  case owned =>
    simp only [owns]
    exact inv.owned
  case pid =>
    intro q
    rw [owns]
    intro isOwner notSetPid
    by_cases same : q = p
    · subst same
      rw [self] at notSetPid
      exact inv.pid q isOwner fun setPid => notSetPid (passes.setPid setPid)
    · rw [others q same] at notSetPid
      exact inv.pid q isOwner notSetPid
  case fine =>
    intro q
    by_cases same : q = p
    · rw [same, self]
      exact passes.fine
    · rw [others q same]
      exact inv.fine q
  case waiting =>
    intro q waits
    have waited : (k.procs q).Waits ∨ k.lock.locked = true := by
      by_cases same : q = p
      · subst same
        rw [self] at waits
        exact passes.waits waits
      · rw [others q same] at waits
        exact .inl waits
    obtain waited | locked := waited
    · obtain locked | ⟨r, owed⟩ := inv.waiting q waited
      · exact .inl locked
      · exact .inr ⟨r, owes r q waited owed⟩
    · exact .inl locked

section Moves

variable {before : Pos} (inv : Inv k) (here : (k.procs p).pos = before)
include inv here

theorem Inv.stays (passes : Passes k p proc) (lk : proc.pos.holdsLk = before.holdsLk)
    (ptable : proc.pos.holdsPtable = before.holdsPtable) : Inv (k.setProc p proc) := by
  subst here
  apply inv.passes passes
  · rw [lk]
    exact inv.lk p
  · exact fun _ _ => Iff.rfl
  · rw [ptable]
    exact inv.ptable p
  · exact fun _ _ => Iff.rfl

theorem Inv.takeLk (taken : k.takeLk p pos = some next) (passes : Passes k p { k.procs p with pos })
    (lk : pos.holdsLk = true) (ptable : pos.holdsPtable = before.holdsPtable) : Inv next := by
  subst here
  obtain ⟨free, rfl⟩ := of_guard taken
  apply inv.passes passes
  · exact iff_of_true lk rfl
  · intro q different
    rw [free]
    exact iff_of_false (fun same => different (Option.some.inj same).symm) nofun
  · rw [ptable]
    exact inv.ptable p
  · exact fun _ _ => Iff.rfl

theorem Inv.dropLk (passes : Passes k p { k.procs p with pos }) (held : before.holdsLk = true)
    (lk : pos.holdsLk = false) (ptable : pos.holdsPtable = before.holdsPtable) :
    Inv (k.dropLk p pos) := by
  subst here
  have holder := (inv.lk p).mp held
  apply inv.passes passes
  · rw [lk]
    exact iff_of_false Bool.false_ne_true nofun
  · intro q different
    rw [holder]
    exact iff_of_false nofun fun same => different (Option.some.inj same).symm
  · rw [ptable]
    exact inv.ptable p
  · exact fun _ _ => Iff.rfl

theorem Inv.takePtable (taken : k.takePtable p pos = some next)
    (passes : Passes k p { k.procs p with pos }) (lk : pos.holdsLk = before.holdsLk)
    (ptable : pos.holdsPtable = true) : Inv next := by
  subst here
  obtain ⟨free, rfl⟩ := of_guard taken
  apply inv.passes passes
  · rw [lk]
    exact inv.lk p
  · exact fun _ _ => Iff.rfl
  · exact iff_of_true ptable rfl
  · intro q different
    rw [free]
    exact iff_of_false
      (fun same => different (Holder.proc.inj (Option.some.inj same)).symm) nofun

theorem Inv.dropPtable (passes : Passes k p { k.procs p with pos })
    (lk : pos.holdsLk = before.holdsLk) (held : before.holdsPtable = true)
    (ptable : pos.holdsPtable = false) : Inv (k.dropPtable p pos) := by
  subst here
  have holder := (inv.ptable p).mp held
  apply inv.passes passes
  · rw [lk]
    exact inv.lk p
  · exact fun _ _ => Iff.rfl
  · rw [ptable]
    exact iff_of_false Bool.false_ne_true nofun
  · intro q different
    rw [holder]
    exact iff_of_false nofun fun same =>
      different (Holder.proc.inj (Option.some.inj same)).symm

omit inv

/-- The process is not between the two assignments of `acquiresleep`. -/
theorem passes_of (notSetPid : before ≠ .acquiresleep .setPid)
    (owns : proc.owns = (k.procs p).owns) (fine : proc.Fine (Injective k.pid) k.lock.locked)
    (waits : proc.Waits → (k.procs p).Waits ∨ k.lock.locked = true)
    (owes : ∀ q : Fin nproc, (k.procs q).Waits → before.owes q = true → proc.pos.owes q = true) :
    Passes k p proc := by
  subst here
  exact ⟨owns, fun setPid => absurd setPid notSetPid, fine, waits, owes⟩

theorem passes_goto (notSetPid : before ≠ .acquiresleep .setPid)
    (fine : Proc.Fine { k.procs p with pos } (Injective k.pid) k.lock.locked)
    (sleeps : pos = .acquiresleep (.sleep .setChan) ∨ pos = .acquiresleep (.sleep .setState) →
      k.lock.locked = true)
    (owes : ∀ q : Fin nproc, (k.procs q).Waits → before.owes q = true → pos.owes q = true) :
    Passes k p { k.procs p with pos } := by
  refine passes_of here notSetPid rfl fine ?_ owes
  intro waits
  obtain sleeping | going := waits
  · exact .inl (.inl sleeping)
  · exact .inr (sleeps going)

end Moves

theorem sleep_inv (inv : Inv k) {pos : SleepAt}
    (here : (k.procs p).pos = .acquiresleep (.sleep pos)) (taken : k.sleep p pos = some next) :
    Inv next := by
  have fine := inv.fine p
  rw [Proc.Fine, here] at fine
  cases pos with
  | acquirePtable =>
    exact inv.takePtable here taken (passes_goto here nofun fine nofun nofun) rfl rfl
  | releaseLk =>
    cases taken
    exact inv.dropLk here (passes_goto here nofun trivial (fun _ => fine) nofun) rfl rfl rfl
  | setChan =>
    cases taken
    apply inv.stays here _ rfl rfl
    exact passes_of here nofun rfl trivial (fun _ => .inl (.inr (.inl here))) nofun
  | setState =>
    cases taken
    apply inv.stays here _ rfl rfl
    exact passes_of here nofun rfl trivial (fun _ => .inl (.inr (.inr here))) nofun
  | sched =>
    cases taken
    exact inv.dropPtable here (passes_goto here nofun trivial nofun nofun) rfl rfl rfl
  | asleep =>
    exact inv.takePtable here taken (passes_goto here nofun trivial nofun nofun) rfl rfl
  | clearChan =>
    cases taken
    apply inv.stays here _ rfl rfl
    refine passes_of here nofun rfl trivial ?_ nofun
    intro waits
    simp only [Proc.Waits, reduceCtorEq, and_false, Pos.acquiresleep.injEq, AcquireAt.sleep.injEq,
      or_self] at waits
  | releasePtable =>
    cases taken
    exact inv.dropPtable here (passes_goto here nofun trivial nofun nofun) rfl rfl rfl
  | acquireLk =>
    exact inv.takeLk here taken (passes_goto here nofun trivial nofun nofun) rfl rfl

/-! ## Steps that change `locked` or `pid` -/

theorem Inv.holders (inv : Inv k) (p : Fin nproc) (proc : Proc)
    (lk : proc.pos.holdsLk = (k.procs p).pos.holdsLk)
    (ptable : proc.pos.holdsPtable = (k.procs p).pos.holdsPtable) (q : Fin nproc) :
    ((update k.procs p proc q).pos.holdsLk = true ↔ k.lock.lk = some q) ∧
      ((update k.procs p proc q).pos.holdsPtable = true ↔
        k.ptableLock = some (.proc q)) := by
  induction q using update_cases with
  | own =>
    rw [lk, ptable]
    exact ⟨inv.lk p, inv.ptable p⟩
  | others q _ => exact ⟨inv.lk q, inv.ptable q⟩

theorem Inv.alone (inv : Inv k) (holds : (k.procs p).pos.holdsLk = true) (different : q ≠ p) :
    (k.procs q).pos.holdsLk = false := by
  have holder := (inv.lk p).mp holds
  cases other : (k.procs q).pos.holdsLk with
  | false => rfl
  | true =>
    have holder' := (inv.lk q).mp other
    rw [holder] at holder'
    exact absurd (Option.some.inj holder').symm different

theorem Inv.fine_update (inv : Inv k) (holds : (k.procs p).pos.holdsLk = true) {locked : Bool}
    (fine : proc.Fine (Injective k.pid) locked) (q : Fin nproc) :
    (update k.procs p proc q).Fine (Injective k.pid) locked := by
  induction q using update_cases with
  | own => exact fine
  | others q different => exact (inv.fine q).away (inv.alone holds different)

theorem setLocked_inv (inv : Inv k) (here : (k.procs p).pos = .acquiresleep .setLocked) :
    Inv ({ k with lock.locked := true }.setProc p
      { k.procs p with pos := .acquiresleep .setPid, owns := true }) := by
  have unlocked : k.lock.locked = false := by
    have fine := inv.fine p
    rwa [Proc.Fine, here] at fine
  have nobody : ∀ q, (k.procs q).owns = false := by
    intro q
    have none : ¬ (k.procs q).owns = true := by
      intro owns
      have locked := inv.owned.mpr ⟨q, owns⟩
      rw [unlocked] at locked
      cases locked
    exact Bool.eq_false_iff.mpr none
  have only : ∀ q, (update k.procs p
      { k.procs p with pos := .acquiresleep .setPid, owns := true } q).owns = true → q = p := by
    intro q owns
    by_contra different
    rw [update_of_ne different, nobody] at owns
    cases owns
  have holders := inv.holders p { k.procs p with pos := .acquiresleep .setPid, owns := true }
    (by rw [here]; rfl) (by rw [here]; rfl)
  constructor
  case lk => exact fun q => (holders q).1
  case ptable => exact fun q => (holders q).2
  case unique =>
    intro q r ownsQ ownsR
    rw [only q ownsQ, only r ownsR]
  case owned =>
    refine iff_of_true rfl ⟨p, ?_⟩
    simp [Kernel.setProc]
  case pid =>
    intro q owns notSetPid
    obtain rfl := only q owns
    simp only [Kernel.setProc, update_self, ne_eq, not_true_eq_false] at notSetPid
  case fine => exact inv.fine_update (by rw [here]; rfl) rfl
  case waiting => exact fun _ _ => .inl rfl

theorem clearLocked_inv (inv : Inv k) (here : (k.procs p).pos = .releasesleep .clearLocked) :
    Inv ({ k with lock.locked := false }.setProc p
      { k.procs p with pos := .releasesleep .clearPid, owns := false }) := by
  have owner : (k.procs p).owns = true := by
    have fine := inv.fine p
    rwa [Proc.Fine, here] at fine
  have nobody : ∀ q, (update k.procs p
      { k.procs p with pos := .releasesleep .clearPid, owns := false } q).owns ≠ true := by
    intro q owns
    induction q using update_cases with
    | own => cases owns
    | others q same => exact same (inv.unique q p owns owner)
  have holders := inv.holders p { k.procs p with pos := .releasesleep .clearPid, owns := false }
    (by rw [here]; rfl) (by rw [here]; rfl)
  constructor
  case lk => exact fun q => (holders q).1
  case ptable => exact fun q => (holders q).2
  case unique => exact fun q _ owns => absurd owns (nobody q)
  case owned => exact iff_of_false Bool.false_ne_true fun ⟨q, owns⟩ => nobody q owns
  case pid => exact fun q owns => absurd owns (nobody q)
  case fine => exact inv.fine_update (by rw [here]; rfl) rfl
  case waiting =>
    -- the whole `wakeup` is ahead
    intro q _
    refine .inr ⟨p, ?_⟩
    simp [Kernel.setProc, Pos.owes]

theorem Inv.assignsPid (inv : Inv k) {before : Pos} (here : (k.procs p).pos = before)
    {pid : Int32} (isPid : ∀ q, (k.procs q).owns = true → pid = k.pid q)
    (lk : pos.holdsLk = before.holdsLk) (ptable : pos.holdsPtable = before.holdsPtable)
    (fine : Proc.Fine { k.procs p with pos } (Injective k.pid) k.lock.locked)
    (awake : pos ≠ .acquiresleep (.sleep .setChan) ∧ pos ≠ .acquiresleep (.sleep .setState))
    (owes : ∀ q : Fin nproc, before.owes q = true → pos.owes q = true) :
    Inv ({ k with lock.pid := pid }.goto p pos) := by
  subst here
  have holders := inv.holders p { k.procs p with pos } lk ptable
  have owns := update_owns (k := k) (p := p) { k.procs p with pos } rfl
  constructor <;> simp [Kernel.goto, Kernel.setProc]
  case lk => exact fun q => (holders q).1
  case ptable => exact fun q => (holders q).2
  case unique =>
    intro q r
    rw [owns, owns]
    exact inv.unique q r
  case owned =>
    simp only [owns]
    exact inv.owned
  case pid =>
    intro q isOwner _
    rw [owns] at isOwner
    exact isPid q isOwner
  case fine =>
    intro q
    induction q using update_cases with
    | own => exact fine
    | others q _ => exact inv.fine q
  case waiting =>
    intro q waits
    have waited : (k.procs q).Waits := by
      induction q using update_cases with
      | own => exact .inl (waits.resolve_right fun going => going.elim awake.1 awake.2)
      | others q _ => exact waits
    obtain locked | ⟨r, owed⟩ := inv.waiting q waited
    · exact .inl locked
    · refine .inr ⟨r, ?_⟩
      induction r using update_cases with
      | own => exact owes q owed
      | others r _ => exact owed

/-! ## `wakeup1` -/

theorem wake_pos (k : Kernel nproc) (q r : Fin nproc) :
    ((k.wake q).procs r).pos = (k.procs r).pos := by
  simp only [Kernel.wake, Kernel.setProc]
  induction r using update_cases with
  | own => rfl
  | others r _ => rfl

/-- `q` waits after `wakeup1` only if it is on its way to sleep. -/
theorem wake_waits (waits : ((k.wake q).procs q).Waits) :
    (k.procs q).pos = .acquiresleep (.sleep .setChan) ∨
      (k.procs q).pos = .acquiresleep (.sleep .setState) := by
  simp only [Proc.Waits, Kernel.wake, Kernel.setProc, update_self, Sleeper.wakeup1_chan] at waits
  obtain ⟨sleeping, isChan⟩ | onTheWay := waits
  · exact absurd isChan (Sleeper.asleep_of_wakeup1 sleeping).2
  · exact onTheWay

section

variable (inv : Inv k)
include inv

/-- A step that touches a process only in `state` and `chan`. -/
theorem Inv.touched (p : Fin nproc) (sleeper : Sleeper Chan)
    (asleep : sleeper.state = .sleeping → sleeper.chan = some .lk →
      (k.procs p).state = .sleeping ∧ (k.procs p).chan = some .lk) :
    Inv (k.setProc p { k.procs p with toSleeper := sleeper }) := by
  have passes : Passes k p { k.procs p with toSleeper := sleeper } := by
    refine ⟨rfl, id, ?_, ?_, fun _ _ owed => owed⟩
    · have fine := inv.fine p
      rwa [Proc.Fine] at fine
    · rintro (⟨sleeping, isChan⟩ | onTheWay)
      · exact .inl (.inl (asleep sleeping isChan))
      · exact .inl (.inr onTheWay)
  exact inv.stays rfl passes rfl rfl

theorem wake_inv (q : Fin nproc) : Inv (k.wake q) := by
  apply inv.touched q
  intro sleeping isChan
  rw [Sleeper.wakeup1_chan] at isChan
  exact ⟨(Sleeper.asleep_of_wakeup1 sleeping).1, isChan⟩

/-- Whoever is about to become `SLEEPING` holds `ptable.lock`, and the scan holds it now. -/
theorem scan_inv {i : Nat} (bound : i < nproc)
    (here : (k.procs p).pos = .releasesleep (.wakeup (.scan i))) :
    Inv ((k.wake ⟨i, bound⟩).goto p (.releasesleep (.wakeup (.scan (i + 1))))) := by
  have woken := wake_inv inv ⟨i, bound⟩
  have stillHere : ((k.wake ⟨i, bound⟩).procs p).pos = .releasesleep (.wakeup (.scan i)) := by
    rw [wake_pos, here]
  refine woken.stays stillHere (passes_goto stillHere nofun trivial nofun ?_) rfl rfl
  intro q waits owed
  have fromI : i ≤ q := of_decide_eq_true owed
  have notI : q ≠ ⟨i, bound⟩ := by
    rintro rfl
    have onTheWay := wake_waits waits
    have holder := (inv.ptable p).mp (by rw [here]; rfl)
    have holder' := (inv.ptable ⟨i, bound⟩).mp (by
      obtain pos | pos := onTheWay
      · rw [pos]; rfl
      · rw [pos]; rfl)
    rw [holder] at holder'
    obtain rfl : p = ⟨i, bound⟩ := Holder.proc.inj (Option.some.inj holder')
    rw [here] at onTheWay
    simp only [reduceCtorEq, or_self] at onTheWay
  have after : i ≠ q := fun same => notI (Fin.ext same.symm)
  exact decide_eq_true (by omega)

theorem wakeup_inv {pos : WakeupAt}
    (here : (k.procs p).pos = .releasesleep (.wakeup pos)) (taken : k.wakeup p pos = some next) :
    Inv next := by
  cases pos with
  | acquirePtable =>
    apply inv.takePtable here taken _ rfl rfl
    exact passes_goto here nofun trivial nofun fun q _ _ => decide_eq_true (Nat.zero_le q)
  | scan i =>
    simp only [Kernel.wakeup] at taken
    split at taken
    case isTrue bound =>
      cases taken
      exact scan_inv inv bound here
    case isFalse ended =>
      cases taken
      refine inv.stays here (passes_goto here nofun trivial nofun ?_) rfl rfl
      intro q _ owed
      have fromI : i ≤ q := of_decide_eq_true owed
      exact absurd (Nat.lt_of_le_of_lt fromI q.isLt) ended
  | releasePtable =>
    cases taken
    exact inv.dropPtable here (passes_goto here nofun trivial nofun nofun) rfl rfl rfl

/-! ## The three functions -/

theorem acquiresleep_inv {pos : AcquireAt}
    (here : (k.procs p).pos = .acquiresleep pos) (taken : k.acquiresleep p pos = some next) :
    Inv next := by
  have fine := inv.fine p
  rw [Proc.Fine, here] at fine
  cases pos with
  | acquire =>
    exact inv.takeLk here taken (passes_goto here nofun trivial nofun nofun) rfl rfl
  | test =>
    simp only [Kernel.acquiresleep] at taken
    split at taken
    case isTrue locked =>
      cases taken
      exact inv.stays here (passes_goto here nofun locked nofun nofun) rfl rfl
    case isFalse unlocked =>
      cases taken
      have free := Bool.eq_false_iff.mpr unlocked
      exact inv.stays here (passes_goto here nofun free nofun nofun) rfl rfl
  | sleep pos => exact sleep_inv inv here taken
  | setLocked =>
    cases taken
    exact setLocked_inv inv here
  | setPid =>
    cases taken
    refine inv.assignsPid here ?_ rfl rfl trivial ⟨nofun, nofun⟩ nofun
    intro q owns
    rw [inv.unique q p owns fine]
  | release =>
    cases taken
    exact inv.dropLk here (passes_goto here nofun trivial nofun nofun) rfl rfl rfl

theorem releasesleep_inv {pos : ReleaseAt}
    (here : (k.procs p).pos = .releasesleep pos) (taken : k.releasesleep p pos = some next) :
    Inv next := by
  have fine := inv.fine p
  rw [Proc.Fine, here] at fine
  cases pos with
  | acquire =>
    exact inv.takeLk here taken (passes_goto here nofun fine nofun nofun) rfl rfl
  | clearLocked =>
    cases taken
    exact clearLocked_inv inv here
  | clearPid =>
    cases taken
    refine inv.assignsPid here ?_ rfl rfl trivial ⟨nofun, nofun⟩ fun _ _ => rfl
    intro q owns
    have locked := inv.owned.mpr ⟨q, owns⟩
    rw [fine] at locked
    cases locked
  | wakeup pos => exact wakeup_inv inv here taken
  | release =>
    cases taken
    exact inv.dropLk here (passes_goto here nofun trivial nofun nofun) rfl rfl rfl

/-- The answer of `holdingsleep` is right when it is computed: whoever owns the lock has stored
its `pid`, because nobody else is between the two assignments. -/
theorem Inv.answer (here : (k.procs p).pos = .holdingsleep .test) (distinct : Injective k.pid) :
    (k.lock.locked && k.lock.pid = k.pid p) = (k.procs p).owns := by
  have stored : ∀ q, (k.procs q).owns = true → k.lock.pid = k.pid q := by
    intro q owns
    apply inv.pid q owns
    intro setPid
    have holder := (inv.lk p).mp (by rw [here]; rfl)
    have holder' := (inv.lk q).mp (by rw [setPid]; rfl)
    rw [holder] at holder'
    rw [← Option.some.inj holder', here] at setPid
    cases setPid
  rw [Bool.eq_iff_iff, Bool.and_eq_true, decide_eq_true_eq]
  constructor
  · intro ⟨locked, isPid⟩
    obtain ⟨q, owns⟩ := inv.owned.mp locked
    have same := (stored q owns).symm.trans isPid
    rw [← distinct same]
    exact owns
  · intro owns
    exact ⟨inv.owned.mpr ⟨p, owns⟩, stored p owns⟩

theorem holdingsleep_inv {pos : HoldingAt}
    (here : (k.procs p).pos = .holdingsleep pos) (taken : k.holdingsleep p pos = some next) :
    Inv next := by
  have fine := inv.fine p
  rw [Proc.Fine, here] at fine
  cases pos with
  | acquire =>
    exact inv.takeLk here taken (passes_goto here nofun trivial nofun nofun) rfl rfl
  | test =>
    cases taken
    exact inv.stays here (passes_goto here nofun (inv.answer here) nofun nofun) rfl rfl
  | release r =>
    cases taken
    exact inv.dropLk here (passes_goto here nofun fine nofun nofun) rfl rfl rfl
  | returns r =>
    cases taken
    exact inv.stays here (passes_goto here nofun trivial nofun nofun) rfl rfl

/-! ## Whole runs -/

theorem run_inv (taken : k.run p = some next) : Inv next := by
  unfold Kernel.run at taken
  split at taken
  · cases taken
  · exact acquiresleep_inv inv ‹_› taken
  · exact releasesleep_inv inv ‹_› taken
  · exact holdingsleep_inv inv ‹_› taken

theorem step_inv {label : Label nproc} (taken : step k label = some next) : Inv next := by
  cases label with
  | call p call =>
    obtain ⟨⟨idle, -, owner⟩, rfl⟩ := of_guard taken
    have outside : call.pos.holdsLk = false ∧ call.pos.holdsPtable = false := by
      cases call <;> exact ⟨rfl, rfl⟩
    refine inv.stays idle (passes_goto idle nofun ?_ ?_ nofun) outside.1 outside.2
    · cases call with
      | acquiresleep => exact trivial
      | releasesleep => exact owner rfl
      | holdingsleep => exact trivial
    · cases call <;> nofun
  | run p =>
    simp only [step, Option.ite_none_right_eq_some] at taken
    exact run_inv inv taken.2
  | kill p =>
    cases taken
    exact inv.touched p _ fun sleeping => absurd sleeping Sleeper.kill_awake
  | elsewhere p state =>
    obtain ⟨idle, rfl⟩ := of_guard taken
    exact inv.touched p ⟨state, some .other⟩ nofun
  | lockPtable =>
    obtain ⟨free, rfl⟩ := of_guard taken
    refine { inv with ptable := ?_ }
    intro p
    rw [inv.ptable p, free]
    exact iff_of_false nofun nofun
  | unlockPtable =>
    obtain ⟨held, rfl⟩ := of_guard taken
    refine { inv with ptable := ?_ }
    intro p
    rw [inv.ptable p, held]
    exact iff_of_false nofun nofun

end

theorem reachable_inv (reachable : (system nproc).Reachable k) : Inv k := by
  refine reachable.invariant inv_initial ?_
  intro state label next _ inv _ taken
  exact step_inv inv taken

/-- At most one process owns the lock, and once it is free and both spinlocks are, nobody is
left `SLEEPING` on it. -/
theorem sleeplock_safe (nproc : Nat) (k : Kernel nproc)
    (reachable : (system nproc).Reachable k) :
    (∀ p q, (k.procs p).owns = true → (k.procs q).owns = true → p = q) ∧
      (k.lock.lk = none → k.ptableLock = none → k.lock.locked = false →
        ∀ p, ¬ ((k.procs p).state = .sleeping ∧ (k.procs p).chan = some .lk)) := by
  have inv := reachable_inv reachable
  refine ⟨inv.unique, ?_⟩
  intro free _ unlocked p sleeps
  obtain locked | ⟨r, owes⟩ := inv.waiting p (.inl sleeps)
  · rw [unlocked] at locked
    cases locked
  · -- the wakeup is ahead of a process that holds `lk->lk`
    have holder := (inv.lk r).mp (Pos.holdsLk_of_owes owes)
    rw [free] at holder
    cases holder

def twoProcs : Kernel 2 where
  lock := ⟨none, false, 0⟩
  ptableLock := none
  procs _ := ⟨⟨.runnable, none⟩, .idle, false⟩
  pid p := .ofNat (p + 1)

theorem twoProcs_initial : Initial twoProcs :=
  ⟨rfl, rfl, rfl, rfl, fun _ => rfl, fun _ => nofun, fun _ => rfl⟩

/-- One process sleeps until the other gives the lock up. -/
theorem waiter_woken :
    ∃ k : Kernel 2, (system 2).Reachable k ∧
      ((k.procs 1).pos = .acquiresleep (.sleep .asleep) ∧ k.lock.lk = none ∧
        k.ptableLock = none ∧ k.lock.locked = false) ∧
      (∀ p q, (k.procs p).owns = true → (k.procs q).owns = true → p = q) ∧
      ∀ p, ¬ ((k.procs p).state = .sleeping ∧ (k.procs p).chan = some .lk) := by
  have ran : ∃ k ∈ (system 2).runWhen (fun _ _ => True) twoProcs
      (.call 0 .acquiresleep :: List.replicate 5 (.run 0) ++
        .call 1 .acquiresleep :: List.replicate 7 (.run 1) ++
        .call 0 .releasesleep :: List.replicate 9 (.run 0)),
      (k.procs 1).pos = .acquiresleep (.sleep .asleep) ∧ k.lock.lk = none ∧
        k.ptableLock = none ∧ k.lock.locked = false := by
    decide +kernel
  obtain ⟨k, reachable, ended⟩ := System.ReachableWhen.exists_of_runWhen (.init twoProcs_initial) ran
  obtain ⟨exclusive, awake⟩ := sleeplock_safe 2 k reachable
  exact ⟨k, reachable, ended, exclusive, awake ended.2.1 ended.2.2.1 ended.2.2.2⟩

/-- `holdingsleep` answers whether its caller owns the lock, as long as no two processes have
the same pid. -/
theorem holdingsleep_exact (reachable : (system nproc).Reachable k) (distinct : Injective k.pid)
    {r : Bool} (returns : (k.procs p).pos = .holdingsleep (.returns r)) :
    r = (k.procs p).owns := by
  have fine := (reachable_inv reachable).fine p
  rw [Proc.Fine, returns] at fine
  exact fine distinct

/-- One process has the lock, and both ask. -/
theorem holdingsleep_of_two : ∃ k : Kernel 2, (system 2).Reachable k ∧
    ((k.procs 0).pos = .holdingsleep (.returns true) ∧
      (k.procs 1).pos = .holdingsleep (.returns false)) ∧
    true = (k.procs 0).owns ∧ false = (k.procs 1).owns := by
  have ran : ∃ k ∈ (system 2).runWhen (fun _ _ => True) twoProcs
      (.call 0 .acquiresleep :: List.replicate 5 (.run 0) ++
        .call 0 .holdingsleep :: List.replicate 3 (.run 0) ++
        .call 1 .holdingsleep :: List.replicate 3 (.run 1)),
      ((k.procs 0).pos = .holdingsleep (.returns true) ∧
        (k.procs 1).pos = .holdingsleep (.returns false)) ∧
      ∀ p q, k.pid p = k.pid q → p = q := by
    decide +kernel
  obtain ⟨k, reachable, answers, distinct⟩ :=
    System.ReachableWhen.exists_of_runWhen (.init twoProcs_initial) ran
  exact ⟨k, reachable, answers, holdingsleep_exact reachable distinct answers.1,
    holdingsleep_exact reachable distinct answers.2⟩

end Laboratorio.Xv6.Sleeplocks
