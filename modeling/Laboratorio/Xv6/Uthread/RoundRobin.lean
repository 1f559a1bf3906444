import Laboratorio.Xv6.Uthread.Model

/-! # User-level threads are scheduled round robin

`thread_schedule` keeps the caller, switches to a `RUNNABLE` thread, or falls back to the
main thread when there is none.  The index moves around the table and cannot pass a
`RUNNABLE` thread that is not the caller, so between two selections of one thread every
other thread that waits all the time has its turn.
-/

namespace Laboratorio.Xv6.Uthread

open Laboratorio.Lib Function Threads

variable {t t' calling : Threads} {call : Call} {x y z : Slot}

/-! ## One call of `thread_schedule` -/

/-- The caller is kept, or a `RUNNABLE` thread is next, or there is none and the main
thread is next. -/
theorem nextThread_cases (t : Threads) :
    t.nextThread = t.currentThread ∨ t.allThread t.nextThread = .runnable ∨
      ((∀ slot, t.allThread slot ≠ .runnable) ∧ t.nextThread = main) := by
  simp only [nextThread]
  cases found : t.search with
  | some slot =>
    have passes := (scan_eq_some found).1
    rw [Bool.and_eq_true, decide_eq_true_eq] at passes
    exact .inr (.inl passes.1)
  | none =>
    simp only
    split
    case isTrue => exact .inl rfl
    case isFalse notRunnable =>
      refine .inr (.inr ⟨fun slot runnable => ?_, rfl⟩)
      -- the loop passes over a runnable thread only when it is the caller
      have fails := scan_eq_none found slot
      rw [Bool.and_eq_false_iff, decide_eq_false_iff_not, decide_eq_false_iff_not] at fails
      cases fails with
      | inl notRunnableSlot => exact notRunnableSlot runnable
      | inr isCaller =>
        rw [not_not] at isCaller
        exact notRunnable (isCaller ▸ runnable)

theorem threadSchedule_currentThread (t : Threads) :
    t.threadSchedule.currentThread = t.nextThread := by
  simp only [threadSchedule]
  split
  case isTrue => rfl
  case isFalse same => exact not_not.mp same

theorem threadSchedule_index (t : Threads) : t.threadSchedule.currentThreadIndex = t.nextIndex := by
  simp only [threadSchedule]
  split <;> rfl

/-- Only the thread that gets the processor changes its state. -/
theorem threadSchedule_allThread (t : Threads) (slot : Slot) :
    t.threadSchedule.allThread slot =
      if t.currentThread ≠ t.nextThread ∧ slot = t.nextThread then .running
      else t.allThread slot := by
  simp only [threadSchedule]
  by_cases switch : t.currentThread ≠ t.nextThread
  · by_cases isNext : slot = t.nextThread
    · subst isNext
      simp [switch, setState]
    · simp [switch, isNext, setState]
  · simp [switch]

/-- The search never selects the caller. -/
theorem search_ne_current (found : t.search = some z) : z ≠ t.currentThread := by
  have passes := (scan_eq_some found).1
  rw [Bool.and_eq_true, decide_eq_true_eq, decide_eq_true_eq] at passes
  exact passes.2

theorem threadSchedule_of_search (found : t.search = some z) :
    t.threadSchedule.currentThread = z ∧ t.threadSchedule.currentThreadIndex = z ∧
      t.threadSchedule.allThread z = .running := by
  have next : t.nextThread = z := by simp [nextThread, found]
  have index : t.nextIndex = z := by simp [nextIndex, found]
  refine ⟨by rw [threadSchedule_currentThread, next], by rw [threadSchedule_index, index], ?_⟩
  rw [threadSchedule_allThread, next]
  exact if_pos ⟨(search_ne_current found).symm, rfl⟩

/-! ## The running thread -/

/-- The main thread and the running thread always have their slots. -/
structure Occupied (t : Threads) : Prop where
  mainSlot : t.allThread main ≠ .free
  current : t.allThread t.currentThread ≠ .free

theorem occupied_threadInit : Occupied threadInit := by
  constructor <;> decide

/-- What `thread_schedule` needs of its caller: it falls back to the main thread. -/
theorem occupied_threadSchedule (mainStays : t.allThread main ≠ .free) :
    Occupied t.threadSchedule := by
  have kept : ∀ slot, t.allThread slot ≠ .free → t.threadSchedule.allThread slot ≠ .free := by
    intro slot occupied
    rw [threadSchedule_allThread]
    split
    · nofun
    · exact occupied
  refine ⟨kept main mainStays, ?_⟩
  rw [threadSchedule_currentThread]
  by_cases switch : t.currentThread ≠ t.nextThread
  · rw [threadSchedule_allThread, if_pos ⟨switch, rfl⟩]
    nofun
  · cases found : t.search with
    | some slot =>
      have next : t.nextThread = slot := by simp [nextThread, found]
      exact absurd (not_not.mp switch) (next ▸ (search_ne_current found).symm)
    | none =>
      apply kept
      simp only [nextThread, found]
      split
      case isTrue runnable =>
        rw [runnable]
        nofun
      case isFalse => exact mainStays

theorem Occupied.kept (inv : Occupied t) (permitted : MainStays t call)
    (taken : t.call call = some t') : Occupied t' := by
  simp only [Threads.call] at taken
  cases call with
  | threadCreate =>
    simp only [Threads.scheduling, Threads.threadCreate, Option.map_eq_some_iff] at taken
    obtain ⟨slot, _, equal⟩ := taken
    subst equal
    -- the new thread's slot is not free any more, the others are as before
    have kept : ∀ other, t.allThread other ≠ .free →
        (t.setState slot .runnable).allThread other ≠ .free := by
      intro other occupied
      simp only [Threads.setState, update_apply]
      split
      · nofun
      · exact occupied
    exact ⟨kept main inv.mainSlot, kept t.currentThread inv.current⟩
  | threadYield =>
    cases taken
    apply occupied_threadSchedule
    simp only [Threads.setState, update_apply]
    split
    · nofun
    · exact inv.mainSlot
  | threadExit =>
    cases taken
    apply occupied_threadSchedule
    have notMain : main ≠ t.currentThread := (permitted rfl).symm
    simp only [Threads.setState, update_of_ne notMain]
    exact inv.mainSlot
  | threadSchedule =>
    cases taken
    exact occupied_threadSchedule inv.mainSlot

/-- While the main thread stays, it and the running thread have their slots in every run. -/
theorem occupied_of_reachable (reachable : threads.ReachableWhen MainStays t) : Occupied t := by
  refine reachable.invariant ?_ ?_
  · intro _ start
    exact start ▸ occupied_threadInit
  · intro state call next _ inv permitted taken
    exact inv.kept permitted taken

/-! ## Turns -/

/-- A call leaves the state of a waiting thread alone, unless it selects the thread or
falls back to it. -/
theorem scheduling_allThread (calls : t.scheduling call = some calling)
    (other : y ≠ t.currentThread) : calling.allThread y = t.allThread y := by
  cases call with
  | threadCreate => cases calls
  | threadYield =>
    cases calls
    exact update_of_ne other ..
  | threadExit =>
    cases calls
    exact update_of_ne other ..
  | threadSchedule =>
    cases calls
    rfl

theorem scheduling_current (calls : t.scheduling call = some calling) :
    calling.currentThread = t.currentThread ∧
      calling.currentThreadIndex = t.currentThreadIndex := by
  cases call with
  | threadCreate => cases calls
  | threadYield => cases calls; exact ⟨rfl, rfl⟩
  | threadExit => cases calls; exact ⟨rfl, rfl⟩
  | threadSchedule => cases calls; exact ⟨rfl, rfl⟩

theorem call_of_selects (selected : t.selects call = some x) (taken : t.call call = some t') :
    t'.currentThread = x ∧ t'.currentThreadIndex = x ∧ t'.allThread x = .running := by
  simp only [Threads.selects, Option.bind_eq_some_iff] at selected
  obtain ⟨calling, calls, found⟩ := selected
  simp only [Threads.call, calls] at taken
  cases taken
  exact threadSchedule_of_search found

/-- While `y` waits, the index stays between `x` and `y`. -/
structure Waiting (x y : Slot) (t : Threads) : Prop where
  notRunning : y ≠ t.currentThread
  runnable : t.allThread y = .runnable
  ahead : (t.currentThreadIndex - x).val < (y - x).val

/-- Another thread that is selected lies between the index and `y`. -/
theorem Waiting.before (waiting : Waiting x y t) (selected : t.selects call = some z)
    (other : z ≠ y) :
    (t.currentThreadIndex - x).val < (z - x).val ∧ (z - x).val < (y - x).val := by
  simp only [selects, Option.bind_eq_some_iff] at selected
  obtain ⟨calling, calls, found⟩ := selected
  obtain ⟨sameCurrent, sameIndex⟩ := scheduling_current calls
  rw [search, sameIndex] at found
  apply scan_before waiting.ahead _ found other
  rw [scheduling_allThread calls waiting.notRunning, waiting.runnable, sameCurrent]
  simp [waiting.notRunning]

/-- So `x` does not have another turn before `y`. -/
theorem Waiting.not_selects (waiting : Waiting x y t) (different : y ≠ x) :
    t.selects call ≠ some x := by
  intro selected
  obtain ⟨further, _⟩ := waiting.before selected different.symm
  rw [sub_self] at further
  exact absurd further (Nat.not_lt_zero _)

theorem Waiting.kept (waiting : Waiting x y t) (taken : t.call call = some t')
    (notYet : t.selects call ≠ some y) (runnable : t'.allThread y = .runnable) : Waiting x y t' := by
  cases calls : t.scheduling call with
  | none =>
    -- a new thread: nobody is selected
    simp only [Threads.call, calls, Threads.threadCreate, Option.map_eq_some_iff] at taken
    obtain ⟨slot, _, equal⟩ := taken
    subst equal
    exact ⟨waiting.notRunning, runnable, waiting.ahead⟩
  | some calling =>
    cases found : calling.search with
    | none =>
      -- impossible: the search finds at least `y`
      have fails := scan_eq_none found y
      rw [scheduling_allThread calls waiting.notRunning, waiting.runnable,
        (scheduling_current calls).1] at fails
      simp [waiting.notRunning] at fails
    | some z =>
      have selected : t.selects call = some z := by simp [Threads.selects, calls, found]
      have other : z ≠ y := fun same => notYet (same ▸ selected)
      obtain ⟨runs, index, _⟩ := call_of_selects selected taken
      refine ⟨runs ▸ other.symm, runnable, ?_⟩
      rw [index]
      exact (waiting.before selected other).2

section Runs

variable (run : threads.Run MainStays)

/-- The thread that the search loop selects in step `k`. -/
def selected (run : threads.Run MainStays) (k : Nat) : Option Slot :=
  (run.state k).selects (run.label k)

/-- As long as `y` is not selected after `x` was, it waits. -/
theorem waiting_of_not_selected {first last : Nat} (bound : last < run.length)
    (start : selected run first = some x) (different : y ≠ x)
    (stays : ∀ k, first < k → k ≤ last → (∀ j, first < j → j < k → selected run j ≠ some y) →
      (run.state k).allThread y = .runnable)
    {k : Nat} (after : first < k) (before : k ≤ last)
    (notYet : ∀ j, first < j → j < k → selected run j ≠ some y) : Waiting x y (run.state k) := by
  -- by induction on the step, from the one after `first`
  induction k, after using Nat.le_induction with
  | base =>
    obtain ⟨runs, index, _⟩ := call_of_selects start (run.taken first (by omega))
    refine ⟨runs ▸ different, stays _ (by omega) before notYet, ?_⟩
    rw [index, sub_self]
    have nonzero : y - x ≠ 0 := sub_ne_zero.mpr different
    exact Nat.pos_of_ne_zero fun zero => nonzero (Fin.ext zero)
  | succ k after ih =>
    have waiting := ih (by omega) fun j afterFirst beforeK =>
      notYet j afterFirst (by omega)
    have next : selected run k ≠ some y := notYet k after (by omega)
    exact waiting.kept (run.taken k (by omega)) next (stays (k + 1) (by omega) before notYet)

/-- Between two selections of `x`, every other thread that is `RUNNABLE` until its turn
comes is selected. -/
theorem selected_between {first last : Nat} (bound : last < run.length) (order : first < last)
    (start : selected run first = some x) (again : selected run last = some x)
    (different : y ≠ x)
    (stays : ∀ k, first < k → k ≤ last → (∀ j, first < j → j < k → selected run j ≠ some y) →
      (run.state k).allThread y = .runnable) :
    ∃ k, first < k ∧ k < last ∧ selected run k = some y := by
  by_contra never
  have notYet : ∀ j, first < j → j < last → selected run j ≠ some y := fun j after before turn =>
    never ⟨j, after, before, turn⟩
  have waiting := waiting_of_not_selected run bound start different stays order (le_refl last) notYet
  exact waiting.not_selects different again

end Runs

/-- Every call of `thread_schedule` keeps the caller, switches to a `RUNNABLE` thread or,
when there is none, to the main thread; it never switches to another slot that is `FREE`;
and the turns go round. -/
theorem round_robin (run : threads.Run MainStays) :
    (∀ k < run.length, ∀ calling, (run.state k).scheduling (run.label k) = some calling →
      ((run.state (k + 1)).currentThread = (run.state k).currentThread ∨
        calling.allThread (run.state (k + 1)).currentThread = .runnable ∨
        ((∀ slot, calling.allThread slot ≠ .runnable) ∧
          (run.state (k + 1)).currentThread = main)) ∧
      ((run.state (k + 1)).currentThread ≠ (run.state k).currentThread →
        calling.allThread (run.state (k + 1)).currentThread = .free →
        (run.state (k + 1)).currentThread = main)) ∧
    (∀ first last x y, first < last → last < run.length → selected run first = some x →
      selected run last = some x → y ≠ x →
      (∀ k, first < k → k ≤ last → (∀ j, first < j → j < k → selected run j ≠ some y) →
        (run.state k).allThread y = .runnable) →
      ∃ k, first < k ∧ k < last ∧ selected run k = some y) := by
  constructor
  · intro k bound calling calls
    have taken := run.taken k bound
    simp only [threads, call, calls, Option.some.injEq] at taken
    rw [← taken, threadSchedule_currentThread, ← (scheduling_current calls).1]
    refine ⟨nextThread_cases calling, fun switch free => ?_⟩
    cases nextThread_cases calling with
    | inl kept => exact absurd kept switch
    | inr others =>
      cases others with
      | inl runnable =>
        rw [runnable] at free
        cases free
      | inr fallback => exact fallback.2
  · intro first last x y order bound start again different stays
    exact selected_between run bound order start again different stays

/-- The main thread creates two threads; then everyone yields. -/
def turnsLabel (k : Nat) : Call :=
  if k < 2 then .threadCreate else .threadYield

def turnsState : Nat → Threads
  | 0 => threadInit
  | k + 1 => ((turnsState k).call (turnsLabel k)).getD (turnsState k)

def turns : threads.Run MainStays where
  length := 6
  state := turnsState
  label := turnsLabel
  start := rfl
  permitted k _ exits := by
    simp only [turnsLabel] at exits
    split at exits <;> cases exits
  taken k bound := by
    have enabled : ∀ j < 6, ((turnsState j).call (turnsLabel j)).isSome = true := by decide +kernel
    obtain ⟨next, found⟩ := Option.isSome_iff_exists.mp (enabled k bound)
    simp [threads, turnsState, found]

theorem turns_occupied : (turns.state 4).currentThread = 2 ∧ Occupied (turns.state 4) :=
  ⟨by decide +kernel, occupied_of_reachable (turns.reachable (by decide))⟩

/-- Thread 1 is selected in step 2 and again in step 5, thread 2 in between. -/
theorem thread_two_has_its_turn :
    selected turns 2 = some 1 ∧ selected turns 5 = some 1 ∧
      ∃ k, 2 < k ∧ k < 5 ∧ selected turns k = some 2 := by
  have start : selected turns 2 = some 1 := by decide +kernel
  have again : selected turns 5 = some 1 := by decide +kernel
  have turn : selected turns 3 = some 2 := by decide +kernel
  refine ⟨start, again, (round_robin turns).2 2 5 1 2 (by omega) (by decide) start again (by decide) ?_⟩
  intro k after before notYet
  by_cases isThree : k = 3
  · subst isThree
    decide +kernel
  · exact absurd turn (notYet 3 (by omega) (by omega))

end Laboratorio.Xv6.Uthread
