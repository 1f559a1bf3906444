import Laboratorio.Lib.RunQueue
import Laboratorio.Xv6.Uthread.Program
import Laboratorio.Xv6.Uthread.RoundRobin

/-! # `uthread` runs its threads in rounds

The table of threads is a queue: the slots that `thread_schedule` can select, in the order
in which its loop meets them (`Threads.order`).  A call takes the front of that queue and
puts the caller, if it is still `RUNNABLE`, at the back (`order_threadSchedule`).  A machine
that runs `mythread` in several slots therefore serves a run queue (`Represents`, one lemma
for each step of the queue), which is served in rounds and ends in `main`.
-/

namespace Laboratorio.Xv6.Uthread

open Laboratorio.Lib Function List Threads Machine

/-! ## The table as a queue -/

/-- The test of the search loop. -/
def Threads.ready (t : Threads) (slot : Slot) : Bool :=
  decide (t.allThread slot = .runnable) && decide (slot ≠ t.currentThread)

/-- The threads that can be selected, in the order of the search. -/
def Threads.order (t : Threads) : List Slot :=
  (circle (t.currentThreadIndex + 1)).filter t.ready

theorem Threads.search_eq (t : Threads) : t.search = t.order.head? :=
  scan_eq_head t.ready _

theorem Threads.mem_order {t : Threads} {slot : Slot} (mem : slot ∈ t.order) :
    t.allThread slot = .runnable ∧ slot ≠ t.currentThread := by
  have passes := (mem_filter.mp mem).2
  simpa only [ready, Bool.and_eq_true, decide_eq_true_eq] using passes

theorem order_setState_current (t : Threads) (state : State) :
    (t.setState t.currentThread state).order = t.order := by
  apply filter_congr
  intro slot _
  by_cases same : slot = t.currentThread
  · simp [ready, setState, same]
  · simp [ready, setState, same]

/-- `thread_schedule` takes the front of the queue and puts the caller, when it can still
run, at the back. -/
theorem order_threadSchedule {t : Threads} {next : Slot} {waiting : List Slot}
    (aligned : t.currentThreadIndex = t.currentThread) (front : t.order = next :: waiting) :
    t.threadSchedule.order =
      waiting ++ if t.allThread t.currentThread = .runnable then [t.currentThread] else [] := by
  have found : t.search = some next := by rw [search_eq, front, head?_cons]
  obtain ⟨current, index, _⟩ := threadSchedule_of_search found
  have different : next ≠ t.currentThread := search_ne_current found
  -- the circle of the search: what it passes over, the thread selected, what lies behind
  obtain ⟨passed, behind, visited, skipped, _, later⟩ := filter_eq_cons_iff.mp front
  rw [aligned] at visited
  obtain ⟨between, isBetween⟩ := circle_behind different visited
  subst isBetween
  have distinct := nodup_circle (t.currentThread + 1)
  rw [visited] at distinct
  -- away from the caller and the thread selected, the test gives what it gave
  have same : ∀ slot, slot ≠ next → slot ≠ t.currentThread →
      t.threadSchedule.ready slot = t.ready slot := by
    intro slot notNext notCaller
    have isNext : t.nextThread = next := by simp [nextThread, found]
    simp [ready, threadSchedule_allThread, isNext, current, notNext, notCaller]
  have caller : t.threadSchedule.ready t.currentThread =
      decide (t.allThread t.currentThread = .runnable) := by
    have isNext : t.nextThread = next := by simp [nextThread, found]
    simp [ready, threadSchedule_allThread, current, different.symm]
  have selected : t.threadSchedule.ready next = false := by
    simp [ready, current]
  have callerFails : t.ready t.currentThread = false := by
    simp [ready]
  simp only [nodup_append, nodup_cons, mem_append, mem_cons,
    not_mem_nil, or_false] at distinct
  have keepBetween : between.filter t.threadSchedule.ready = between.filter t.ready := by
    apply filter_congr
    intro slot mem
    apply same slot
    · rintro rfl
      exact distinct.2.1.1 (.inl mem)
    · rintro rfl
      exact distinct.2.1.2.2.2 _ mem _ rfl rfl
  have keepPassed : passed.filter t.threadSchedule.ready = passed.filter t.ready := by
    apply filter_congr
    intro slot mem
    apply same slot
    · rintro rfl
      exact distinct.2.2 _ mem _ (.inl rfl) rfl
    · rintro rfl
      exact distinct.2.2 _ mem _ (.inr (.inr rfl)) rfl
  have nonePassed : passed.filter t.ready = [] := by
    rw [filter_eq_nil_iff]
    exact skipped
  have isWaiting : between.filter t.ready = waiting := by
    rw [← later]
    simp [callerFails]
  simp only [order, index]
  rw [circle_after visited]
  simp [keepBetween, keepPassed, nonePassed, isWaiting, filter_cons, selected, caller]

/-! ## Calls of the machine -/

variable {mach : Machine} {call : Call} {place : Place}

theorem enter_currentThread (mach : Machine) (call : Call) :
    (mach.enter call).currentThread = mach.threads.currentThread := by
  cases call <;> rfl

theorem enter_currentThreadIndex (mach : Machine) (call : Call) :
    (mach.enter call).currentThreadIndex = mach.threads.currentThreadIndex := by
  cases call <;> rfl

theorem order_enter (mach : Machine) (call : Call) :
    (mach.enter call).order = mach.threads.order := by
  cases call with
  | threadCreate => rfl
  | threadYield => exact order_setState_current _ _
  | threadExit => exact order_setState_current _ _
  | threadSchedule => rfl

theorem enter_allThread (call : Call) {slot : Slot} (other : slot ≠ mach.threads.currentThread) :
    (mach.enter call).allThread slot = mach.threads.allThread slot := by
  cases call <;> simp [enter, scheduling, setState, other]

@[simp] theorem schedule_threads :
    (mach.schedule call place).threads = (mach.enter call).threadSchedule := rfl

@[simp] theorem schedule_resume :
    (mach.schedule call place).resume = update mach.resume mach.threadId place := by
  simp only [schedule]
  split <;> rfl

@[simp] theorem schedule_created : (mach.schedule call place).created = mach.created := by
  simp only [schedule]
  split <;> rfl

@[simp] theorem schedule_writes : (mach.schedule call place).writes = mach.writes := by
  simp only [schedule]
  split <;> rfl

/-- The line that `thread_schedule` may print is not one of a loop body. -/
@[simp] theorem schedule_bodies : (mach.schedule call place).bodies = mach.bodies := by
  simp only [schedule, bodies]
  split
  · simp [print, goto]
  · rfl

/-! ## The machine as a run queue -/

/-- The first entry runs, the others wait in the table; each entry says which iteration of
`mythread` comes next in its slot. -/
structure Serving (mach : Machine) (running : Slot × Nat) (waiting : RunQueue Slot) : Prop where
  current : mach.threads.currentThread = running.1
  aligned : mach.threads.currentThreadIndex = running.1
  order : mach.threads.order = waiting.map Prod.fst
  places : ∀ entry ∈ running :: waiting,
    mach.resume entry.1 = .loop entry.2 ∨ (entry.2 = 0 ∧ mach.resume entry.1 = .start)
  mainState : mach.threads.allThread main = .running
  mainPlace : mach.resume main = .scheduled
  notMain : running.1 ≠ main

/-- An empty queue is served by `main`, after its call of `thread_schedule`. -/
inductive Represents (mach : Machine) : RunQueue Slot → Prop
  | returned : mach.threads.currentThread = main → mach.resume main = .scheduled →
      Represents mach []
  | serving {running : Slot × Nat} {waiting : RunQueue Slot} :
      Serving mach running waiting → Represents mach (running :: waiting)

/-- What the threads leave alone. -/
def SameRecord (mach mach' : Machine) : Prop :=
  mach'.created = mach.created ∧ mach'.writes = mach.writes

/-- The next thread is switched to, with the caller at the back of the queue when its own
state lets it run again. -/
theorem serving_schedule {next : Slot × Nat} {waiting back : RunQueue Slot}
    (aligned : mach.threads.currentThreadIndex = mach.threads.currentThread)
    (front : mach.threads.order = next.1 :: waiting.map Prod.fst)
    (last : (if (mach.enter call).allThread mach.threads.currentThread = .runnable
      then [mach.threads.currentThread] else []) = back.map Prod.fst)
    (places : ∀ entry ∈ next :: waiting ++ back,
      (mach.schedule call place).resume entry.1 = .loop entry.2 ∨
        (entry.2 = 0 ∧ (mach.schedule call place).resume entry.1 = .start))
    (mainState : (mach.enter call).allThread main = .running)
    (mainPlace : (mach.schedule call place).resume main = .scheduled) :
    Serving (mach.schedule call place) next (waiting ++ back) := by
  have entered : (mach.enter call).order = next.1 :: waiting.map Prod.fst := by
    rw [order_enter, front]
  have found : (mach.enter call).search = some next.1 := by
    rw [search_eq, entered, head?_cons]
  obtain ⟨current, index, _⟩ := threadSchedule_of_search found
  have runnable := (mem_order (entered ▸ mem_cons_self)).1
  have notMain : next.1 ≠ main := by
    intro isMain
    rw [isMain, mainState] at runnable
    cases runnable
  refine ⟨current, index, ?_, places, ?_, mainPlace, notMain⟩
  · have enteredAligned : (mach.enter call).currentThreadIndex = (mach.enter call).currentThread := by
      rw [enter_currentThreadIndex, enter_currentThread, aligned]
    rw [schedule_threads, order_threadSchedule enteredAligned entered, enter_currentThread,
      last, map_append]
  · rw [schedule_threads, threadSchedule_allThread, if_neg, mainState]
    rintro ⟨_, isNext⟩
    apply notMain
    rw [isNext, ← threadSchedule_currentThread, current]

namespace Serving

variable {running : Slot × Nat} {waiting : RunQueue Slot} {numthreads numexecs : Nat}

section

variable (serving : Serving mach running waiting) {entry : Slot × Nat}
include serving

theorem waiting_ne (mem : entry ∈ waiting) : entry.1 ≠ running.1 := by
  have inOrder : entry.1 ∈ mach.threads.order := by
    rw [serving.order]
    exact mem_map_of_mem mem
  rw [← serving.current]
  exact (mem_order inOrder).2

theorem reaches_loop (reachable : (uthread numthreads numexecs).Reachable mach) :
    ∃ mach', (uthread numthreads numexecs).Reachable mach' ∧
      Serving mach' running waiting ∧ mach'.resume running.1 = .loop running.2 ∧
      mach'.bodies = mach.bodies ∧ SameRecord mach mach' := by
  rcases serving.places running mem_cons_self with atLoop | ⟨first, atStart⟩
  · exact ⟨mach, reachable, serving, atLoop, rfl, rfl, rfl⟩
  · let mach' := (mach.print (.started mach.threadId)).goto (.loop 0)
    have taken : mach.step numthreads numexecs = some mach' := by
      simp only [step, threadId, serving.current, atStart]
      simp [mach', threadId, serving.current]
    have resume : mach'.resume = update mach.resume running.1 (.loop 0) := by
      simp [mach', goto, print, threadId, serving.current]
    refine ⟨mach', .step () reachable trivial taken, ?_, ?_, ?_, rfl, rfl⟩
    · refine ⟨serving.current, serving.aligned, serving.order, ?_, serving.mainState, ?_,
        serving.notMain⟩
      · intro entry mem
        rw [resume]
        rcases mem_cons.mp mem with isRunning | isWaiting
        · subst isRunning
          exact .inl (by rw [update_self, first])
        · rw [update_of_ne (serving.waiting_ne isWaiting)]
          exact serving.places entry mem
      · rw [resume, update_of_ne serving.notMain.symm, serving.mainPlace]
    · rw [resume, update_self, first]
    · simp [mach', bodies, goto, print]

/-- The places of the threads that wait are kept by the caller's call. -/
theorem places_schedule (call : Call) (place : Place) (mem : entry ∈ waiting) :
    (mach.schedule call place).resume entry.1 = .loop entry.2 ∨
      (entry.2 = 0 ∧ (mach.schedule call place).resume entry.1 = .start) := by
  rw [schedule_resume, threadId, serving.current,
    update_of_ne (serving.waiting_ne mem)]
  exact serving.places entry (mem_cons_of_mem _ mem)

theorem mainPlace_schedule (call : Call)
    (place : Place) : (mach.schedule call place).resume main = .scheduled := by
  rw [schedule_resume, threadId, serving.current,
    update_of_ne serving.notMain.symm, serving.mainPlace]

theorem mainState_enter (call : Call) : (mach.enter call).allThread main = .running := by
  rw [enter_allThread call (by rw [serving.current]; exact serving.notMain.symm),
    serving.mainState]

theorem print (line : Line) : Serving (mach.print line) running waiting :=
  ⟨serving.current, serving.aligned, serving.order, serving.places, serving.mainState,
    serving.mainPlace, serving.notMain⟩

theorem yield (i : Nat) :
    Represents (mach.schedule .threadYield (.loop i)) (waiting ++ [(running.1, i)]) := by
  have itself : (mach.enter .threadYield).allThread running.1 = .runnable := by
    simp [enter, scheduling, setState, serving.current]
  have atLoop : (mach.schedule .threadYield (.loop i)).resume running.1 = .loop i := by
    rw [schedule_resume, threadId, serving.current, update_self]
  cases waiting with
  | nil =>
    -- no other thread can run: the caller goes on, with its state still `RUNNABLE`
    have nobody : (mach.enter .threadYield).search = none := by
      rw [search_eq, order_enter, serving.order]
      rfl
    have next : (mach.enter .threadYield).nextThread = running.1 := by
      simp [nextThread, nobody, enter_currentThread, serving.current, itself]
    have same : (mach.enter .threadYield).threadSchedule = mach.enter .threadYield := by
      have stays : ¬ (mach.enter .threadYield).currentThread ≠
          (mach.enter .threadYield).nextThread := by
        rw [next, enter_currentThread, serving.current, not_not]
      simp [threadSchedule, if_neg stays, nextIndex, nobody]
    refine .serving ⟨?_, ?_, ?_, ?_, ?_, serving.mainPlace_schedule _ _, serving.notMain⟩
    · rw [schedule_threads, same, enter_currentThread, serving.current]
    · rw [schedule_threads, same, enter_currentThreadIndex, serving.aligned]
    · rw [schedule_threads, same, order_enter, serving.order]
    · intro entry mem
      rw [mem_singleton.mp mem]
      exact .inl atLoop
    · rw [schedule_threads, same]
      exact serving.mainState_enter _
  | cons next rest =>
    refine .serving (serving_schedule ?_ serving.order ?_ ?_ (serving.mainState_enter _)
      (serving.mainPlace_schedule _ _))
    · rw [serving.aligned, serving.current]
    · rw [serving.current, if_pos itself]
      rfl
    · intro entry mem
      rcases mem_append.mp mem with isWaiting | isCaller
      · exact serving.places_schedule _ _ isWaiting
      · rw [mem_singleton.mp isCaller]
        exact .inl atLoop

/-- An exit removes the running thread; the last one to leave returns to `main`. -/
theorem exit : Represents (mach.schedule .threadExit .ended) waiting := by
  have itself : (mach.enter .threadExit).allThread running.1 = .free := by
    simp [enter, scheduling, setState, serving.current]
  cases waiting with
  | nil =>
    have nobody : (mach.enter .threadExit).search = none := by
      rw [search_eq, order_enter, serving.order]
      rfl
    have next : (mach.enter .threadExit).nextThread = main := by
      simp [nextThread, nobody, enter_currentThread, serving.current, itself]
    refine .returned ?_ (serving.mainPlace_schedule _ _)
    rw [schedule_threads, threadSchedule_currentThread, next]
  | cons next rest =>
    have switched : Serving (mach.schedule .threadExit .ended) next (rest ++ []) := by
      refine serving_schedule ?_ serving.order ?_ ?_ (serving.mainState_enter _)
        (serving.mainPlace_schedule _ _)
      · rw [serving.aligned, serving.current]
      · rw [serving.current, itself]
        rfl
      · intro entry mem
        rw [append_nil] at mem
        exact serving.places_schedule _ _ mem
    rw [append_nil] at switched
    exact .serving switched

end

end Serving

/-! ## Whole runs -/

variable {numthreads numexecs : Nat}

/-- A machine that represents a queue runs on until the queue has been served. -/
theorem Represents.run {queue : RunQueue Slot} {trace : List (Slot × Nat)}
    (serves : Serves numexecs queue trace) {mach : Machine} (represents : Represents mach queue)
    (reachable : (uthread numthreads numexecs).Reachable mach) :
    ∃ final, (uthread numthreads numexecs).Reachable final ∧ Represents final [] ∧
      final.bodies = mach.bodies ++ trace ∧ SameRecord mach final := by
  induction serves generalizing mach with
  | done => exact ⟨mach, reachable, represents, by simp, rfl, rfl⟩
  | @turn job had rest trace before _ ih =>
    cases represents with
    | serving serving =>
      obtain ⟨ready, readyReachable, serving, atLoop, bodies, record⟩ :=
        serving.reaches_loop reachable
      have taken : ready.step numthreads numexecs =
          some ((ready.print (.body job had)).schedule .threadYield (.loop (had + 1))) := by
        simp [Machine.step, Machine.threadId, serving.current, atLoop, before]
      obtain ⟨final, finalReachable, returned, finalBodies, finalRecord⟩ :=
        ih ((serving.print (.body job had)).yield (had + 1))
          (.step () readyReachable trivial taken)
      refine ⟨final, finalReachable, returned, ?_, ?_⟩
      · rw [finalBodies, schedule_bodies, ← bodies]
        simp [Machine.bodies, Machine.print]
      · simp only [SameRecord, schedule_created, schedule_writes] at finalRecord
        exact ⟨finalRecord.1.trans record.1, finalRecord.2.trans record.2⟩
  | @leave job rest trace _ ih =>
    cases represents with
    | serving serving =>
      obtain ⟨ready, readyReachable, serving, atLoop, bodies, record⟩ :=
        serving.reaches_loop reachable
      have taken : ready.step numthreads numexecs =
          some ((ready.print (.ended job)).schedule .threadExit .ended) := by
        simp [Machine.step, Machine.threadId, serving.current, atLoop]
      obtain ⟨final, finalReachable, returned, finalBodies, finalRecord⟩ :=
        ih (serving.print (.ended job)).exit
          (.step () readyReachable trivial taken)
      refine ⟨final, finalReachable, returned, ?_, ?_⟩
      · rw [finalBodies, schedule_bodies, ← bodies]
        simp [Machine.bodies, Machine.print]
      · simp only [SameRecord, schedule_created, schedule_writes] at finalRecord
        exact ⟨finalRecord.1.trans record.1, finalRecord.2.trans record.2⟩

/-! ## The loop of `main` -/

/-- The first `k` slots after the one of `main`. -/
def firstSlots (k : Nat) : List Slot :=
  (List.range k).map fun i => Fin.ofNat maxThread (i + 1)

/-- The states after `k` threads have been created. -/
def statesAfter (k : Nat) (slot : Slot) : State :=
  if slot = main then .running else if slot.val ≤ k then .runnable else .free

/-- `main` before its test `k < numthreads`. -/
structure Creating (mach : Machine) (k : Nat) : Prop where
  current : mach.threads.currentThread = main
  aligned : mach.threads.currentThreadIndex = main
  states : mach.threads.allThread = statesAfter k
  mainPlace : mach.resume main = .creating k
  places : ∀ slot ∈ firstSlots k, mach.resume slot = .start
  created : mach.created = firstSlots k
  inTable : ∀ write ∈ mach.writes, write.InTable
  noBodies : mach.bodies = []

theorem creating_start : Creating .start 0 := by
  refine ⟨rfl, rfl, ?_, rfl, ?_, rfl, ?_, rfl⟩
  · funext slot
    revert slot
    decide
  · intro slot mem
    exact absurd mem not_mem_nil
  · intro write mem
    exact absurd mem not_mem_nil

/-- The search for a free slot ends at the slot behind those in use. -/
theorem find_free : ∀ k < 7,
    (List.finRange maxThread).find? (fun slot => decide (statesAfter k slot = .free)) =
      some (Fin.ofNat maxThread (k + 1)) := by
  decide

theorem firstSlots_succ (k : Nat) :
    firstSlots (k + 1) = firstSlots k ++ [Fin.ofNat maxThread (k + 1)] := by
  simp [firstSlots, range_succ]

theorem nodup_firstSlots : ∀ k ≤ 7, (firstSlots k).Nodup ∧ main ∉ firstSlots k := by
  decide

theorem statesAfter_succ : ∀ k < 7, ∀ slot : Slot,
    update (statesAfter k) (Fin.ofNat maxThread (k + 1)) .runnable slot =
      statesAfter (k + 1) slot := by
  decide

theorem order_statesAfter : ∀ k ≤ 7,
    (circle ((main : Slot) + 1)).filter
        (fun slot => decide (statesAfter k slot = .runnable) && decide (slot ≠ main)) =
      firstSlots k := by
  decide

namespace Creating

variable {k : Nat}

theorem freeSlot (creating : Creating mach k) (fits : k < 7) :
    mach.threads.freeSlot = some (Fin.ofNat maxThread (k + 1)) := by
  rw [Threads.freeSlot, creating.states]
  exact find_free k fits

theorem order (creating : Creating mach k) (fits : k ≤ 7) :
    mach.threads.order = firstSlots k := by
  have ready : mach.threads.ready = fun slot =>
      decide (statesAfter k slot = .runnable) && decide (slot ≠ main) := by
    funext slot
    rw [ready, creating.states, creating.current]
  rw [Threads.order, creating.aligned, ready]
  exact order_statesAfter k fits

theorem createWrites_inTable (creating : Creating mach k) (fits : k < 7) :
    ∀ write ∈ mach.threads.createWrites, write.InTable := by
  have index : mach.threads.createIndex = k + 1 := by
    simp only [createIndex, creating.freeSlot fits]
    exact Nat.mod_eq_of_lt (by simp only [maxThread]; omega)
  intro write mem
  simp only [createWrites, sizeofThread, stackSize, mem_cons,
    not_mem_nil, or_false] at mem
  simp only [Write.InTable, maxThread, sizeofThread, stackSize]
  rcases mem with isSp | isReturn | isState
  · subst isSp
    simp only
    omega
  · subst isReturn
    simp only
    omega
  · subst isState
    simp only
    omega

theorem create (creating : Creating mach k) (fits : k < 7) : Creating (mach.create k) (k + 1) := by
  have free := creating.freeSlot fits
  obtain ⟨distinct, notMain⟩ := nodup_firstSlots (k + 1) (by omega)
  rw [firstSlots_succ] at distinct notMain
  have newNotMain : main ≠ Fin.ofNat maxThread (k + 1) := by
    intro same
    exact notMain (by rw [mem_append, ← same]; exact .inr (mem_singleton.mpr rfl))
  have made : mach.create k =
      { mach with
        threads := mach.threads.setState (Fin.ofNat maxThread (k + 1)) .runnable
        resume := update (update mach.resume main (.creating (k + 1)))
          (Fin.ofNat maxThread (k + 1)) .start
        created := mach.created ++ [Fin.ofNat maxThread (k + 1)]
        writes := mach.writes ++ mach.threads.createWrites } := by
    simp [Machine.create, free, Machine.goto, Machine.threadId, creating.current]
  rw [made]
  refine ⟨creating.current, creating.aligned, ?_, ?_, ?_, ?_, ?_, creating.noBodies⟩
  · funext slot
    simp only [setState, creating.states]
    exact statesAfter_succ k fits slot
  · simp only [update_of_ne newNotMain, update_self]
  · intro slot mem
    simp only
    rw [firstSlots_succ, mem_append, mem_singleton] at mem
    by_cases isNew : slot = Fin.ofNat maxThread (k + 1)
    · rw [isNew, update_self]
    · have earlier := mem.resolve_right isNew
      have slotNotMain : slot ≠ main := by
        rintro rfl
        exact notMain (mem_append_left _ earlier)
      rw [update_of_ne isNew, update_of_ne slotNotMain]
      exact creating.places slot earlier
  · rw [firstSlots_succ, creating.created]
  · intro write mem
    rcases mem_append.mp mem with earlier | new
    · exact creating.inTable write earlier
    · exact creating.createWrites_inTable fits write new

/-- The loop comes to every number of threads that the table has room for. -/
theorem reached (numthreads numexecs : Nat) (fits : k ≤ 7) (bound : k ≤ numthreads) :
    ∃ mach, (uthread numthreads numexecs).Reachable mach ∧ Creating mach k := by
  induction k with
  | zero => exact ⟨.start, .init rfl, creating_start⟩
  | succ k ih =>
    obtain ⟨mach, reachable, creating⟩ := ih (by omega) (by omega)
    have more : k < numthreads := by omega
    have taken : mach.step numthreads numexecs = some (mach.create k) := by
      simp [step, threadId, creating.current, creating.mainPlace, more]
    exact ⟨_, .step () reachable trivial taken, creating.create (by omega)⟩

/-- The call of `thread_schedule` in `main` starts to serve the threads created. -/
theorem schedule (creating : Creating mach k) (fits : k ≤ 7) :
    Represents (mach.schedule .threadSchedule .scheduled)
      ((firstSlots k).map fun slot => (slot, 0)) := by
  have mainState : (mach.enter .threadSchedule).allThread main = .running := by
    simp only [enter, scheduling, Option.getD_some, creating.states]
    rfl
  have mainPlace : (mach.schedule .threadSchedule .scheduled).resume main = .scheduled := by
    rw [schedule_resume, threadId, creating.current, update_self]
  have order := creating.order fits
  have places : ∀ slot ∈ firstSlots k,
      (mach.schedule .threadSchedule .scheduled).resume slot = .start := by
    intro slot mem
    have notMain : slot ≠ main := by
      rintro rfl
      exact (nodup_firstSlots k fits).2 mem
    rw [schedule_resume, threadId, creating.current, update_of_ne notMain]
    exact creating.places slot mem
  cases slots : firstSlots k with
  | nil =>
    have nobody : (mach.enter .threadSchedule).search = none := by
      rw [search_eq, order_enter, order, slots]
      rfl
    refine .returned ?_ mainPlace
    rw [schedule_threads, threadSchedule_currentThread]
    simp [nextThread, nobody, enter_currentThread, creating.current]
  | cons next rest =>
    have switched : Serving (mach.schedule .threadSchedule .scheduled) (next, 0)
        ((rest.map fun slot => (slot, 0)) ++ []) := by
      refine serving_schedule ?_ ?_ ?_ ?_ mainState mainPlace
      · rw [creating.aligned, creating.current]
      · rw [order, slots]
        simp [comp_def]
      · rw [creating.current, mainState]
        rfl
      · intro entry mem
        have isFirst : entry.2 = 0 ∧ entry.1 ∈ firstSlots k := by
          have inSlots : entry ∈ (next :: rest).map fun slot => (slot, 0) := by
            simpa using mem
          rw [← slots, mem_map] at inSlots
          obtain ⟨slot, slotMem, isEntry⟩ := inSlots
          subst isEntry
          exact ⟨rfl, slotMem⟩
        exact .inr ⟨isFirst.1, places entry.1 isFirst.2⟩
    rw [append_nil] at switched
    exact .serving switched

end Creating

/-- The eighth thread finds no free slot, and `thread_create` writes behind the table. -/
theorem Creating.overruns (creating : Creating mach 7) :
    (mach.create 7).resume (mach.create 7).threadId = .overrun ∧
      ∃ write ∈ (mach.create 7).writes, ¬ write.InTable := by
  have full : mach.threads.freeSlot = none := by
    rw [Threads.freeSlot, creating.states]
    decide
  have made : mach.create 7 =
      { mach with writes := mach.writes ++ mach.threads.createWrites }.goto .overrun := by
    simp [Machine.create, full]
  rw [made]
  refine ⟨update_self .., ⟨maxThread * sizeofThread, 4⟩, ?_, by decide⟩
  show _ ∈ mach.writes ++ mach.threads.createWrites
  rw [mem_append, createWrites, createIndex, full]
  exact .inr mem_cons_self

/-- In the loop of `main`, or stopped in it. -/
def InLoop (mach : Machine) : Prop :=
  (∃ k ≤ 7, Creating mach k) ∨ mach.resume mach.threadId = .overrun

/-- With too many threads, the program does not leave the loop. -/
theorem inLoop_of_reachable (many : maxThread ≤ numthreads)
    (reachable : (uthread numthreads numexecs).Reachable mach) : InLoop mach := by
  refine reachable.invariant ?_ ?_
  · rintro _ rfl
    exact .inl ⟨0, Nat.zero_le _, creating_start⟩
  · intro state _ next _ inv _ taken
    obtain ⟨k, fits, creating⟩ | past := inv
    · have more : k < numthreads := Nat.lt_of_lt_of_le (Nat.lt_succ_of_le fits) many
      simp only [uthread, step, threadId, creating.current, creating.mainPlace, if_pos more] at taken
      cases taken
      obtain rfl | inside := Nat.eq_or_lt_of_le fits
      · exact .inr creating.overruns.1
      · exact .inl ⟨k + 1, inside, creating.create inside⟩
    · simp only [uthread, step, past] at taken
      cases taken

/-- The program creates its threads inside the table, runs their loop bodies in rounds in the
order of creation, each thread's exactly `numexecs` times, and comes back to `main` behind its
call of `thread_schedule`, exactly if there is a slot for every thread. -/
theorem threads_run_in_rounds (numthreads numexecs : Nat) :
    (∃ final, (uthread numthreads numexecs).Reachable final ∧
      final.threads.currentThread = main ∧ final.resume main = .scheduled ∧
      final.created.length = numthreads ∧ final.created.Nodup ∧
      (∀ write ∈ final.writes, write.InTable) ∧
      final.bodies = rounds final.created numexecs ∧
      ∀ slot ∈ final.created,
        (final.bodies.filter fun body => body.1 = slot).map Prod.snd = List.range numexecs) ↔
    numthreads < maxThread := by
  constructor
  · rintro ⟨final, reachable, current, place, -⟩
    refine Nat.lt_of_not_le fun many => ?_
    obtain ⟨k, -, creating⟩ | past := inLoop_of_reachable many reachable
    · cases place.symm.trans creating.mainPlace
    · rw [threadId, current, place] at past
      cases past
  intro fits
  have within : numthreads ≤ 7 := Nat.lt_succ_iff.mp fits
  obtain ⟨mach, reachable, creating⟩ :=
    Creating.reached numthreads numexecs within (Nat.le_refl numthreads)
  have taken : mach.step numthreads numexecs =
      some (mach.schedule .threadSchedule .scheduled) := by
    simp [step, threadId, creating.current, creating.mainPlace]
  obtain ⟨final, finalReachable, returned, bodies, created, writes⟩ :=
    (creating.schedule within).run (serves_rounds _ numexecs) (.step () reachable trivial taken)
  rw [schedule_created, creating.created] at created
  rw [schedule_writes] at writes
  rw [schedule_bodies, creating.noBodies, nil_append] at bodies
  have distinct := (nodup_firstSlots numthreads within).1
  cases returned with
  | returned current place =>
    refine ⟨final, finalReachable, current, place, ?_, ?_, ?_, ?_, ?_⟩
    · simp [created, firstSlots]
    · rw [created]
      exact distinct
    · rw [writes]
      exact creating.inTable
    · rw [bodies, created]
    · intro slot mem
      rw [created] at mem
      rw [bodies]
      exact rounds_filter distinct mem numexecs

theorem eighth_thread_overruns :
    ∃ mach, (uthread 8 1).Reachable mach ∧ ∃ write ∈ mach.writes, ¬ write.InTable := by
  obtain ⟨mach, reachable, creating⟩ :=
    Creating.reached (k := 7) 8 1 (by decide) (by decide)
  have taken : mach.step 8 1 = some (mach.create 7) := by
    simp [step, threadId, creating.current, creating.mainPlace]
  exact ⟨mach.create 7, .step () reachable trivial taken, creating.overruns.2⟩

end Laboratorio.Xv6.Uthread
