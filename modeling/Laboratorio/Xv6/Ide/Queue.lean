import Laboratorio.Xv6.Ide.Model

/-! # The queue of the disk driver

The requests that are not completed are the queue, in the order of the calls, and the drive works
on the first of them (`Shape`).  While somebody holds `idelock` one request may be outside the
queue, or the first one not started yet; `Phase` says which, from the position of the holder.
`Callers` relates the requests to the processes that wait for them.

The main result is `disk_queue_fifo`.
-/

namespace Laboratorio.Xv6.Ide

open Laboratorio.Lib Laboratorio.Lib.LinkedList Function Ide.Frame List Option Place

variable {frame : Frame} {taken queue extra : List BufId} {running : Option BufId} {pos : IderwAt}
  {ticket : Nat}

/-! ## The callers -/

/-- The call has got `idelock` at least once. -/
def IderwAt.entered : IderwAt → Bool
  | .check | .acquire => false
  | _ => true

def IderwAt.locked : IderwAt → Bool
  | .clearNext | .walk _ | .start | .test | .release => true
  | _ => false

def Frame.locked : Frame → Bool
  | .idle => false
  | .iderw _ _ pos => pos.locked

/-- The buffer and the place of a call that has got `idelock`. -/
def Frame.request : Frame → Option (BufId × Nat)
  | .idle => none
  | .iderw b ticket pos => if pos.entered then some (b, ticket) else none

theorem Frame.request_of_entered {b : BufId} (here : frame = .iderw b ticket pos)
    (entered : pos.entered = true) : frame.request = some (b, ticket) := by
  rw [here]
  exact if_pos entered

/-- Every request has its place in the order of the calls; those before `completed` are synced. -/
structure Callers (procs : Pid → Frame) (owner : BufId → Option Pid) (synced : BufId → Bool)
    (requested : List BufId) (completed : Nat) : Prop where
  waits : ∀ {p b ticket}, (procs p).request = some (b, ticket) →
    owner b = some p ∧ requested[ticket]? = some b ∧ (synced b = true ↔ ticket < completed)
  checked : ∀ {p b ticket}, procs p = .iderw b ticket .acquire →
    owner b = some p ∧ synced b = false
  leaving : ∀ {p b ticket}, procs p = .iderw b ticket .release → ticket < completed
  pending : ∀ {i b}, requested[i]? = some b → completed ≤ i →
    ∃ p, (procs p).request = some (b, i)

namespace Callers

variable {procs procs' : Pid → Frame} {owner : BufId → Option Pid} {synced : BufId → Bool}
  {requested : List BufId} {completed : Nat} {p : Pid} {b : BufId} {ticket : Nat}
  {pos pos' : IderwAt}

section

variable (callers : Callers procs owner synced requested completed) {synced' : BufId → Bool}
include callers

/-- The owner of a buffer that is requested is the one who waits for it. -/
theorem owner_waits {i : Nat} (asked : requested[i]? = some b) (waiting : completed ≤ i)
    (owns : owner b = some p) : (procs p).request = some (b, i) := by
  obtain ⟨q, asks⟩ := callers.pending asked waiting
  obtain rfl : p = q := some.inj (owns.symm.trans (callers.waits asks).1)
  exact asks

theorem nodup : (requested.drop completed).Nodup := by
  rw [nodup_iff_getElem?_ne_getElem?]
  intro i j before bound same
  rw [length_drop] at bound
  rw [getElem?_drop, getElem?_drop] at same
  have inside : completed + j < requested.length := by omega
  have value := getElem?_eq_getElem inside
  obtain ⟨q, asks⟩ := callers.pending value (by omega)
  have again := callers.owner_waits (same.trans value) (by omega) (callers.waits asks).1
  rw [asks, some.injEq, Prod.mk.injEq] at again
  omega

theorem owner_of_mem (member : b ∈ requested.drop completed) :
    ∃ q ticket, (procs q).request = some (b, ticket) ∧ owner b = some q := by
  obtain ⟨i, position⟩ := mem_iff_getElem?.mp member
  rw [getElem?_drop] at position
  obtain ⟨q, asks⟩ := callers.pending position (by omega)
  exact ⟨q, _, asks, (callers.waits asks).1⟩

theorem congr (request : ∀ q, (procs' q).request = (procs q).request)
    (checked : ∀ {q b ticket}, procs' q = .iderw b ticket .acquire →
      procs q = .iderw b ticket .acquire)
    (leaving : ∀ {q b ticket}, procs' q = .iderw b ticket .release → ticket < completed) :
    Callers procs' owner synced requested completed where
  waits asks := callers.waits (request _ ▸ asks)
  checked here := callers.checked (checked here)
  leaving := leaving
  pending := by
    simp only [request]
    exact callers.pending

theorem move (here : procs p = .iderw b ticket pos) (entered : pos.entered = true)
    (enters : pos'.entered = true) (leaves : pos' = .release → synced b = true) :
    Callers (update procs p (.iderw b ticket pos')) owner synced requested completed := by
  have asks := request_of_entered here entered
  apply callers.congr
  case request => exact update_congr ((request_of_entered rfl enters).trans asks.symm)
  case checked =>
    intro q c other qAt
    induction q using update_cases with
    | own =>
      rw [(iderw.inj qAt).2.2] at enters
      cases enters
    | others q _ => exact qAt
  case leaving =>
    intro q c other qAt
    induction q using update_cases with
    | own =>
      obtain ⟨rfl, rfl, last⟩ := iderw.inj qAt
      exact (callers.waits asks).2.2.mp (leaves last)
    | others q _ => exact callers.leaving qAt

theorem outside (before : ∀ b ticket, (procs p).request = some (b, ticket) → ticket < completed)
    (after : frame.request = none)
    (acquires : ∀ b ticket, frame = .iderw b ticket .acquire → owner b = some p ∧ synced b = false) :
    Callers (update procs p frame) owner synced requested completed where
  waits := by
    intro q c other asks
    induction q using update_cases with
    | own =>
      rw [after] at asks
      cases asks
    | others q _ => exact callers.waits asks
  checked := by
    intro q c other qAt
    induction q using update_cases with
    | own => exact acquires c other qAt
    | others q _ => exact callers.checked qAt
  leaving := by
    intro q c other qAt
    induction q using update_cases with
    | own => cases after.symm.trans (request_of_entered qAt rfl)
    | others q _ => exact callers.leaving qAt
  pending := by
    intro i c asked waiting
    obtain ⟨q, asks⟩ := callers.pending asked waiting
    have other : q ≠ p := by
      rintro rfl
      have := before c i asks
      omega
    exact ⟨q, by rw [update_of_ne other, asks]⟩

theorem enter (here : procs p = .iderw b ticket .acquire) (bound : completed ≤ requested.length) :
    Callers (update procs p (.iderw b requested.length .clearNext)) owner synced
      (requested ++ [b]) completed where
  waits := by
    intro q c other asks
    induction q using update_cases with
    | own =>
      cases asks
      obtain ⟨owns, unsynced⟩ := callers.checked here
      refine ⟨owns, getElem?_concat_length .., ?_⟩
      simp [unsynced]
      omega
    | others q _ =>
      obtain ⟨owns, asked, waiting⟩ := callers.waits asks
      have inside := (List.getElem?_eq_some_iff.mp asked).1
      exact ⟨owns, by rw [getElem?_append_left inside]; exact asked, waiting⟩
  checked := by
    intro q c other qAt
    induction q using update_cases with
    | own => cases (iderw.inj qAt).2.2
    | others q _ => exact callers.checked qAt
  leaving := by
    intro q c other qAt
    induction q using update_cases with
    | own => cases (iderw.inj qAt).2.2
    | others q _ => exact callers.leaving qAt
  pending := by
    intro i c asked waiting
    by_cases last : i < requested.length
    · rw [getElem?_append_left last] at asked
      obtain ⟨q, asks⟩ := callers.pending asked waiting
      have other : q ≠ p := by
        rintro rfl
        rw [here] at asks
        cases asks
      exact ⟨q, by rw [update_of_ne other, asks]⟩
    · have inside := (List.getElem?_eq_some_iff.mp asked).1
      rw [length_append, length_singleton] at inside
      have index : i = requested.length := by omega
      subst index
      rw [getElem?_concat_length] at asked
      cases asked
      exact ⟨p, by rw [update_self]; rfl⟩

theorem setBuf {owner' : BufId → Option Pid} (unowned : ∀ p, owner b = some p → procs p = .idle)
    (others : ∀ c, c ≠ b → owner' c = owner c ∧ synced' c = synced c) :
    Callers procs owner' synced' requested completed where
  waits := by
    intro q c other asks
    obtain ⟨owns, asked, waiting⟩ := callers.waits asks
    have away : c ≠ b := by
      rintro rfl
      rw [unowned q owns] at asks
      cases asks
    rw [(others c away).1, (others c away).2]
    exact ⟨owns, asked, waiting⟩
  checked := by
    intro q c other qAt
    obtain ⟨owns, unsynced⟩ := callers.checked qAt
    have away : c ≠ b := by
      rintro rfl
      rw [unowned q owns] at qAt
      cases qAt
    rw [(others c away).1, (others c away).2]
    exact ⟨owns, unsynced⟩
  leaving := callers.leaving
  pending := callers.pending

/-- The first request that is not completed becomes completed. -/
theorem complete (first : requested[completed]? = some b) (isSynced : synced' b = true)
    (others : ∀ c, c ≠ b → synced' c = synced c) :
    Callers procs owner synced' requested (completed + 1) where
  waits := by
    intro q c other asks
    obtain ⟨owns, asked, waiting⟩ := callers.waits asks
    refine ⟨owns, asked, ?_⟩
    by_cases same : c = b
    · subst same
      rw [callers.owner_waits first (Nat.le_refl _) owns, some.injEq, Prod.mk.injEq] at asks
      simp only [isSynced, true_iff]
      omega
    · have distinct : other ≠ completed := by
        rintro rfl
        exact same (some.inj (asked.symm.trans first))
      rw [others c same, waiting]
      omega
  checked := by
    intro q c other qAt
    obtain ⟨owns, unsynced⟩ := callers.checked qAt
    have away : c ≠ b := by
      rintro rfl
      have asks := callers.owner_waits first (Nat.le_refl _) owns
      rw [qAt] at asks
      cases asks
    exact ⟨owns, (others c away).trans unsynced⟩
  leaving qAt := Nat.lt_succ_of_lt (callers.leaving qAt)
  pending asked waiting := callers.pending asked (by omega)

end

theorem woken_cases (frame : Frame) (c : BufId) :
    frame.woken c = frame ∨ ∃ b ticket, frame = .iderw b ticket .asleep ∧
      frame.woken c = .iderw b ticket .reacquire := by
  cases frame with
  | idle => exact .inl rfl
  | iderw b ticket pos =>
    cases pos with
    | asleep =>
      simp only [woken]
      split
      · exact .inr ⟨b, ticket, rfl, rfl⟩
      · exact .inl rfl
    | _ => exact .inl rfl

theorem wakeup (callers : Callers procs owner synced requested completed) (c : BufId) :
    Callers (fun p => (procs p).woken c) owner synced requested completed := by
  have woken : ∀ {q b ticket pos}, (procs q).woken c = .iderw b ticket pos → pos ≠ .reacquire →
      procs q = .iderw b ticket pos := by
    intro q b ticket pos qAt other
    obtain same | ⟨d, i, -, wakes⟩ := woken_cases (procs q) c
    · exact same ▸ qAt
    · exact absurd (iderw.inj (wakes.symm.trans qAt)).2.2.symm other
  apply callers.congr
  case request =>
    intro q
    obtain same | ⟨d, i, asleep, wakes⟩ := woken_cases (procs q) c
    · rw [same]
    · rw [wakes, asleep]
      rfl
  case checked => exact fun qAt => woken qAt nofun
  case leaving => exact fun qAt => callers.leaving (woken qAt nofun)

end Callers

/-! ## The queue and the drive -/

/-- The requests that are not completed: one that `ideintr` has taken off the queue, the queue, and
one that is not in it yet.  `running` is the one whose command is outstanding. -/
structure Shape (k : Kernel) (taken queue extra : List BufId) (running : Option BufId) : Prop where
  linked : Linked k.qnext k.idequeue queue
  requested : k.requested = k.completed ++ (taken ++ queue ++ extra)
  started : k.started = k.completed ++ running.toList
  command : k.drive.command = running.map fun b => commandFor (k.bufs b)
  done : k.drive.done.isSome = true → k.drive.command.isSome = true
  runs : running.toList <+: taken ++ queue

theorem head?_toList_isPrefix (list : List BufId) : list.head?.toList <+: list := by
  cases list with
  | nil => exact nil_prefix
  | cons x rest => exact ⟨rest, rfl⟩

/-- The drive works on the head of the queue. -/
def Settled (k : Kernel) : Prop := ∃ queue, Shape k [] queue [] queue.head?

/-- What is different while `ideintr` is at work. -/
def IntrPhase (k : Kernel) : IntrAt → Prop
  | .look => Settled k ∧ (k.drive.done.isSome = true ∨ k.idequeue = none)
  | .read b | .complete b => ∃ queue, Shape k [b] queue [] (some b) ∧ k.drive.done.isSome = true
  | .wakeup _ | .startNext => ∃ queue, Shape k [] queue [] none
  | .release => Settled k

/-- What is different while a call of `iderw` holds the lock. -/
def ProcPhase (k : Kernel) (b : BufId) : IderwAt → Prop
  | .clearNext => ∃ queue, Shape k [] queue [b] queue.head?
  | .walk pp => ∃ front back, Shape k [] (front ++ back) [b] (front ++ back).head? ∧
      pp = Place.after front ∧ k.qnext b = none
  | .start => ∃ front, Shape k [] (front ++ [b]) [] front.head?
  | .test | .release => Settled k
  | _ => False

def Phase (k : Kernel) : Prop :=
  match k.lock with
  | none => Settled k
  | some .intr =>
    match k.intr with
    | none => False
    | some pos => IntrPhase k pos
  | some (.proc p) =>
    match k.procs p with
    | .idle => False
    | .iderw b _ pos => ProcPhase k b pos

/-- While the queue is not empty, the one interrupt that may wait is that of the command which has
been carried out. -/
def Kernel.Timely (k : Kernel) : Prop :=
  k.idequeue ≠ none → 0 < k.raised →
    k.raised = 1 ∧ k.drive.done.isSome = true ∧ (k.intr = none ∨ k.intr = some .release)

structure Inv (k : Kernel) : Prop where
  callers : Callers k.procs (fun b => (k.bufs b).owner) (fun b => (k.bufs b).synced) k.requested
    k.completed.length
  holder : ∀ p, k.lock = some (.proc p) ↔ (k.procs p).locked = true
  intr : k.lock = some .intr ↔ k.intr.isSome = true
  timely : k.Timely
  phase : Phase k

variable {k k' : Kernel} {p : Pid} {b : BufId}

theorem Initial.inv (initial : Initial k) : Inv k where
  callers :=
    { waits := by
        intro q c ticket here
        rw [initial.procs q] at here
        cases here
      checked := by
        intro q c ticket here
        rw [initial.procs q] at here
        cases here
      pending := by
        intro i c request
        simp only [initial.requested, getElem?_nil, reduceCtorEq] at request
      leaving := by
        intro q c ticket here
        rw [initial.procs q] at here
        cases here }
  holder q := by
    rw [initial.lock, initial.procs q]
    simp [locked]
  intr := by
    rw [initial.lock, initial.intr]
    simp
  timely nonempty := absurd initial.idequeue nonempty
  phase := by
    rw [Phase, initial.lock]
    refine ⟨[], initial.idequeue, ?_, ?_, initial.command, ?_, nil_prefix⟩
    · rw [initial.requested, initial.completed]
      rfl
    · rw [initial.started, initial.completed]
      rfl
    · rw [initial.done]
      nofun

/-! ## Steps that do not touch the queue -/

theorem Shape.pending (shape : Shape k taken queue extra running) :
    k.requested.drop k.completed.length = taken ++ queue ++ extra := by
  rw [shape.requested, drop_left]

/-- The parts of the kernel that `Shape` looks at. -/
structure SameQueue (k k' : Kernel) : Prop where
  idequeue : k'.idequeue = k.idequeue
  requested : k'.requested = k.requested
  started : k'.started = k.started
  completed : k'.completed = k.completed
  command : k'.drive.command = k.drive.command
  done : k'.drive.done.isSome = true → k.drive.done.isSome = true ∨ k'.drive.command.isSome = true
  bufs : ∀ b ∈ k.requested.drop k.completed.length, k'.bufs b = k.bufs b

theorem Shape.congr (shape : Shape k taken queue extra running) (same : SameQueue k k') :
    Shape k' taken queue extra running := by
  have bufs := same.bufs
  rw [shape.pending] at bufs
  refine ⟨?_, ?_, ?_, ?_, ?_, shape.runs⟩
  · rw [same.idequeue]
    apply shape.linked.congr
    intro x member
    rw [Kernel.qnext, bufs x (by simp [member])]
    rfl
  · rw [same.requested, same.completed]
    exact shape.requested
  · rw [same.started, same.completed]
    exact shape.started
  · rw [same.command, shape.command]
    cases running with
    | none => rfl
    | some b =>
      have member : b ∈ taken ++ queue ++ extra :=
        mem_append_left _ (shape.runs.subset (mem_singleton_self b))
      rw [map_some, map_some, bufs b member]
  · intro finished
    rcases same.done finished with before | there
    · rw [same.command]
      exact shape.done before
    · exact there

theorem Settled.congr (settled : Settled k) (same : SameQueue k k') : Settled k' := by
  obtain ⟨queue, shape⟩ := settled
  exact ⟨queue, shape.congr same⟩

theorem IntrPhase.congr {pos : IntrAt} (phase : IntrPhase k pos) (same : SameQueue k k')
    (done : k.drive.done.isSome = true → k'.drive.done.isSome = true) : IntrPhase k' pos := by
  cases pos with
  | look =>
    refine ⟨phase.1.congr same, ?_⟩
    rw [same.idequeue]
    exact phase.2.imp_left done
  | read b =>
    obtain ⟨queue, shape, finished⟩ := phase
    exact ⟨queue, shape.congr same, done finished⟩
  | complete b =>
    obtain ⟨queue, shape, finished⟩ := phase
    exact ⟨queue, shape.congr same, done finished⟩
  | wakeup b =>
    obtain ⟨queue, shape⟩ := phase
    exact ⟨queue, shape.congr same⟩
  | startNext =>
    obtain ⟨queue, shape⟩ := phase
    exact ⟨queue, shape.congr same⟩
  | release => exact Settled.congr phase same

theorem ProcPhase.congr (phase : ProcPhase k b pos) (same : SameQueue k k') :
    ProcPhase k' b pos := by
  cases pos with
  | clearNext =>
    obtain ⟨queue, shape⟩ := phase
    exact ⟨queue, shape.congr same⟩
  | walk pp =>
    obtain ⟨front, back, shape, place, ends⟩ := phase
    have member : b ∈ k.requested.drop k.completed.length := by
      rw [shape.pending]
      exact mem_append_right _ (mem_singleton_self b)
    refine ⟨front, back, shape.congr same, place, ?_⟩
    rw [Kernel.qnext, same.bufs b member]
    exact ends
  | start =>
    obtain ⟨front, shape⟩ := phase
    exact ⟨front, shape.congr same⟩
  | test => exact Settled.congr phase same
  | release => exact Settled.congr phase same
  | check => exact phase
  | acquire => exact phase
  | asleep => exact phase
  | reacquire => exact phase

theorem Phase.congr (phase : Phase k) (same : SameQueue k k') (lock : k'.lock = k.lock)
    (intr : k'.intr = k.intr) (done : k.drive.done.isSome = true → k'.drive.done.isSome = true)
    (procs : ∀ p, k.lock = some (.proc p) → k'.procs p = k.procs p) : Phase k' := by
  rw [Phase] at phase ⊢
  rw [lock]
  cases held : k.lock with
  | none =>
    rw [held] at phase
    exact Settled.congr phase same
  | some holder =>
    rw [held] at phase
    cases holder with
    | intr =>
      rw [intr]
      cases at_ : k.intr with
      | none =>
        rw [at_] at phase
        exact phase
      | some pos =>
        rw [at_] at phase
        exact IntrPhase.congr phase same done
    | proc p =>
      simp only at phase ⊢
      rw [procs p held]
      cases here : k.procs p with
      | idle =>
        rw [here] at phase
        exact phase
      | iderw b ticket pos =>
        rw [here] at phase
        exact ProcPhase.congr phase same

theorem Inv.setBuf (inv : Inv k) (buf : Buf)
    (unowned : ∀ p, (k.bufs b).owner = some p → k.procs p = .idle) : Inv (k.setBuf b buf) where
  callers := by
    apply inv.callers.setBuf unowned
    intro c other
    simp [Kernel.setBuf, update_of_ne other]
  holder := inv.holder
  intr := inv.intr
  timely := inv.timely
  phase := by
    refine inv.phase.congr ⟨rfl, rfl, rfl, rfl, rfl, .inl, ?_⟩ rfl rfl id fun _ _ => rfl
    intro c member
    have other : c ≠ b := by
      rintro rfl
      obtain ⟨q, ticket, here, owns⟩ := inv.callers.owner_of_mem member
      rw [unowned q owns] at here
      cases here
    simp [Kernel.setBuf, update_of_ne other]

/-- One frame changes, and perhaps the holder of the lock. -/
theorem Inv.holder_update (inv : Inv k) {lock : Option Holder}
    (own : lock = some (.proc p) ↔ frame.locked = true)
    (others : ∀ q, q ≠ p → (lock = some (.proc q) ↔ k.lock = some (.proc q))) (q : Pid) :
    lock = some (.proc q) ↔ (update k.procs p frame q).locked = true := by
  induction q using update_cases with
  | own => exact own
  | others q other => exact (others q other).trans (inv.holder q)

theorem Inv.goto (inv : Inv k) (before : (k.procs p).locked = false) (after : frame.locked = false)
    (callers : Callers (update k.procs p frame) (fun b => (k.bufs b).owner)
      (fun b => (k.bufs b).synced) k.requested k.completed.length) : Inv (k.goto p frame) where
  callers := callers
  holder := inv.holder_update ((inv.holder p).trans (by rw [before, after])) fun _ _ => .rfl
  intr := inv.intr
  timely := inv.timely
  phase := by
    refine inv.phase.congr ⟨rfl, rfl, rfl, rfl, rfl, .inl, fun _ _ => rfl⟩ rfl rfl id ?_
    intro q held
    have other : q ≠ p := by
      rintro rfl
      rw [inv.holder q, before] at held
      cases held
    simp [Kernel.goto, update_of_ne other]

/-! ## `iderw` under the lock -/

theorem IderwAt.entered_of_locked (locked : pos.locked = true) : pos.entered = true := by
  cases pos with
  | check => cases locked
  | acquire => cases locked
  | _ => rfl

theorem Inv.lock_of_locked (inv : Inv k)
    (here : k.procs p = .iderw b ticket pos) (locked : pos.locked = true) :
    k.lock = some (.proc p) := by
  rw [inv.holder p, here]
  exact locked

theorem Inv.procPhase (inv : Inv k)
    (here : k.procs p = .iderw b ticket pos) (locked : pos.locked = true) : ProcPhase k b pos := by
  have phase := inv.phase
  simp only [Phase, inv.lock_of_locked here locked, here] at phase
  exact phase

theorem Inv.settled (inv : Inv k) (free : k.lock = none) : Settled k := by
  have phase := inv.phase
  simp only [Phase, free] at phase
  exact phase

theorem Inv.advance (inv : Inv k) (pos' : IderwAt)
    (here : k.procs p = .iderw b ticket pos) (locked : pos.locked = true)
    (locked' : pos'.locked = true)
    (procs : k'.procs = update k.procs p (.iderw b ticket pos'))
    (lock : k'.lock = k.lock) (intr : k'.intr = k.intr)
    (bufs : ∀ c, (k'.bufs c).owner = (k.bufs c).owner ∧ (k'.bufs c).synced = (k.bufs c).synced)
    (requested : k'.requested = k.requested) (completed : k'.completed = k.completed)
    (leaves : pos' = .release → (k.bufs b).synced = true) (timely : k'.Timely)
    (phase : ProcPhase k' b pos') : Inv k' where
  callers := by
    simp only [bufs, procs, requested, completed]
    exact inv.callers.move here (IderwAt.entered_of_locked locked)
      (IderwAt.entered_of_locked locked') leaves
  holder := by
    rw [lock, procs]
    apply inv.holder_update _ fun _ _ => .rfl
    simp [Frame.locked, locked', inv.lock_of_locked here locked]
  intr := by
    rw [lock, intr]
    exact inv.intr
  timely := timely
  phase := by
    simp only [Phase, lock, inv.lock_of_locked here locked, procs, update_self]
    exact phase

theorem Inv.acquire (inv : Inv k) (free : k.lock = none)
    (procs : k'.procs = update k.procs p (.iderw b ticket pos)) (locked : pos.locked = true)
    (lock : k'.lock = some (.proc p)) (intr : k'.intr = k.intr)
    (callers : Callers k'.procs (fun b => (k'.bufs b).owner) (fun b => (k'.bufs b).synced)
      k'.requested k'.completed.length) (timely : k'.Timely) (phase : ProcPhase k' b pos) :
    Inv k' where
  callers := callers
  timely := timely
  holder := by
    rw [lock, procs]
    apply inv.holder_update
    · simp [Frame.locked, locked]
    · intro q other
      simp [free, Ne.symm other]
  intr := by
    have off := inv.intr
    simp only [free, reduceCtorEq, false_iff] at off
    simp only [lock, intr, some.injEq, reduceCtorEq, false_iff]
    exact off
  phase := by
    simp only [Phase, lock, procs, update_self]
    exact phase

theorem Inv.enter (inv : Inv k) (here : k.procs p = .iderw b ticket .acquire)
    (free : k.lock = none) : Inv (k.enter p b) := by
  obtain ⟨queue, shape⟩ := inv.settled free
  have bound : k.completed.length ≤ k.requested.length := by
    rw [shape.requested, List.length_append]
    omega
  refine inv.acquire free rfl rfl rfl rfl (inv.callers.enter here bound) inv.timely ?_
  refine ⟨queue, shape.linked, ?_, shape.started, shape.command, shape.done, shape.runs⟩
  simp [Kernel.enter, Kernel.goto, shape.requested]

/-- The request of the lock's holder that is not in the queue yet. -/
theorem Inv.fresh (inv : Inv k)
    (shape : Shape k [] queue [b] running) : queue.Nodup ∧ b ∉ queue := by
  have nodup := inv.callers.nodup
  rw [shape.pending, nodup_append] at nodup
  exact ⟨nodup.1, fun inside => nodup.2.2 b inside b (mem_singleton_self b) rfl⟩

theorem bufs_setBuf {Value : Type} (k : Kernel) (b : BufId) (buf : Buf) (field : Buf → Value)
    (same : field buf = field (k.bufs b)) (c : BufId) :
    field ((k.setBuf b buf).bufs c) = field (k.bufs c) := by
  show field (update k.bufs b buf c) = _
  induction c using update_cases with
  | own => exact same
  | others c _ => rfl

theorem setBuf_qnext (k : Kernel) (x : BufId) (next : Option BufId) :
    (∀ c, ((k.setBuf x { k.bufs x with qnext := next }).bufs c).owner = (k.bufs c).owner ∧
      ((k.setBuf x { k.bufs x with qnext := next }).bufs c).synced = (k.bufs c).synced) ∧
    (∀ c, commandFor ((k.setBuf x { k.bufs x with qnext := next }).bufs c) =
      commandFor (k.bufs c)) ∧
    (k.setBuf x { k.bufs x with qnext := next }).qnext = update k.qnext x next := by
  refine ⟨fun c => ⟨bufs_setBuf k x _ Buf.owner (by rfl) c,
    bufs_setBuf k x _ Buf.synced (by rfl) c⟩, bufs_setBuf k x _ commandFor (by rfl), ?_⟩
  funext c
  induction c using update_cases with
  | own => simp [Kernel.qnext, Kernel.setBuf]
  | others c other => simp [Kernel.qnext, Kernel.setBuf, update_of_ne other]

theorem Inv.clearNext (inv : Inv k)
    (here : k.procs p = .iderw b ticket .clearNext) : Inv (k.clearNext p b ticket) := by
  obtain ⟨queue, shape⟩ := inv.procPhase here rfl
  have fresh := (inv.fresh shape).2
  obtain ⟨fields, commands, next⟩ := setBuf_qnext k b none
  refine inv.advance (.walk .head) here rfl rfl rfl rfl rfl fields rfl rfl nofun inv.timely ?_
  refine ⟨[], queue, ⟨?_, shape.requested, shape.started, ?_, shape.done, shape.runs⟩, rfl, ?_⟩
  · show Linked (k.setBuf b { k.bufs b with qnext := none }).qnext k.idequeue queue
    rw [next]
    apply shape.linked.congr
    intro x member
    have other : x ≠ b := fun equal => fresh (equal ▸ member)
    exact update_of_ne other ..
  · refine shape.command.trans ?_
    simp [Kernel.clearNext, Kernel.goto, commands]
  · show (k.setBuf b { k.bufs b with qnext := none }).qnext b = none
    rw [next, update_self]

theorem Inv.walk (inv : Inv k) {pp : Place BufId}
    (here : k.procs p = .iderw b ticket (.walk pp))
    (prompt : pp = .head → k.idequeue = none → k.raised = 0) : Inv (k.walk p b ticket pp) := by
  obtain ⟨front, back, shape, rfl, ends⟩ := inv.procPhase here rfl
  have pointer : k.deref (.after front) = back.head? := shape.linked.deref_eq
  unfold Kernel.walk
  cases back with
  | cons x back =>
    simp only [pointer]
    refine inv.advance (.walk (.node x)) here rfl rfl rfl rfl rfl (fun _ => ⟨rfl, rfl⟩)
      rfl rfl nofun inv.timely ?_
    have order : front ++ x :: back = (front ++ [x]) ++ back := by
      rw [append_assoc, singleton_append]
    rw [order] at shape
    exact ⟨front ++ [x], back,
      ⟨shape.linked, shape.requested, shape.started, shape.command, shape.done, shape.runs⟩,
      (after_concat ..).symm, ends⟩
  | nil =>
    simp only [pointer, head?_nil]
    rw [append_nil] at shape
    obtain ⟨nodup, fresh⟩ := inv.fresh shape
    have appended := shape.linked.append nodup fresh ends
    -- the assignment is to `idequeue` or to the last buffer
    have stored : (∀ c, ((k.store (.after front) b).bufs c).owner = (k.bufs c).owner ∧
          ((k.store (.after front) b).bufs c).synced = (k.bufs c).synced) ∧
        (∀ c, commandFor ((k.store (.after front) b).bufs c) = commandFor (k.bufs c)) ∧
        (k.store (.after front) b).qnext = (after front).storeNext k.qnext b ∧
        (k.store (.after front) b).idequeue = (after front).storeHead k.idequeue b := by
      cases after front with
      | head => exact ⟨fun _ => ⟨rfl, rfl⟩, fun _ => rfl, rfl, rfl⟩
      | node x =>
        obtain ⟨fields, commands, next⟩ := setBuf_qnext k x (some b)
        exact ⟨fields, commands, next, rfl⟩
    obtain ⟨fields, commands, next, head⟩ := stored
    have rest : (k.store (.after front) b).procs = k.procs ∧
        (k.store (.after front) b).lock = k.lock ∧ (k.store (.after front) b).intr = k.intr ∧
        (k.store (.after front) b).requested = k.requested ∧
        (k.store (.after front) b).started = k.started ∧
        (k.store (.after front) b).completed = k.completed ∧
        (k.store (.after front) b).drive = k.drive := by
      cases after front with
      | head => exact ⟨rfl, rfl, rfl, rfl, rfl, rfl, rfl⟩
      | node x => exact ⟨rfl, rfl, rfl, rfl, rfl, rfl, rfl⟩
    have timely : (k.store (.after front) b).Timely := by
      cases place : after front with
      | head =>
        rw [place] at pointer
        exact fun _ waiting => absurd (prompt place pointer) (Nat.ne_of_gt waiting)
      | node x => exact inv.timely
    generalize k.store (.after front) b = k₁ at *
    obtain ⟨procs, lock, intr, requested, started, completed, drive⟩ := rest
    refine inv.advance .start here rfl rfl ?_ lock intr fields requested completed nofun timely ?_
    · simp [Kernel.goto, procs]
    · refine ⟨front, ?_, ?_, ?_, ?_, ?_, ?_⟩
      · show Linked k₁.qnext k₁.idequeue _
        rw [next, head]
        exact appended
      · simp [Kernel.goto, requested, completed, shape.requested]
      · simp [Kernel.goto, started, completed, shape.started]
      · simp only [Kernel.goto, drive, commands]
        exact shape.command
      · simp only [Kernel.goto, drive]
        exact shape.done
      · exact (head?_toList_isPrefix front).trans (prefix_append ..)

theorem Inv.fail (inv : Inv k) (reason : Panic) : Inv (k.fail reason) := by
  refine ⟨inv.callers, inv.holder, inv.intr, inv.timely, ?_⟩
  exact inv.phase.congr ⟨rfl, rfl, rfl, rfl, rfl, .inl, fun _ _ => rfl⟩ rfl rfl id fun _ _ => rfl

theorem Shape.issue (shape : Shape k [] queue [] none)
    (first : k.idequeue = some b) : Shape (k.issue b) [] queue [] queue.head? := by
  have head : queue.head? = some b := by rw [← shape.linked.head?_eq, first]
  refine ⟨shape.linked, shape.requested, ?_, ?_, nofun, head?_toList_isPrefix queue⟩
  · simp [Kernel.issue, shape.started, head]
  · simp [Kernel.issue, Drive.start, head]

section

variable (inv : Inv k)
include inv

theorem Inv.startFirst (here : k.procs p = .iderw b ticket .start)
    (taken : k.startFirst p b ticket = some k') : Inv k' := by
  obtain ⟨front, shape⟩ := inv.procPhase here rfl
  have nodup := inv.callers.nodup
  rw [shape.pending] at nodup
  unfold Kernel.startFirst at taken
  split at taken
  case isTrue first =>
    -- the queue was empty, so its head is this request
    have alone : front = [] := by
      cases front with
      | nil => rfl
      | cons x front =>
        have head := shape.linked.1
        rw [first] at head
        cases head
        simp at nodup
    subst alone
    unfold Kernel.idestart at taken
    split at taken
    case isTrue =>
      cases taken
      exact inv.fail _
    case isFalse =>
      obtain ⟨-, rfl⟩ := of_unless taken
      -- nothing was outstanding, so no interrupt waits
      have none : ¬ 0 < k.raised := by
        intro waiting
        have done := shape.done (inv.timely (by rw [first]; nofun) waiting).2.1
        rw [shape.command] at done
        cases done
      refine inv.advance .test here rfl rfl rfl rfl rfl (fun _ => ⟨rfl, rfl⟩) rfl rfl nofun
        (fun _ waiting => absurd waiting none) ?_
      obtain ⟨linked, requested, started, command, done, runs⟩ := shape.issue first
      exact ⟨[b], linked, requested, started, command, done, runs⟩
  case isFalse notFirst =>
    cases taken
    refine inv.advance .test here rfl rfl rfl rfl rfl (fun _ => ⟨rfl, rfl⟩) rfl rfl nofun
      inv.timely ?_
    refine ⟨front ++ [b], ?_⟩
    have head : (front ++ [b]).head? = front.head? := by
      cases front with
      | nil => exact absurd shape.linked.1 notFirst
      | cons x front => rfl
    rw [head]
    exact ⟨shape.linked, shape.requested, shape.started, shape.command, shape.done, shape.runs⟩

theorem Inv.unlock (here : k.procs p = .iderw b ticket pos) (locked : pos.locked = true)
    (after : frame.locked = false) (settled : Settled k)
    (callers : Callers (update k.procs p frame) (fun b => (k.bufs b).owner)
      (fun b => (k.bufs b).synced) k.requested k.completed.length) :
    Inv ({ k with lock := none }.goto p frame) where
  callers := callers
  holder := by
    apply inv.holder_update
    · simp [Kernel.goto, after]
    · intro q other
      simp [Kernel.goto, inv.lock_of_locked here locked, Ne.symm other]
  intr := by
    have off := inv.intr
    simp only [inv.lock_of_locked here locked, Option.some.injEq, reduceCtorEq, false_iff] at off
    simp only [Kernel.goto, reduceCtorEq, false_iff]
    exact off
  timely := inv.timely
  phase := settled.congr ⟨rfl, rfl, rfl, rfl, rfl, .inl, fun _ _ => rfl⟩

theorem Inv.test (here : k.procs p = .iderw b ticket .test) : Inv (k.test p b ticket) := by
  have settled : Settled k := inv.procPhase here rfl
  unfold Kernel.test
  split
  case isTrue synced =>
    refine inv.advance .release here rfl rfl rfl rfl rfl (fun _ => ⟨rfl, rfl⟩) rfl rfl
      (fun _ => synced) inv.timely ?_
    exact settled.congr ⟨rfl, rfl, rfl, rfl, rfl, .inl, fun _ _ => rfl⟩
  case isFalse =>
    exact inv.unlock here rfl rfl settled (inv.callers.move here rfl rfl nofun)

theorem Inv.reacquire (here : k.procs p = .iderw b ticket .reacquire) (free : k.lock = none) :
    Inv ({ k with lock := some (.proc p) }.goto p (.iderw b ticket .test)) := by
  refine inv.acquire free rfl rfl rfl rfl (inv.callers.move here rfl rfl nofun) inv.timely ?_
  exact (inv.settled free).congr ⟨rfl, rfl, rfl, rfl, rfl, .inl, fun _ _ => rfl⟩

theorem Inv.check (here : k.procs p = .iderw b ticket .check) : Inv (k.check p b ticket) := by
  unfold Kernel.check
  split
  case isTrue => exact inv.fail _
  case isFalse owned =>
    split
    case isTrue => exact inv.fail _
    case isFalse unsynced =>
      split
      case isTrue => exact inv.fail _
      case isFalse =>
        have outside : (k.procs p).locked = false := by
          rw [here]
          rfl
        refine inv.goto outside rfl (inv.callers.outside ?_ rfl ?_)
        · rw [here]
          nofun
        · rintro c other ⟨⟩
          exact ⟨not_not.mp owned, by simpa using unsynced⟩

theorem Inv.stepIderw (prompt : Prompt k (.run p))
    (here : k.procs p = .iderw b ticket pos) (taken : k.stepIderw p b ticket pos = some k') :
    Inv k' := by
  cases pos with
  | check =>
    cases taken
    exact inv.check here
  | acquire =>
    obtain ⟨free, rfl⟩ := of_guard taken
    exact inv.enter here free
  | clearNext =>
    cases taken
    exact inv.clearNext here
  | walk pp =>
    cases taken
    refine inv.walk here fun isHead => ?_
    rw [Prompt, here, isHead] at prompt
    exact prompt
  | start => exact inv.startFirst here taken
  | test =>
    cases taken
    exact inv.test here
  | asleep => cases taken
  | reacquire =>
    obtain ⟨free, rfl⟩ := of_guard taken
    exact inv.reacquire here free
  | release =>
    cases taken
    refine inv.unlock here rfl rfl (inv.procPhase here rfl) (inv.callers.outside ?_ rfl ?_)
    · rw [here]
      rintro c other ⟨⟩
      exact inv.callers.leaving here
    · rintro c other ⟨⟩

/-! ## `ideintr` -/

theorem Inv.interrupt (free : k.lock = none) (waiting : 0 < k.raised) :
    Inv { k with lock := some .intr, intr := some .look, raised := k.raised - 1 } where
  callers := inv.callers
  holder q := by
    rw [← inv.holder q, free]
    simp
  intr := by simp
  timely nonempty another := by
    have one := (inv.timely nonempty waiting).1
    simp only [one, Nat.lt_irrefl] at another
  phase := by
    refine ⟨(inv.settled free).congr ⟨rfl, rfl, rfl, rfl, rfl, .inl, fun _ _ => rfl⟩, ?_⟩
    by_cases empty : k.idequeue = none
    · exact .inr empty
    · exact .inl (inv.timely empty waiting).2.1

theorem Inv.lock_of_handler {pos : IntrAt} (here : k.intr = some pos) : k.lock = some .intr := by
  rw [inv.intr, here]
  rfl

theorem Inv.intrPhase {pos : IntrAt} (here : k.intr = some pos) : IntrPhase k pos := by
  have phase := inv.phase
  simp only [Phase, inv.lock_of_handler here, here] at phase
  exact phase

theorem Inv.handler {pos pos' : IntrAt} (here : k.intr = some pos)
    (lock : k'.lock = k.lock) (intr : k'.intr = some pos')
    (locked : ∀ p, (k'.procs p).locked = (k.procs p).locked)
    (callers : Callers k'.procs (fun b => (k'.bufs b).owner) (fun b => (k'.bufs b).synced)
      k'.requested k'.completed.length)
    (raised : k'.idequeue ≠ none → k.idequeue ≠ none ∧ k'.raised = k.raised)
    (busy : pos ≠ .release) (phase : IntrPhase k' pos') : Inv k' where
  callers := callers
  timely nonempty waiting := by
    -- while `ideintr` is at work no other interrupt waits
    obtain ⟨before, same⟩ := raised nonempty
    have served := (inv.timely before (same ▸ waiting)).2.2
    simp only [here, reduceCtorEq, some.injEq, busy, false_or] at served
  holder q := by
    rw [lock, locked q]
    exact inv.holder q
  intr := by simp [lock, inv.lock_of_handler here, intr]
  phase := by
    simp only [Phase, lock, inv.lock_of_handler here, intr]
    exact phase

theorem Inv.look (here : k.intr = some .look) : Inv k.look := by
  obtain ⟨⟨queue, shape⟩, cause⟩ := inv.intrPhase here
  unfold Kernel.look
  cases first : k.idequeue with
  | none =>
    refine inv.handler here rfl rfl (fun _ => rfl) inv.callers (fun some => ⟨some, rfl⟩) nofun ?_
    exact Settled.congr ⟨queue, shape⟩ ⟨rfl, rfl, rfl, rfl, rfl, .inl, fun _ _ => rfl⟩
  | some b =>
    refine inv.handler here rfl rfl (fun _ => rfl) inv.callers
      (fun _ => ⟨by rw [first]; nofun, rfl⟩) nofun ?_
    cases queue with
    | nil =>
      have empty := shape.linked
      rw [first] at empty
      cases empty
    | cons c queue =>
      have head := shape.linked.1
      rw [first] at head
      cases head
      have finished := cause.resolve_right (by rw [first]; nofun)
      refine ⟨queue, ⟨shape.linked.2, ?_, shape.started, shape.command, shape.done,
        List.prefix_append ..⟩, finished⟩
      simp [Kernel.handler, shape.requested]

end

/-- New data in a buffer that is read does not change its command. -/
theorem Shape.setData
    (shape : Shape k taken queue extra running) (clean : (k.bufs b).dirty = false) (data : Block) :
    Shape (k.setBuf b { k.bufs b with data }) taken queue extra running := by
  have next : (k.setBuf b { k.bufs b with data }).qnext = k.qnext :=
    funext (bufs_setBuf k b _ Buf.qnext (by rfl))
  have commands := bufs_setBuf k b { k.bufs b with data } commandFor (by
    simp only [commandFor, clean]
    rfl)
  refine ⟨?_, shape.requested, shape.started, ?_, shape.done, shape.runs⟩
  · rw [next]
    exact shape.linked
  · simp only [commands]
    exact shape.command

theorem Inv.readData (inv : Inv k) (here : k.intr = some (.read b))
    (taken : k.readData b = some k') : Inv k' := by
  obtain ⟨queue, shape, finished⟩ := inv.intrPhase here
  have unread : Inv (k.handler (.complete b)) := by
    refine inv.handler here rfl rfl (fun _ => rfl) inv.callers (fun some => ⟨some, rfl⟩) nofun
      ⟨queue, ?_, finished⟩
    exact shape.congr ⟨rfl, rfl, rfl, rfl, rfl, .inl, fun _ _ => rfl⟩
  unfold Kernel.readData at taken
  split at taken
  case isTrue =>
    cases taken
    exact unread
  case isFalse clean =>
    obtain ⟨-, taken⟩ := Option.ite_none_left_eq_some.mp taken
    split at taken
    case isTrue =>
      cases taken
      exact unread
    case isFalse =>
      cases taken
      rw [Bool.not_eq_true] at clean
      refine inv.handler here rfl rfl (fun _ => rfl) ?_ (fun some => ⟨some, rfl⟩) nofun
        ⟨queue, ?_, finished⟩
      · have owners := bufs_setBuf k b { k.bufs b with data := k.drive.buffer } Buf.owner rfl
        have synced := bufs_setBuf k b { k.bufs b with data := k.drive.buffer } Buf.synced rfl
        simp only [Kernel.handler, owners, synced]
        exact inv.callers
      · exact (shape.setData clean _).congr
          ⟨rfl, rfl, rfl, rfl, rfl, .inl, fun _ _ => rfl⟩

theorem Inv.complete (inv : Inv k) (here : k.intr = some (.complete b)) : Inv (k.complete b) := by
  obtain ⟨queue, shape, finished⟩ := inv.intrPhase here
  have first : k.requested[k.completed.length]? = some b := by
    rw [shape.requested, List.getElem?_append_right (Nat.le_refl _), Nat.sub_self]
    rfl
  have others : ∀ c, c ≠ b → (k.complete b).bufs c = k.bufs c := by
    intro c other
    simp [Kernel.complete, Kernel.handler, Kernel.setBuf, update_of_ne other]
  have nodup := inv.callers.nodup
  rw [shape.pending, append_nil, singleton_append, nodup_cons] at nodup
  have owners : (fun c => ((k.complete b).bufs c).owner) = fun c => (k.bufs c).owner :=
    funext (bufs_setBuf k b _ Buf.owner (by rfl))
  have drive : (k.complete b).drive = { k.drive with command := none, done := none } :=
    if_pos finished
  refine inv.handler here rfl rfl (fun _ => rfl) ?_ (fun some => ⟨some, rfl⟩) nofun
    ⟨queue, ?_, ?_, ?_, by rw [drive]; rfl, by rw [drive]; nofun, nil_prefix⟩
  · rw [owners]
    show Callers _ _ _ _ (k.completed ++ [b]).length
    rw [length_append]
    apply inv.callers.complete first
    · simp [Kernel.complete, Kernel.handler, Kernel.setBuf, Buf.synced]
    · intro c other
      rw [others c other]
  · apply shape.linked.congr
    intro x member
    have other : x ≠ b := fun equal => nodup.1 (equal ▸ member)
    rw [Kernel.qnext, others x other]
    rfl
  · simp [Kernel.complete, Kernel.handler, Kernel.setBuf, shape.requested]
  · simp [Kernel.complete, Kernel.handler, Kernel.setBuf, shape.started]

theorem Frame.woken_locked (frame : Frame) (c : BufId) : (frame.woken c).locked = frame.locked := by
  obtain same | ⟨d, ticket, asleep, wakes⟩ := Callers.woken_cases frame c
  · rw [same]
  · rw [wakes, asleep]
    rfl

theorem Inv.wakeup (inv : Inv k) (here : k.intr = some (.wakeup b)) : Inv (k.wakeup b) := by
  obtain ⟨queue, shape⟩ := inv.intrPhase here
  refine inv.handler here rfl rfl (fun p => woken_locked ..) (inv.callers.wakeup b)
    (fun some => ⟨some, rfl⟩) nofun ⟨queue, ?_⟩
  exact shape.congr ⟨rfl, rfl, rfl, rfl, rfl, .inl, fun _ _ => rfl⟩

theorem Inv.startNext (inv : Inv k) (here : k.intr = some .startNext)
    (taken : k.startNext = some k') : Inv k' := by
  obtain ⟨queue, shape⟩ := inv.intrPhase here
  unfold Kernel.startNext at taken
  split at taken
  case h_1 none =>
    cases taken
    refine inv.handler here rfl rfl (fun _ => rfl) inv.callers (fun some => ⟨some, rfl⟩) nofun
      ⟨queue, ?_⟩
    have empty : queue.head? = Option.none := by rw [← shape.linked.head?_eq, none]
    rw [empty]
    exact shape.congr ⟨rfl, rfl, rfl, rfl, rfl, .inl, fun _ _ => rfl⟩
  case h_2 b first =>
    unfold Kernel.idestart at taken
    split at taken
    case isTrue =>
      cases taken
      exact inv.fail _
    case isFalse =>
      obtain ⟨-, rfl⟩ := of_unless taken
      refine inv.handler here rfl rfl (fun _ => rfl) inv.callers (fun some => ⟨some, rfl⟩) nofun
        ⟨queue, ?_⟩
      exact (shape.issue first).congr ⟨rfl, rfl, rfl, rfl, rfl, .inl, fun _ _ => rfl⟩

theorem Inv.stepIntr (inv : Inv k) {pos : IntrAt} (here : k.intr = some pos)
    (taken : k.stepIntr pos = some k') : Inv k' := by
  cases pos with
  | look =>
    cases taken
    exact inv.look here
  | read b => exact inv.readData here taken
  | complete b =>
    cases taken
    exact inv.complete here
  | wakeup b =>
    cases taken
    exact inv.wakeup here
  | startNext => exact inv.startNext here taken
  | release =>
    cases taken
    have settled : Settled k := inv.intrPhase here
    refine ⟨inv.callers, ?_, ?_, ?_, ?_⟩
    · intro q
      rw [← inv.holder q, inv.lock_of_handler here]
      simp
    · simp
    · intro nonempty waiting
      obtain ⟨one, done, -⟩ := inv.timely nonempty waiting
      exact ⟨one, done, .inl rfl⟩
    · exact settled.congr ⟨rfl, rfl, rfl, rfl, rfl, .inl, fun _ _ => rfl⟩

/-! ## The drive -/

/-- A command that is still to be carried out is one for which `ideintr` has not been entered. -/
theorem Inv.unserved (inv : Inv k) (command : k.drive.command.isSome = true)
    (busy : k.drive.done = none) (nonempty : k.idequeue ≠ none) :
    k.intr = none ∨ k.intr = some .release := by
  cases here : k.intr with
  | none => exact .inl rfl
  | some pos =>
    have phase := inv.intrPhase here
    cases pos with
    | look => simp only [IntrPhase, busy, isSome_none, Bool.false_eq_true, nonempty] at phase; tauto
    | read b | complete b =>
      obtain ⟨queue, shape, finished⟩ := phase
      rw [busy] at finished
      cases finished
    | wakeup b | startNext =>
      obtain ⟨queue, shape⟩ := phase
      rw [shape.command] at command
      cases command
    | release => exact .inr rfl

theorem Inv.finish (inv : Inv k) {command : Command} (outstanding : k.drive.command = some command)
    (busy : k.drive.done = none) (error : Bool) :
    Inv { k with drive := k.drive.carryOut error command, raised := k.raised + 1 } := by
  have kept : (k.drive.carryOut error command).command = k.drive.command := by
    cases command <;> rfl
  have finished : (k.drive.carryOut error command).done = some error := by
    cases command <;> rfl
  have isSome : k.drive.command.isSome = true := by rw [outstanding]; rfl
  refine ⟨inv.callers, inv.holder, inv.intr, fun nonempty _ => ?_, ?_⟩
  · have none : ¬ 0 < k.raised := by
      intro waiting
      have done := (inv.timely nonempty waiting).2.1
      rw [busy] at done
      cases done
    exact ⟨by simp only; omega, by rw [finished]; rfl, inv.unserved isSome busy nonempty⟩
  · refine inv.phase.congr ⟨rfl, rfl, rfl, rfl, kept, ?_, fun _ _ => rfl⟩ rfl rfl ?_ fun _ _ => rfl
    · exact fun _ => .inr (kept ▸ isSome)
    · exact fun _ => by rw [finished]; rfl

theorem Inv.spurious (inv : Inv k) (empty : k.idequeue = none) :
    Inv { k with raised := k.raised + 1 } := by
  refine ⟨inv.callers, inv.holder, inv.intr, fun nonempty => absurd empty nonempty, ?_⟩
  exact inv.phase.congr ⟨rfl, rfl, rfl, rfl, rfl, .inl, fun _ _ => rfl⟩ rfl rfl id fun _ _ => rfl

/-! ## Runs -/

theorem Inv.step {label : Label} (inv : Inv k) (prompt : Prompt k label) (taken : step k label = some k') : Inv k' := by
  obtain ⟨-, taken⟩ := ite_none_left_eq_some.mp taken
  cases label with
  | lockBuf p b =>
    obtain ⟨⟨-, unowned⟩, rfl⟩ := of_guard taken
    apply inv.setBuf
    intro q owns
    rw [unowned] at owns
    cases owns
  | unlockBuf p b =>
    obtain ⟨⟨idle, owned⟩, rfl⟩ := of_guard taken
    apply inv.setBuf
    intro q owns
    rw [owned, some.injEq] at owns
    exact owns ▸ idle
  | prepare p b valid dirty dev blockno data =>
    obtain ⟨⟨idle, owned⟩, rfl⟩ := of_guard taken
    apply inv.setBuf
    intro q owns
    rw [owned, some.injEq] at owns
    exact owns ▸ idle
  | call p b =>
    obtain ⟨idle, rfl⟩ := of_guard taken
    refine inv.goto (by rw [idle]; rfl) rfl (inv.callers.outside ?_ rfl nofun)
    rw [idle]
    nofun
  | run p =>
    simp only [stepRunning] at taken
    split at taken
    case h_1 => cases taken
    case h_2 b ticket pos here => exact inv.stepIderw prompt here taken
  | kill p =>
    simp only [stepRunning] at taken
    split at taken
    case h_1 b ticket here =>
      cases taken
      exact inv.goto (by rw [here]; rfl) rfl (inv.callers.move here rfl rfl nofun)
    case h_2 => cases taken
  | finish error =>
    simp only [stepRunning] at taken
    split at taken
    case h_1 command outstanding busy =>
      cases taken
      exact inv.finish outstanding busy error
    case h_2 => cases taken
  | spurious =>
    obtain ⟨empty, rfl⟩ := of_guard taken
    exact inv.spurious empty
  | interrupt =>
    obtain ⟨⟨free, waiting⟩, rfl⟩ := of_guard taken
    exact inv.interrupt free waiting
  | handler =>
    simp only [stepRunning] at taken
    split at taken
    case h_1 => cases taken
    case h_2 pos here => exact inv.stepIntr here taken

theorem Inv.of_reachable (reachable : system.ReachableWhen Prompt k) : Inv k := by
  refine reachable.invariant Initial.inv ?_
  intro state label next _ inv prompt taken
  exact inv.step prompt taken

theorem Inv.shape (inv : Inv k) : ∃ taken queue extra running, Shape k taken queue extra running := by
  have phase := inv.phase
  unfold Phase at phase
  split at phase
  case h_1 =>
    obtain ⟨queue, shape⟩ := phase
    exact ⟨_, _, _, _, shape⟩
  case h_2 =>
    split at phase
    case h_1 => exact phase.elim
    case h_2 pos _ =>
      cases pos with
      | look =>
        obtain ⟨⟨queue, shape⟩, -⟩ := phase
        exact ⟨_, _, _, _, shape⟩
      | read b =>
        obtain ⟨queue, shape, -⟩ := phase
        exact ⟨_, _, _, _, shape⟩
      | complete b =>
        obtain ⟨queue, shape, -⟩ := phase
        exact ⟨_, _, _, _, shape⟩
      | _ =>
        obtain ⟨queue, shape⟩ := phase
        exact ⟨_, _, _, _, shape⟩
  case h_3 =>
    split at phase
    case h_1 => exact phase.elim
    case h_2 pos _ =>
      cases pos with
      | walk pp =>
        obtain ⟨front, back, shape, -⟩ := phase
        exact ⟨_, _, _, _, shape⟩
      | check => exact phase.elim
      | acquire => exact phase.elim
      | asleep => exact phase.elim
      | reacquire => exact phase.elim
      | _ =>
        obtain ⟨queue, shape⟩ := phase
        exact ⟨_, _, _, _, shape⟩

/-- What the driver guarantees in every state. -/
structure Orderly (k : Kernel) : Prop where
  /-- While nobody is in a critical section, the requests that are not completed are the queue, in
  the order of the calls, and the drive works on its head. -/
  queue : k.lock = none → ∃ queue, Linked k.qnext k.idequeue queue ∧
    k.requested = k.completed ++ queue ∧ k.started = k.completed ++ queue.head?.toList ∧
    k.drive.command = queue.head?.map fun b => commandFor (k.bufs b)
  /-- The requests are started one by one, in the order of the calls. -/
  started : k.started <+: k.requested
  /-- They are completed one by one, in the order in which they were started. -/
  completed : k.completed <+: k.started
  /-- At most one command is outstanding. -/
  inFlight : k.started.length ≤ k.completed.length + 1
  /-- When the drive has nothing to do, no request is left. -/
  drained : k.lock = none → k.drive.command = none → k.completed = k.requested
  /-- `ideintr` completes the buffer whose command is outstanding, after its interrupt. -/
  completes : ∀ b, k.intr = some (.complete b) → k.started = k.completed ++ [b] ∧
    k.drive.command = some (commandFor (k.bufs b)) ∧ k.drive.done.isSome = true
  /-- A call that leaves its loop has had its request completed. -/
  returns : ∀ p b ticket, k.procs p = .iderw b ticket .release →
    k.requested[ticket]? = some b ∧ ticket < k.completed.length

/-- The driver keeps the order if no interrupt waits when a request comes to the empty queue. -/
theorem disk_queue_fifo {k : Kernel} (reachable : system.ReachableWhen Prompt k) : Orderly k := by
  have inv := Inv.of_reachable reachable
  obtain ⟨taken, queue, extra, running, shape⟩ := inv.shape
  refine ⟨?_, ?_, ?_, ?_, ?_, ?_, ?_⟩
  · intro free
    obtain ⟨queue, shape⟩ := inv.settled free
    refine ⟨queue, shape.linked, ?_, shape.started, shape.command⟩
    rw [shape.requested, List.nil_append, List.append_nil]
  · rw [shape.started, shape.requested, List.prefix_append_right_inj]
    exact shape.runs.trans (List.prefix_append ..)
  · rw [shape.started]
    exact List.prefix_append ..
  · rw [shape.started, List.length_append]
    have single : running.toList.length ≤ 1 := by
      cases running with
      | none => exact Nat.zero_le _
      | some b => exact Nat.le_refl _
    omega
  · intro free nothing
    obtain ⟨queue, shape⟩ := inv.settled free
    have empty : queue = [] := by
      have command := shape.command
      rw [nothing, eq_comm, Option.map_eq_none_iff] at command
      exact List.head?_eq_none_iff.mp command
    rw [shape.requested, empty]
    exact (List.append_nil _).symm
  · intro b here
    obtain ⟨queue, shape, finished⟩ := inv.intrPhase here
    exact ⟨shape.started, shape.command, finished⟩
  · intro p b ticket here
    exact ⟨(inv.callers.waits (request_of_entered here rfl)).2.1, inv.callers.leaving here⟩

/-! ## A run -/

def quietDrive : Drive := ⟨fun _ _ _ => 0, none, none, fun _ => 0⟩

def quiet : Kernel where
  bufs _ := ⟨false, false, 0, 0, fun _ => 0, none, none⟩
  idequeue := none
  lock := none
  havedisk1 := false
  procs _ := .idle
  intr := none
  drive := quietDrive
  raised := 0
  panic := none
  requested := []
  started := []
  completed := []

/-- A process locks a buffer, asks for a read or a write of a block, and goes to sleep after some
steps. -/
def request (p : Pid) (b : BufId) (dirty : Bool) (steps : Nat) : List Label :=
  [.lockBuf p b, .prepare p b false dirty 0 b fun _ => 0, .call p b] ++
    List.replicate steps (.run p)

/-- The second request is queued behind the first one.  The interrupt of the first one starts it. -/
def twoRequests : List Label :=
  request 0 10 false 6 ++ request 1 20 true 7 ++
    [.finish false, .interrupt] ++ List.replicate 6 .handler ++ [.run 0, .run 0]

theorem quiet_initial : Initial quiet :=
  ⟨rfl, rfl, fun _ => rfl, fun _ => rfl, rfl, rfl, rfl, rfl, rfl, rfl, rfl⟩

theorem first_request_returns : ∃ k, Orderly k ∧ k.procs 0 = .iderw 10 0 .release ∧
    k.procs 1 = .iderw 20 1 .asleep ∧ k.completed = [10] ∧ k.started = [10, 20] := by
  have ran : ∃ k ∈ system.runWhen Prompt quiet twoRequests,
      k.procs 0 = .iderw 10 0 .release ∧ k.procs 1 = .iderw 20 1 .asleep ∧
        k.completed = [10] ∧ k.started = [10, 20] := by
    decide +kernel
  obtain ⟨k, reachable, passes⟩ := System.ReachableWhen.exists_of_runWhen (.init quiet_initial) ran
  exact ⟨k, disk_queue_fifo reachable, passes⟩

/-- A spurious interrupt is raised before a write is queued, and `ideintr` gets the lock after it:
the write is completed and `iderw` returns while the drive is still at work. -/
def lateInterrupt : List Label :=
  .spurious :: request 0 10 true 6 ++ [.interrupt] ++ List.replicate 6 .handler ++ [.run 0, .run 0]

theorem late_interrupt_completes : ∃ k, system.Reachable k ∧ k.completed = [10] ∧
    k.procs 0 = .iderw 10 0 .release ∧ k.idequeue = none ∧ k.drive.command.isSome = true ∧
      k.drive.done = none := by
  have ran : ∃ k ∈ system.runWhen (fun _ _ => True) quiet lateInterrupt, k.completed = [10] ∧
      k.procs 0 = .iderw 10 0 .release ∧ k.idequeue = none ∧ k.drive.command.isSome = true ∧
        k.drive.done = none := by
    decide +kernel
  exact System.ReachableWhen.exists_of_runWhen (.init quiet_initial) ran

end Laboratorio.Xv6.Ide
