import Laboratorio.Lib.Sum
import Laboratorio.Xv6.Bio.Model

/-! # The buffer cache is transparent

Three things are kept together.  The names: no two buffers that have been handed out carry the
same block.  Buffers that never were all carry block 0 of device 0, and `bget` of that block
finds the right one because the list has the buffers that have been handed out for it in front
(`Names.first`).  The references: `refcnt` counts the holder of the sleep lock and the
processes on their way to it or from it, so that a buffer with `refcnt` 0 has no holder.  The
data (`Coherent`): a buffer that is valid and neither dirty nor changed by its holder equals the
disk, and nobody but a holder makes it differ from what the last one left.
-/

namespace Laboratorio.Xv6.Bio

open Laboratorio.Lib Function Bio.Frame Kernel Option List
open Laboratorio.Lib.LinkedRing (Links scan)

section

variable {nbuf : Nat} {b : Fin nbuf}

namespace Frame

/-- Inside a call with the sleep lock of the buffer held. -/
def holds (b : Fin nbuf) : Frame nbuf → Bool
  | .testing c _ => c = b
  | .reading c _ => c = b
  | .returns c _ => c = b
  | .writing c => c = b
  | _ => false

/-- Counted in `refcnt` without holding the sleep lock. -/
def refers (b : Fin nbuf) : Frame nbuf → Nat
  | .acquiring c _ => if c = b then 1 else 0
  | .releasing c => if c = b then 1 else 0
  | _ => 0

/-- The buffer that `bget` has found for a block. -/
def asked : Frame nbuf → Option (Fin nbuf × Id)
  | .acquiring b id => some (b, id)
  | .testing b id => some (b, id)
  | .reading b id => some (b, id)
  | .returns b id => some (b, id)
  | _ => none

/-- Still inside `bread`, so that the holder has changed nothing. -/
def fresh (b : Fin nbuf) : Frame nbuf → Bool
  | .testing c _ => c = b
  | .reading c _ => c = b
  | .returns c _ => c = b
  | _ => false

/-- Inside `bread`, and the data not there yet. -/
def loads (b : Fin nbuf) : Frame nbuf → Bool
  | .testing c _ => c = b
  | .reading c _ => c = b
  | _ => false

theorem holds_of_fresh {frame : Frame nbuf} (fresh : frame.fresh b = true) :
    frame.holds b = true := by
  cases frame with
  | testing | reading | returns => exact fresh
  | idle | acquiring | writing | releasing => cases fresh

theorem holds_of_loads {frame : Frame nbuf} (loads : frame.loads b = true) :
    frame.holds b = true := by
  cases frame with
  | testing | reading => exact loads
  | idle | acquiring | returns | writing | releasing => cases loads

/-- On no other buffer than `b`, and not waiting for it. -/
def Only (b : Fin nbuf) (frame : Frame nbuf) : Prop :=
  ∀ c, frame.refers c = 0 ∧ (frame.holds c = true → c = b)

theorem only_idle (b : Fin nbuf) : Frame.idle.Only b :=
  fun _ => ⟨rfl, nofun⟩

theorem only_of_holds {frame : Frame nbuf} (holds : frame.holds b = true) : frame.Only b := by
  intro c
  cases frame with
  | testing | reading | returns | writing =>
    refine ⟨rfl, fun holdsC => ?_⟩
    rw [← of_decide_eq_true holds, of_decide_eq_true holdsC]
  | idle | acquiring | releasing => cases holds

theorem asked_eq {c : Fin nbuf} {id id' named : Id} (isId : named = id)
    (asked : some (b, id) = some (c, id')) : c = b ∧ named = id' := by
  cases asked
  exact ⟨rfl, isId⟩

end Frame

end

section

variable {nbuf : Nat} {Proc Data : Type} {order : List (Fin nbuf)}

structure Names (bufs : Fin nbuf → Buf Proc Data) (order : List (Fin nbuf)) : Prop where
  blank : ∀ b, (bufs b).used = false → (bufs b).id = ⟨0, 0⟩
  distinct : ∀ b c, (bufs b).used = true → (bufs c).used = true → (bufs b).id = (bufs c).id → b = c
  first : order.Pairwise fun b c =>
    (bufs b).used = false → (bufs c).used = true → (bufs c).id ≠ ⟨0, 0⟩

/-- The holder, if there is one, has changed nothing. -/
def Kernel.Settled (k : Kernel nbuf Proc Data) (b : Fin nbuf) : Prop :=
  ∀ p, (k.bufs b).lock = some p → (k.frames p).fresh b = true

structure Coherent (k : Kernel nbuf Proc Data) (b : Fin nbuf) : Prop where
  invalid : (k.bufs b).valid = false →
    (k.bufs b).dirty = false ∧ k.disk (k.bufs b).id = k.left (k.bufs b).id
  clean : (k.bufs b).valid = true → (k.bufs b).dirty = false → (k.bufs b).pending = false →
    (k.bufs b).data = k.disk (k.bufs b).id
  settled : (k.bufs b).valid = true → k.Settled b → (k.bufs b).data = k.left (k.bufs b).id
  unchanged : (k.bufs b).valid = true → k.changed (k.bufs b).id = false →
    (k.bufs b).data = k.disk (k.bufs b).id

/-- The holder of the sleep lock counts once. -/
def Buf.held (buf : Buf Proc Data) : Nat :=
  if buf.lock = none then 0 else 1

structure Inv [Fintype Proc] (k : Kernel nbuf Proc Data) : Prop where
  list : ∃ order, k.links.Ring order ∧ (∀ b, b ∈ order) ∧ Names k.bufs order
  untouched : ∀ b, (k.bufs b).used = false →
    (k.bufs b).valid = false ∧ (k.bufs b).dirty = false ∧ (k.bufs b).refcnt = 0
  refs : ∀ b, (k.bufs b).refcnt = (k.bufs b).held + ∑ p, (k.frames p).refers b
  holds : ∀ p b, (k.frames p).holds b = true → (k.bufs b).lock = some p
  asked : ∀ p b id, (k.frames p).asked = some (b, id) →
    (k.bufs b).used = true ∧ (k.bufs b).id = id
  loading : ∀ b p, (k.bufs b).lock = some p → (k.bufs b).valid = false →
    (k.frames p).loads b = true
  pending : ∀ b, (k.bufs b).pending = true → (k.bufs b).lock ≠ none
  coherent : ∀ b, (k.bufs b).used = true → Coherent k b
  absent : ∀ id, (∀ b, (k.bufs b).used = true → (k.bufs b).id ≠ id) → k.disk id = k.left id

theorem Names.congr {bufs bufs' : Fin nbuf → Buf Proc Data} (names : Names bufs order)
    (same : ∀ b, (bufs' b).used = (bufs b).used ∧ (bufs' b).id = (bufs b).id) :
    Names bufs' order := by
  constructor
  case blank => simpa only [same] using names.blank
  case distinct => simpa only [same] using names.distinct
  case first => simpa only [same] using names.first

variable {k next : Kernel nbuf Proc Data} {p : Proc} {b : Fin nbuf} {lock : Option Proc}

theorem Coherent.congr (coherent : Coherent k b) {refcnt : Nat}
    (buf : next.bufs b = { k.bufs b with lock, refcnt })
    (disk : next.disk (k.bufs b).id = k.disk (k.bufs b).id)
    (left : next.left (k.bufs b).id = k.left (k.bufs b).id)
    (changed : next.changed (k.bufs b).id = k.changed (k.bufs b).id)
    (settled : next.Settled b → k.Settled b) : Coherent next b := by
  constructor <;> rw [buf]
  case invalid =>
    rw [disk, left]
    exact coherent.invalid
  case clean =>
    rw [disk]
    exact coherent.clean
  case settled =>
    rw [left]
    exact fun valid isSettled => coherent.settled valid (settled isSettled)
  case unchanged =>
    rw [changed, disk]
    exact coherent.unchanged

theorem Kernel.not_settled (lock : (k.bufs b).lock = some p)
    (stale : (k.frames p).fresh b = false) : ¬ k.Settled b := by
  intro settled
  have fresh := settled p lock
  rw [stale] at fresh
  cases fresh

variable [Fintype Proc] {before : Frame nbuf} {id : Id}

/-! ## Holders -/

theorem Inv.used_of_refcnt (inv : Inv k) (counted : 0 < (k.bufs b).refcnt) :
    (k.bufs b).used = true := by
  by_contra unused
  have blank := inv.untouched b (Bool.eq_false_iff.mpr unused)
  omega

theorem Inv.used_of_lock (inv : Inv k) (lock : (k.bufs b).lock = some p) :
    (k.bufs b).used = true := by
  apply inv.used_of_refcnt
  have refs := inv.refs b
  have held : (k.bufs b).held = 1 := by rw [Buf.held, lock]; rfl
  omega

theorem Inv.lock_of_holds (inv : Inv k) (here : k.frames p = before)
    (holds : before.holds b = true) : (k.bufs b).lock = some p :=
  inv.holds p b (here ▸ holds)

theorem Inv.named (inv : Inv k) (here : k.frames p = before)
    (asked : before.asked = some (b, id)) : (k.bufs b).used = true ∧ (k.bufs b).id = id :=
  inv.asked p b id (here ▸ asked)

theorem Inv.valid_of_lock (inv : Inv k) (here : k.frames p = before)
    (lock : (k.bufs b).lock = some p) (done : before.loads b = false) :
    (k.bufs b).valid = true := by
  by_contra invalid
  have loads := inv.loading b p lock (Bool.eq_false_iff.mpr invalid)
  rw [here, done] at loads
  cases loads

/-! ## Steps on one buffer -/

/-- What a step of `p` on the buffer `b` must keep.  The state of the disk and the histories may
change for the block of `b` alone. -/
structure Touches (k : Kernel nbuf Proc Data) (p : Proc) (b : Fin nbuf) (buf : Buf Proc Data)
    (frame : Frame nbuf) (disk left : Id → Data) (changed : Id → Bool) : Prop where
  usedBefore : (k.bufs b).used = true
  used : buf.used = true
  id : buf.id = (k.bufs b).id
  disk : ∀ id, id ≠ buf.id → disk id = k.disk id
  left : ∀ id, id ≠ buf.id → left id = k.left id
  changed : ∀ id, id ≠ buf.id → changed id = k.changed id
  refs : buf.refcnt + (k.bufs b).held + (k.frames p).refers b =
    (k.bufs b).refcnt + buf.held + frame.refers b
  refersOthers : ∀ c, c ≠ b → frame.refers c = (k.frames p).refers c
  lockOthers : ∀ q, q ≠ p → ((k.bufs b).lock = some q ↔ buf.lock = some q)
  holds : ∀ c, frame.holds c = true → c = b ∧ buf.lock = some p
  asked : ∀ c id, frame.asked = some (c, id) → c = b ∧ buf.id = id
  loading : buf.lock = some p → buf.valid = false → frame.loads b = true
  loadsOthers : ∀ c, c ≠ b → (k.frames p).loads c = true → frame.loads c = true
  valid : buf.valid = false → (k.bufs b).valid = false
  pending : buf.pending = true → buf.lock ≠ none

variable [DecidableEq Proc] {frame : Frame nbuf} {label : Label nbuf Proc Data}
  {buf : Buf Proc Data} {disk left : Id → Data}

omit [Fintype Proc] in
/-- The process counts itself in or out, and does not come to hold the buffer. -/
theorem Coherent.kept (coherent : Coherent k b) (p : Proc) (refcnt : Nat) (frame : Frame nbuf)
    (stale : frame.fresh b = false) (links : Links (Fin nbuf)) :
    Coherent ⟨update k.bufs b { k.bufs b with refcnt }, links, k.disk,
      update k.frames p frame, k.left, k.changed⟩ b := by
  refine coherent.congr (update_self ..) rfl rfl rfl fun settled q lock => ?_
  have fresh := settled q (by dsimp only; rw [update_self]; exact lock)
  dsimp only at fresh
  induction q using update_cases with
  | own =>
    rw [stale] at fresh
    cases fresh
  | others q _ => exact fresh

theorem Inv.touches (inv : Inv k)
    {changed : Id → Bool} {links : Links (Fin nbuf)}
    (touches : Touches k p b buf frame disk left changed)
    (list : ∃ order, links.Ring order ∧ (∀ b, b ∈ order) ∧ Names k.bufs order)
    (coherent : Coherent ⟨update k.bufs b buf, links, disk,
      update k.frames p frame, left, changed⟩ b) :
    Inv ⟨update k.bufs b buf, links, disk, update k.frames p frame, left,
      changed⟩ := by
  have self : update k.bufs b buf b = buf := update_self ..
  have others : ∀ c, c ≠ b → update k.bufs b buf c = k.bufs c :=
    fun c different => update_of_ne different ..
  have names : ∀ c, (update k.bufs b buf c).used = (k.bufs c).used ∧
      (update k.bufs b buf c).id = (k.bufs c).id := by
    intro c
    induction c using update_cases with
    | own => exact ⟨touches.used.trans touches.usedBefore.symm, touches.id⟩
    | others c _ => exact ⟨rfl, rfl⟩
  -- another buffer that has been handed out is of another block
  have otherId : ∀ c, c ≠ b → (k.bufs c).used = true → (k.bufs c).id ≠ buf.id := by
    intro c different used same
    obtain ⟨order, -, -, names⟩ := inv.list
    exact different (names.distinct c b used touches.usedBefore (same.trans touches.id))
  constructor <;> dsimp only
  case list =>
    obtain ⟨order, ring, all, named⟩ := list
    exact ⟨order, ring, all, named.congr names⟩
  case untouched =>
    intro c unused
    induction c using update_cases with
    | own =>
      rw [touches.used] at unused
      cases unused
    | others c _ => exact inv.untouched c unused
  case refs =>
    intro c
    have counted := sum_update (fun frame => frame.refers c) k.frames p frame
    have before := inv.refs c
    induction c using update_cases with
    | own =>
      have refs := touches.refs
      omega
    | others c different =>
      have refers := touches.refersOthers c different
      omega
  case holds =>
    intro q c holds
    induction q using update_cases with
    | own =>
      obtain ⟨rfl, lock⟩ := touches.holds c holds
      rw [self]
      exact lock
    | others q other =>
      have lock := inv.holds q c holds
      induction c using update_cases with
      | own => exact (touches.lockOthers q other).mp lock
      | others c _ => exact lock
  case asked =>
    intro q c id asked
    rw [(names c).1, (names c).2]
    induction q using update_cases with
    | own =>
      obtain ⟨rfl, isId⟩ := touches.asked c id asked
      exact ⟨touches.usedBefore, touches.id.symm.trans isId⟩
    | others q _ => exact inv.asked q c id asked
  case loading =>
    intro c q lock invalid
    induction c using update_cases with
    | own =>
      induction q using update_cases with
      | own => exact touches.loading lock invalid
      | others q other =>
        exact inv.loading b q ((touches.lockOthers q other).mpr lock) (touches.valid invalid)
    | others c different =>
      have loads := inv.loading c q lock invalid
      induction q using update_cases with
      | own => exact touches.loadsOthers c different loads
      | others q _ => exact loads
  case pending =>
    intro c pending
    induction c using update_cases with
    | own => exact touches.pending pending
    | others c _ => exact inv.pending c pending
  case coherent =>
    intro c used
    by_cases same : c = b
    · rw [same]
      exact coherent
    · rw [others c same] at used
      have different := otherId c same used
      refine (inv.coherent c used).congr (others c same) (touches.disk _ different)
        (touches.left _ different) (touches.changed _ different) fun settled q lock => ?_
      -- `p` is inside `bread` of `b` if of any buffer
      have fresh := settled q (by dsimp only; rw [others c same]; exact lock)
      dsimp only at fresh
      induction q using update_cases with
      | own => exact absurd (touches.holds c (holds_of_fresh fresh)).1 same
      | others q _ => exact fresh
  case absent =>
    intro id absent
    have different : id ≠ buf.id := by
      rintro rfl
      apply absent b
      · rw [self]
        exact touches.used
      · rw [self]
    rw [touches.disk id different, touches.left id different]
    apply inv.absent
    intro c used
    have other := absent c
    rw [(names c).1, (names c).2] at other
    exact other used

/-! ## The calls of a holder -/

section

variable {buf : Buf Proc Data} {frame : Frame nbuf} {changed : Id → Bool}

omit [DecidableEq Proc] in
/-- The holder of the sleep lock goes on: nobody comes to wait for the buffer or leaves it. -/
theorem Inv.touches_held (inv : Inv k) (isLock : (k.bufs b).lock = some p)
    (used : buf.used = (k.bufs b).used) (id : buf.id = (k.bufs b).id)
    (refcnt : buf.refcnt = (k.bufs b).refcnt) (lock : buf.lock = (k.bufs b).lock)
    (valid : buf.valid = false → (k.bufs b).valid = false)
    (isDisk : ∀ id, id ≠ buf.id → disk id = k.disk id)
    (isChanged : ∀ id, id ≠ buf.id → changed id = k.changed id)
    (here : k.frames p = before) (only : before.Only b) (after : frame.Only b)
    (asked : ∀ c id, frame.asked = some (c, id) → c = b ∧ (k.bufs b).id = id)
    (loading : buf.valid = false → frame.loads b = true) :
    Touches k p b buf frame disk k.left changed := by
  subst here
  have isUsed := inv.used_of_lock isLock
  constructor
  case usedBefore => exact isUsed
  case used => rw [used, isUsed]
  case id => exact id
  case disk => exact isDisk
  case left => exact fun _ _ => rfl
  case changed => exact isChanged
  case refs => rw [refcnt, Buf.held, Buf.held, lock, (only b).1, (after b).1]
  case refersOthers =>
    intro c _
    rw [(only c).1, (after c).1]
  case lockOthers => simp [lock]
  case holds => exact fun c holds => ⟨(after c).2 holds, lock.trans isLock⟩
  case asked =>
    intro c id' isAsked
    rw [id]
    exact asked c id' isAsked
  case loading => exact fun _ => loading
  case loadsOthers =>
    intro c different loads
    exact absurd ((only c).2 (holds_of_loads loads)) different
  case valid => exact valid
  case pending =>
    intro _
    rw [lock, isLock]
    exact nofun

/-- A call of a holder that changes the data or the flags. -/
theorem Inv.holder (inv : Inv k) (holding : k.Holding p b) (buf : Buf Proc Data)
    (frame : Frame nbuf) (changed : Id → Bool) (used : buf.used = (k.bufs b).used) (id : buf.id = (k.bufs b).id)
    (refcnt : buf.refcnt = (k.bufs b).refcnt) (lock : buf.lock = (k.bufs b).lock)
    (valid : buf.valid = (k.bufs b).valid)
    (others : ∀ id, id ≠ buf.id → changed id = k.changed id)
    (frames : frame = .idle ∨ frame = .writing b)
    (data : buf.dirty = true ∨ buf.pending = true)
    (unchanged : changed buf.id = false → buf.data = k.disk buf.id) :
    Inv ⟨update k.bufs b buf, k.links, k.disk, update k.frames p frame, k.left,
      changed⟩ := by
  obtain ⟨idle, isLock⟩ := holding
  have isValid := inv.valid_of_lock idle isLock rfl
  have stale : frame.fresh b = false := by
    obtain rfl | rfl := frames <;> rfl
  have touches : Touches k p b buf frame k.disk k.left changed := by
    apply inv.touches_held isLock used id refcnt lock
    case valid => exact fun invalid => valid ▸ invalid
    case isDisk => exact fun _ _ => rfl
    case isChanged => exact others
    case here => exact idle
    case only => exact only_idle b
    case after =>
      obtain rfl | rfl := frames
      · exact only_idle b
      · exact only_of_holds (decide_eq_true rfl)
    case asked =>
      intro c id asked
      obtain rfl | rfl := frames <;> cases asked
    case loading =>
      intro invalid
      rw [valid, isValid] at invalid
      cases invalid
  apply inv.touches touches inv.list
  · have notSettled : ¬ Kernel.Settled ⟨update k.bufs b buf, k.links, k.disk,
        update k.frames p frame, k.left, changed⟩ b := by
      apply not_settled (p := p)
      · dsimp only
        rw [update_self, lock, isLock]
      · dsimp only
        rw [update_self, stale]
    constructor <;> dsimp only <;> rw [update_self]
    case invalid =>
      intro invalid
      rw [valid, isValid] at invalid
      cases invalid
    case clean =>
      intro _ notDirty notPending
      obtain dirty | pending := data
      · rw [notDirty] at dirty
        cases dirty
      · rw [notPending] at pending
        cases pending
    case settled => exact fun _ settled => absurd settled notSettled
    case unchanged => exact fun _ => unchanged

end

omit [Fintype Proc] in
theorem Kernel.Holding.goto_idle (holding : k.Holding p b) : update k.frames p .idle = k.frames := by
  rw [← holding.1, update_eq_self]

theorem modify_inv (inv : Inv k) (holding : k.Holding p b) (data : Data) :
    Inv { k.setBuf b { k.bufs b with data, pending := true } with
      changed := update k.changed (k.bufs b).id true } := by
  have next := inv.holder holding { k.bufs b with data, pending := true } .idle
    (update k.changed (k.bufs b).id true) rfl rfl rfl rfl rfl
    (fun id different => update_of_ne different ..) (.inl rfl) (.inr rfl)
    (fun unchanged => by rw [update_self] at unchanged; cases unchanged)
  rw [holding.goto_idle] at next
  exact next

theorem logWrite_inv (inv : Inv k) (holding : k.Holding p b)
    (frames : frame = .idle ∨ frame = .writing b) :
    Inv ((k.setBuf b { k.bufs b with dirty := true, pending := false }).goto p frame) := by
  apply inv.holder holding { k.bufs b with dirty := true, pending := false } frame k.changed rfl rfl
    rfl rfl rfl (fun _ _ => rfl) frames (.inl rfl)
  exact (inv.coherent b (inv.used_of_lock holding.2)).unchanged
    (inv.valid_of_lock holding.1 holding.2 rfl)

omit [DecidableEq Proc] [Fintype Proc] in
/-- A process that is not reading a block counts itself in or out, or takes or leaves the sleep
lock. -/
theorem touches_counted {refcnt : Nat}
    (here : k.frames p = before) (isUsed : (k.bufs b).used = true)
    (loads : ∀ c, before.loads c = false)
    (isLeft : ∀ id, id ≠ (k.bufs b).id → left id = k.left id)
    (refs : refcnt + (k.bufs b).held + before.refers b =
      (k.bufs b).refcnt + { k.bufs b with lock, refcnt }.held + frame.refers b)
    (refersOthers : ∀ c, c ≠ b → frame.refers c = before.refers c)
    (lockOthers : ∀ q, q ≠ p → ((k.bufs b).lock = some q ↔ lock = some q))
    (holds : ∀ c, frame.holds c = true → c = b ∧ lock = some p)
    (asked : ∀ c id, frame.asked = some (c, id) → c = b ∧ (k.bufs b).id = id)
    (loading : lock = some p → (k.bufs b).valid = false → frame.loads b = true)
    (pending : (k.bufs b).pending = true → lock ≠ none) :
    Touches k p b { k.bufs b with lock, refcnt } frame k.disk left k.changed where
  usedBefore := isUsed
  used := isUsed
  id := rfl
  disk _ _ := rfl
  left := isLeft
  changed _ _ := rfl
  refs := here ▸ refs
  refersOthers := here ▸ refersOthers
  lockOthers := lockOthers
  holds := holds
  asked := asked
  loading := loading
  loadsOthers c _ isLoading := by
    rw [here, loads] at isLoading
    cases isLoading
  valid := id
  pending := pending

theorem brelse_inv (inv : Inv k) (holding : k.Holding p b)
    (disciplined : (k.bufs b).pending = false) :
    Inv { (k.setBuf b { k.bufs b with lock := none }).goto p (.releasing b) with
      left := update k.left (k.bufs b).id (k.bufs b).data } := by
  obtain ⟨idle, isLock⟩ := holding
  have isValid := inv.valid_of_lock idle isLock rfl
  have isUsed := inv.used_of_lock isLock
  have coherent := inv.coherent b isUsed
  have touches : Touches k p b { k.bufs b with lock := none } (.releasing b) k.disk
      (update k.left (k.bufs b).id (k.bufs b).data) k.changed := by
    apply touches_counted idle isUsed
    case isLeft => exact fun id different => update_of_ne different ..
    case refs => simp [Buf.held, isLock, Frame.refers]
    case refersOthers => exact fun c different => if_neg (Ne.symm different)
    case lockOthers =>
      intro q different
      rw [isLock]
      exact iff_of_false (fun same => different (Option.some.inj same).symm) nofun
    case holds | asked | loading => nofun
    case loads => exact fun _ => rfl
    case pending =>
      intro pending
      rw [disciplined] at pending
      cases pending
  apply inv.touches touches inv.list
  constructor <;> dsimp only <;> rw [update_self]
  case invalid =>
    intro invalid
    rw [isValid] at invalid
    cases invalid
  case clean => exact coherent.clean
  case settled =>
    intro _ _
    rw [update_self]
  case unchanged => exact coherent.unchanged

/-! ## `bread` -/

theorem acquire_inv (inv : Inv k) (here : k.frames p = .acquiring b id)
    (free : (k.bufs b).lock = none) :
    Inv ((k.setBuf b { k.bufs b with lock := some p }).goto p (.testing b id)) := by
  obtain ⟨isUsed, isId⟩ := inv.named here rfl
  have coherent := inv.coherent b isUsed
  have touches : Touches k p b { k.bufs b with lock := some p } (.testing b id) k.disk k.left
      k.changed := by
    apply touches_counted here isUsed
    case isLeft => exact fun _ _ => rfl
    case refs => simp [Buf.held, free, Frame.refers]
    case refersOthers => exact fun c different => (if_neg (Ne.symm different)).symm
    case lockOthers =>
      intro q different
      rw [free]
      exact iff_of_false nofun fun same => different (Option.some.inj same).symm
    case holds => exact fun c holds => ⟨(of_decide_eq_true holds).symm, rfl⟩
    case asked => exact fun _ _ => Frame.asked_eq isId
    case loading => exact fun _ _ => decide_eq_true rfl
    case loads => exact fun _ => rfl
    case pending => exact fun _ => nofun
  apply inv.touches touches inv.list
  -- nobody has held it since the last holder left
  exact coherent.congr (update_self ..) rfl rfl rfl fun _ q lock =>
    absurd (free.symm.trans lock) nofun

/-- `p` goes on inside `bread` of `b`, or returns from it. -/
theorem inside_inv (inv : Inv k) (here : k.frames p = before) (fresh : before.fresh b = true)
    (after : frame.Only b) (asked : ∀ c id, frame.asked = some (c, id) → c = b ∧ (k.bufs b).id = id)
    (loading : (k.bufs b).valid = false → frame.loads b = true) : Inv (k.goto p frame) := by
  have holds := holds_of_fresh fresh
  have isLock := inv.lock_of_holds here holds
  have coherent := inv.coherent b (inv.used_of_lock isLock)
  have touches : Touches k p b (k.bufs b) frame k.disk k.left k.changed := by
    apply inv.touches_held isLock rfl rfl rfl rfl
    case valid => exact fun invalid => invalid
    case isDisk => exact fun _ _ => rfl
    case isChanged => exact fun _ _ => rfl
    case here => exact here
    case only => exact only_of_holds holds
    case after => exact after
    case asked => exact asked
    case loading => exact loading
  have bufs : update k.bufs b (k.bufs b) = k.bufs := update_eq_self ..
  have next := inv.touches touches inv.list
  rw [bufs] at next
  refine next (coherent.congr rfl rfl rfl rfl fun _ q lock => ?_)
  rwa [← some.inj (isLock.symm.trans lock), here]

/-- The transfer of a block, by the process that holds its buffer. -/
theorem iderw_inv (inv : Inv k) (taken : k.iderw b = some next)
    (here : k.frames p = before) (holds : before.holds b = true)
    (cases : (before.fresh b = true ∧ ∃ id, frame = .returns b id ∧ (k.bufs b).id = id) ∨
      frame = .idle) : Inv (next.goto p frame) := by
  have isLock := inv.lock_of_holds here holds
  have isUsed := inv.used_of_lock isLock
  have coherent := inv.coherent b isUsed
  have after : frame.Only b := by
    obtain ⟨-, id, rfl, -⟩ | rfl := cases
    · exact Frame.only_of_holds (decide_eq_true rfl)
    · exact Frame.only_idle b
  have asked : ∀ c id, frame.asked = some (c, id) → c = b ∧ (k.bufs b).id = id := by
    intro c id asked
    obtain ⟨-, id', rfl, isId⟩ | rfl := cases
    · exact Frame.asked_eq isId asked
    · cases asked
  -- whoever comes back from `bwrite` may have changed the data before it
  have settled : ∀ {bufs : Fin nbuf → Buf Proc Data} {disk left changed},
      (bufs b).lock = some p → Kernel.Settled ⟨bufs, k.links, disk,
        update k.frames p frame, left, changed⟩ b → k.Settled b := by
    intro bufs disk left changed lock settled q isHolder
    obtain rfl : p = q := Option.some.inj (isLock.symm.trans isHolder)
    have fresh := settled p lock
    dsimp only at fresh
    rw [update_self] at fresh
    obtain ⟨fresh, -⟩ | rfl := cases
    · exact here ▸ fresh
    · cases fresh
  have moves : ∀ {data dirty disk changed}, (∀ id, id ≠ (k.bufs b).id → disk id = k.disk id) →
      (∀ id, id ≠ (k.bufs b).id → changed id = k.changed id) →
      Touches k p b { k.bufs b with data, dirty, valid := true } frame disk k.left changed := by
    intro data dirty disk changed isDisk isChanged
    apply inv.touches_held isLock
    case used | id | refcnt | lock => rfl
    case valid | loading => nofun
    case isDisk => exact isDisk
    case isChanged => exact isChanged
    case here => exact here
    case only => exact Frame.only_of_holds holds
    case after => exact after
    case asked => exact asked
  unfold Kernel.iderw at taken
  dsimp only at taken
  split at taken
  · rename_i dirty
    cases taken
    have valid : (k.bufs b).valid = true := by
      by_contra invalid
      have clean := (coherent.invalid (Bool.eq_false_iff.mpr invalid)).1
      rw [dirty] at clean
      cases clean
    refine inv.touches (moves (fun id different => ?_) fun id different => ?_) inv.list ?_
    case refine_1 | refine_2 => exact update_of_ne different ..
    constructor <;> dsimp only <;> rw [update_self]
    case invalid => nofun
    case clean =>
      intro _ _ _
      rw [update_self]
    case settled =>
      intro _ isSettled
      exact coherent.settled valid (settled (by rw [update_self]; exact isLock) isSettled)
    case unchanged =>
      intro _ _
      rw [update_self]
  · obtain ⟨-, taken⟩ := Option.ite_none_right_eq_some.mp taken
    rename_i clean invalid
    cases taken
    have invalid : (k.bufs b).valid = false := by simpa using invalid
    apply inv.touches (moves (fun _ _ => rfl) fun _ _ => rfl) inv.list
    constructor <;> dsimp only <;> rw [update_self]
    case invalid => nofun
    case clean => exact fun _ _ _ => rfl
    case settled => exact fun _ _ => (coherent.invalid invalid).2
    case unchanged => exact fun _ _ => rfl

/-! ## `brelse` and the list -/

theorem unref_inv (inv : Inv k) (here : k.frames p = .releasing b) :
    Inv ((k.unref b).goto p .idle) := by
  have refers : (k.frames p).refers b = 1 := by
    rw [here]
    exact if_pos rfl
  have counted : 0 < (k.bufs b).refcnt := by
    have refs := inv.refs b
    have some_ref := le_sum (fun q => (k.frames q).refers b) p
    omega
  have isUsed := inv.used_of_refcnt counted
  have coherent := inv.coherent b isUsed
  have touches : Touches k p b { k.bufs b with refcnt := (k.bufs b).refcnt - 1 } .idle k.disk
      k.left k.changed := by
    apply touches_counted here isUsed
    case isLeft => exact fun _ _ => rfl
    case refs =>
      simp only [Frame.refers]
      show (k.bufs b).refcnt - 1 + (k.bufs b).held + 1 = (k.bufs b).refcnt + (k.bufs b).held + 0
      omega
    case refersOthers => exact fun c different => (if_neg (Ne.symm different)).symm
    case lockOthers => exact fun _ _ => Iff.rfl
    case holds | asked => nofun
    case loading =>
      -- a holder in the middle of `bread` is another process
      intro lock invalid
      exact absurd (inv.valid_of_lock here lock rfl) (by simp [invalid])
    case loads => exact fun _ => rfl
    case pending => exact inv.pending b
  have stillCoherent := coherent.kept p ((k.bufs b).refcnt - 1) .idle rfl
  unfold Kernel.unref
  dsimp only
  split
  · apply inv.touches touches _ (stillCoherent _)
    obtain ⟨order, ring, all, names⟩ := inv.list
    obtain ⟨xs, ys, rfl⟩ := List.append_of_mem (all b)
    refine ⟨b :: (xs ++ ys), ring.toFront, ?_, names.blank, names.distinct, ?_⟩
    · intro c
      have inside := all c
      simp only [List.mem_append, List.mem_cons] at inside ⊢
      tauto
    · -- in front of everything stands a buffer that has been handed out
      rw [List.pairwise_cons]
      refine ⟨fun c _ unused => absurd isUsed (Bool.eq_false_iff.mp unused), ?_⟩
      exact names.first.sublist ((List.Sublist.refl xs).append (List.sublist_cons_self b ys))
  · exact inv.touches touches inv.list (stillCoherent _)

/-! ## `bget` -/

omit [DecidableEq Proc] [Fintype Proc] in
theorem Names.rename {bufs : Fin nbuf → Buf Proc Data} {xs ys : List (Fin nbuf)}
    (names : Names bufs (xs ++ b :: ys)) (nodup : (xs ++ b :: ys).Nodup)
    (missing : ∀ c, (bufs c).used = true → (bufs c).id ≠ id)
    (inFront : id = ⟨0, 0⟩ → ∀ c ∈ xs, (bufs c).used = true)
    (used : buf.used = true) (isId : buf.id = id) :
    Names (update bufs b buf) (xs ++ b :: ys) := by
  constructor
  case blank =>
    intro c unused
    induction c using update_cases with
    | own =>
      rw [used] at unused
      cases unused
    | others c _ => exact names.blank c unused
  case distinct =>
    intro c d usedC usedD sameId
    induction c using update_cases with
    | own =>
      induction d using update_cases with
      | own => rfl
      | others d _ => exact absurd (sameId.symm.trans isId) (missing d usedD)
    | others c _ =>
      induction d using update_cases with
      | own => exact absurd (sameId.trans isId) (missing c usedC)
      | others d _ => exact names.distinct c d usedC usedD sameId
  case first =>
    have notYs : b ∉ ys :=
      fun inYs => (nodup_cons.mp (nodup_middle.mp nodup)).1 (mem_append_right _ inYs)
    have before : (xs ++ b :: ys).Pairwise fun c d => d = b → c ∈ xs := by
      rw [pairwise_append, pairwise_cons]
      refine ⟨pairwise_of_forall_mem_list fun c inXs _ _ _ => inXs, ⟨?_, ?_⟩,
        fun c inXs _ _ _ => inXs⟩
      · exact fun d inYs same => absurd (same ▸ inYs) notYs
      · exact pairwise_of_forall_mem_list fun c _ d inYs same => absurd (same ▸ inYs) notYs
    refine (names.first.and before).imp ?_
    rintro c d ⟨first, inXs⟩ unused usedD
    induction c using update_cases with
    | own =>
      rw [used] at unused
      cases unused
    | others c _ =>
      induction d using update_cases with
      | own =>
        intro isZero
        exact absurd (inFront (isId.symm.trans isZero) c (inXs rfl)) (Bool.eq_false_iff.mp unused)
      | others d _ => exact first unused usedD

section Free

variable (inv : Inv k) (free : (k.bufs b).refcnt = 0)
include inv free
omit [DecidableEq Proc]

theorem Inv.unlocked : (k.bufs b).lock = none := by
  have refs := inv.refs b
  by_contra locked
  rw [Buf.held, if_neg locked] at refs
  omega

theorem Inv.not_pending : (k.bufs b).pending = false := by
  by_contra pending
  exact inv.pending b (Bool.eq_true_of_not_eq_false pending) (inv.unlocked free)

/-- What a block would read from the disk is what the cache has for it. -/
theorem Inv.synced (clean : (k.bufs b).dirty = false) (used : (k.bufs b).used = true) :
    k.disk (k.bufs b).id = k.left (k.bufs b).id := by
  have coherent := inv.coherent b used
  cases valid : (k.bufs b).valid with
  | false => exact (coherent.invalid valid).2
  | true =>
    rw [← coherent.clean valid clean (inv.not_pending free)]
    exact coherent.settled valid fun q lock => absurd ((inv.unlocked free).symm.trans lock) nofun

/-- Whoever `bget` has found the buffer for is counted, or holds it. -/
theorem Inv.not_asked (q : Proc) (id : Id) : (k.frames q).asked ≠ some (b, id) := by
  intro asked
  cases frame : k.frames q with
  | acquiring c id' =>
    have refs := inv.refs b
    have some_ref := le_sum (fun q => (k.frames q).refers b) q
    rw [frame] at asked
    rw [frame, Frame.refers, if_pos (Frame.asked_eq rfl asked).1.symm] at some_ref
    omega
  | testing c id' | reading c id' | returns c id' =>
    rw [frame] at asked
    have lock := inv.lock_of_holds frame (decide_eq_true (Frame.asked_eq rfl asked).1.symm)
    rw [inv.unlocked free] at lock
    cases lock
  | idle | writing c | releasing c =>
    rw [frame] at asked
    cases asked

end Free

omit [DecidableEq Proc] in
/-- A buffer without references that is not dirty gets another block, or is used for the first
time for the block that all buffers carry at the beginning. -/
theorem Inv.rename (inv : Inv k) {xs ys : List (Fin nbuf)} (ring : k.links.Ring (xs ++ b :: ys))
    (all : ∀ c, c ∈ xs ++ b :: ys) (names : Names k.bufs (xs ++ b :: ys))
    (free : (k.bufs b).refcnt = 0) (clean : (k.bufs b).dirty = false)
    (missing : ∀ c, (k.bufs c).used = true → (k.bufs c).id ≠ id)
    (inFront : id = ⟨0, 0⟩ → ∀ c ∈ xs, (k.bufs c).used = true) :
    Inv (k.setBuf b { k.bufs b with id, valid := false, dirty := false, used := true }) := by
  have unlocked := inv.unlocked free
  have notPending := inv.not_pending free
  constructor <;> simp [Kernel.setBuf]
  case list => exact ⟨xs ++ b :: ys, ring, all, names.rename ring.nodup missing inFront rfl rfl⟩
  case untouched =>
    intro c unused
    induction c using update_cases with
    | own => cases unused
    | others c _ => exact inv.untouched c unused
  case refs =>
    intro c
    induction c using update_cases with
    | own => exact inv.refs b
    | others c _ => exact inv.refs c
  case holds =>
    intro q c holds
    have lock := inv.holds q c holds
    have same : c ≠ b := by
      rintro rfl
      rw [unlocked] at lock
      cases lock
    rw [update_of_ne same]
    exact lock
  case asked =>
    intro q c id' asked
    have same : c ≠ b := by
      rintro rfl
      exact inv.not_asked free q id' asked
    rw [update_of_ne same]
    exact inv.asked q c id' asked
  case loading =>
    intro c q lock invalid
    have same : c ≠ b := by
      rintro rfl
      rw [update_self] at lock
      exact absurd (unlocked.symm.trans lock) nofun
    rw [update_of_ne same] at lock invalid
    exact inv.loading c q lock invalid
  case pending =>
    intro c pending
    induction c using update_cases with
    | own =>
      rw [notPending] at pending
      cases pending
    | others c _ => exact inv.pending c pending
  case coherent =>
    intro c used
    by_cases same : c = b
    · rw [same]
      constructor <;> dsimp only <;> rw [update_self]
      case invalid => exact fun _ => ⟨rfl, inv.absent id missing⟩
      case clean | settled | unchanged => nofun
    · rw [update_of_ne same] at used
      refine (inv.coherent c used).congr (update_of_ne same ..) rfl rfl rfl fun settled q lock => ?_
      exact settled q (by dsimp only; rw [update_of_ne same]; exact lock)
  case absent =>
    intro id' absent
    by_cases old : (k.bufs b).used = true ∧ (k.bufs b).id = id'
    · rw [← old.2]
      exact inv.synced free clean old.1
    · apply inv.absent
      intro c used isId
      by_cases same : c = b
      · subst same
        exact old ⟨used, isId⟩
      · have other := absent c
        rw [update_of_ne same] at other
        exact other used isId

theorem Inv.asks (inv : Inv k) (p : Proc) (b : Fin nbuf) (id : Id) (idle : k.frames p = .idle)
    (isUsed : (k.bufs b).used = true) (isId : (k.bufs b).id = id) :
    Inv ((k.setBuf b { k.bufs b with refcnt := (k.bufs b).refcnt + 1 }).goto p
      (.acquiring b id)) := by
  have coherent := inv.coherent b isUsed
  have touches : Touches k p b { k.bufs b with refcnt := (k.bufs b).refcnt + 1 }
      (.acquiring b id) k.disk k.left k.changed := by
    apply touches_counted idle isUsed
    case isLeft => exact fun _ _ => rfl
    case refs =>
      simp only [Frame.refers]
      show (k.bufs b).refcnt + 1 + (k.bufs b).held + 0 = (k.bufs b).refcnt + (k.bufs b).held + 1
      omega
    case refersOthers => exact fun c different => if_neg (Ne.symm different)
    case lockOthers => exact fun _ _ => Iff.rfl
    case holds => nofun
    case asked => exact fun _ _ => Frame.asked_eq isId
    case loading =>
      intro lock invalid
      exact absurd (inv.valid_of_lock idle lock rfl) (by simp [invalid])
    case loads => exact fun _ => rfl
    case pending => exact inv.pending b
  exact inv.touches touches inv.list (coherent.kept p _ _ rfl k.links)

theorem length_le (nodup : order.Nodup) : order.length ≤ nbuf := by
  have bound := nodup.length_le_card
  rwa [Fintype.card_fin] at bound

omit [DecidableEq Proc] [Fintype Proc] in
theorem lookup_eq (ring : k.links.Ring order) (id : Id) :
    k.lookup id = order.find? fun b => (k.bufs b).id = id :=
  ring.scan_next _ (length_le ring.nodup)

omit [DecidableEq Proc] [Fintype Proc] in
theorem unused_eq (ring : k.links.Ring order) :
    k.unused = order.reverse.find? fun b => (k.bufs b).refcnt = 0 && !(k.bufs b).dirty :=
  ring.scan_prev _ (length_le ring.nodup)

theorem bget_inv (inv : Inv k) (idle : k.frames p = .idle)
    (taken : k.bget p id = some next) : Inv next := by
  obtain ⟨order, ring, all, names⟩ := inv.list
  unfold bget at taken
  rw [lookup_eq ring, unused_eq ring] at taken
  split at taken
  · rename_i b found
    cases taken
    rw [find?_eq_some_iff_append] at found
    obtain ⟨isId, xs, ys, rfl, notBefore⟩ := found
    have isId := of_decide_eq_true isId
    cases isUsed : (k.bufs b).used with
    | true =>
      have next := inv.asks p b id idle isUsed isId
      rw [← isUsed]
      exact next
    | false =>
      -- the first use of a buffer that carries block 0 of device 0
      obtain ⟨invalid, clean, free⟩ := inv.untouched b isUsed
      have isZero := names.blank b isUsed
      rw [isId] at isZero
      have missing : ∀ c, (k.bufs c).used = true → (k.bufs c).id ≠ id := by
        intro c used same
        obtain inXs | inRest := mem_append.mp (all c)
        · have differs := notBefore c inXs
          rw [same, decide_eq_true rfl] at differs
          cases differs
        · obtain rfl | inYs := mem_cons.mp inRest
          · rw [isUsed] at used
            cases used
          · have across := (pairwise_cons.mp (pairwise_append.mp names.first).2.1).1 c inYs
            exact across isUsed used (same.trans isZero)
      have inFront : id = ⟨0, 0⟩ → ∀ c ∈ xs, (k.bufs c).used = true := by
        intro _ c inXs
        by_contra unused
        have differs := notBefore c inXs
        rw [names.blank c (Bool.eq_false_iff.mpr unused), isZero] at differs
        cases differs
      have renamed := inv.rename ring all names free clean missing inFront
      have next := renamed.asks p b id idle
        (by simp [setBuf])
        (by simp [setBuf])
      simp only [setBuf, update_self, update_idem] at next ⊢
      rw [invalid, clean, isId]
      exact next
  · rename_i notFound
    split at taken
    · rename_i b found
      cases taken
      have missing : ∀ c, (k.bufs c).id ≠ id := by
        intro c same
        have differs := find?_eq_none.mp notFound c (all c)
        exact differs (decide_eq_true same)
      have recyclable := find?_some found
      rw [Bool.and_eq_true, decide_eq_true_eq, Bool.not_eq_true'] at recyclable
      obtain ⟨free, clean⟩ := recyclable
      obtain ⟨xs, ys, rfl⟩ := append_of_mem (all b)
      have renamed := inv.rename ring all names free clean (fun c _ => missing c) (by
        intro isZero c _
        by_contra unused
        exact missing c ((names.blank c (Bool.eq_false_iff.mpr unused)).trans isZero.symm))
      have next := renamed.asks p b id idle
        (by simp [setBuf])
        (by simp [setBuf])
      simp only [setBuf, update_self, update_idem, free] at next ⊢
      exact next
    · cases taken

/-! ## Whole runs -/

theorem run_inv (inv : Inv k) (taken : k.run p = some next) : Inv next := by
  unfold Kernel.run at taken
  split at taken
  · cases taken
  · rename_i b id here
    obtain ⟨free, rfl⟩ := of_guard taken
    exact acquire_inv inv here free
  · rename_i b id here
    have isId := (inv.named here rfl).2
    split at taken
    case isTrue valid =>
      cases taken
      refine inside_inv inv here (decide_eq_true rfl) (Frame.only_of_holds (decide_eq_true rfl))
        (fun _ _ => Frame.asked_eq isId) fun invalid => ?_
      rw [invalid] at valid
      cases valid
    case isFalse =>
      cases taken
      exact inside_inv inv here (decide_eq_true rfl) (Frame.only_of_holds (decide_eq_true rfl))
        (fun _ _ => Frame.asked_eq isId) fun _ => decide_eq_true rfl
  · rename_i b id here
    obtain ⟨moved, transfer, rfl⟩ := Option.map_eq_some_iff.mp taken
    exact iderw_inv inv transfer here (decide_eq_true rfl)
      (.inl ⟨decide_eq_true rfl, id, rfl, (inv.named here rfl).2⟩)
  · rename_i b id here
    cases taken
    refine inside_inv inv here (decide_eq_true rfl) (Frame.only_idle b) nofun fun invalid => ?_
    have lock := inv.lock_of_holds here (decide_eq_true rfl)
    exact absurd (inv.valid_of_lock here lock rfl) (by simp [invalid])
  · rename_i b here
    obtain ⟨moved, transfer, rfl⟩ := Option.map_eq_some_iff.mp taken
    exact iderw_inv inv transfer here (decide_eq_true rfl) (.inr rfl)
  · rename_i b here
    cases taken
    exact unref_inv inv here

theorem step_inv (inv : Inv k) (disciplined : Disciplined k label)
    (taken : step k label = some next) : Inv next := by
  cases label with
  | bread p id =>
    simp only [step, ite_none_right_eq_some] at taken
    exact bget_inv inv taken.1 taken.2
  | modify p b data =>
    obtain ⟨holding, rfl⟩ := of_guard taken
    exact modify_inv inv holding data
  | logWrite p b =>
    obtain ⟨holding, rfl⟩ := of_guard taken
    have next := logWrite_inv inv holding (.inl rfl)
    simp only [goto, setBuf, holding.goto_idle] at next
    exact next
  | bwrite p b =>
    obtain ⟨holding, rfl⟩ := of_guard taken
    exact logWrite_inv inv holding (.inr rfl)
  | brelse p b =>
    obtain ⟨holding, rfl⟩ := of_guard taken
    exact brelse_inv inv holding disciplined
  | run p => exact run_inv inv taken

theorem binit_ring (links : Links (Fin nbuf)) :
    (binit links).Ring (List.finRange nbuf).reverse := by
  have empty : ((links.setPrev none none).setNext none none).Ring [] := by
    refine ⟨nodup_nil, ?_, ?_⟩
    · simp [Links.setNext]
    · simp [Links.setNext, Links.setPrev]
  have built := empty.foldl_pushFront (finRange nbuf) (fun _ _ => not_mem_nil)
    (nodup_finRange nbuf)
  rwa [append_nil] at built

omit [DecidableEq Proc] in
theorem inv_initial (initial : Initial k) : Inv k := by
  constructor
  case list =>
    obtain ⟨links, isBinit⟩ := initial.links
    refine ⟨(List.finRange nbuf).reverse, ?_, ?_, ?_, ?_, ?_⟩
    · rw [isBinit]
      exact binit_ring links
    · exact fun b => List.mem_reverse.mpr (List.mem_finRange b)
    · exact fun b _ => initial.id b
    · intro b c used
      rw [initial.used] at used
      cases used
    · refine List.pairwise_of_forall ?_
      intro b c _ used
      rw [initial.used] at used
      cases used
  case untouched => exact fun b _ => ⟨initial.valid b, initial.dirty b, initial.refcnt b⟩
  case refs =>
    intro b
    simp [initial.refcnt, Buf.held, initial.lock, initial.idle, Frame.refers]
  case holds | asked =>
    intro p b
    rw [initial.idle]
    nofun
  case loading =>
    intro b p lock
    rw [initial.lock] at lock
    cases lock
  case pending =>
    intro b pending
    rw [initial.pending] at pending
    cases pending
  case coherent =>
    intro b used
    rw [initial.used] at used
    cases used
  case absent =>
    intro id _
    rw [initial.left]

theorem reachable_inv (reachable : system.ReachableWhen Disciplined k) : Inv k := by
  refine reachable.invariant inv_initial ?_
  intro state label next _ inv disciplined taken
  exact step_inv inv disciplined taken

/-! ## The cache -/

omit [DecidableEq Proc] [Fintype Proc] in
theorem setBuf_id (k : Kernel nbuf Proc Data) (same : buf.id = (k.bufs b).id)
    (c : Fin nbuf) : ((k.setBuf b buf).bufs c).id = (k.bufs c).id := by
  simp only [setBuf]
  exact update_congr same c

omit [DecidableEq Proc] [Fintype Proc] in
theorem iderw_id (taken : k.iderw b = some next) (c : Fin nbuf) :
    (next.bufs c).id = (k.bufs c).id := by
  unfold iderw at taken
  dsimp only at taken
  split at taken
  · cases taken
    exact setBuf_id k (by rfl) c
  · obtain ⟨-, rfl⟩ := of_guard taken
    exact setBuf_id k (by rfl) c

omit [Fintype Proc] in
theorem run_id (taken : k.run p = some next) (c : Fin nbuf) :
    (next.bufs c).id = (k.bufs c).id := by
  unfold run at taken
  split at taken
  · cases taken
  · obtain ⟨-, rfl⟩ := of_guard taken
    exact setBuf_id k (by rfl) c
  · split at taken <;> cases taken <;> rfl
  · obtain ⟨moved, transfer, rfl⟩ := map_eq_some_iff.mp taken
    exact iderw_id transfer c
  · cases taken
    rfl
  · obtain ⟨moved, transfer, rfl⟩ := map_eq_some_iff.mp taken
    exact iderw_id transfer c
  · rename_i b _
    cases taken
    simp only [goto, unref]
    split
    · exact setBuf_id k (by rfl) c
    · exact setBuf_id k (by rfl) c

/-- Only `bget` gives a buffer another block, and it takes one without references that is not
dirty. -/
theorem bget_id (inv : Inv k) (taken : k.bget p id = some next) (c : Fin nbuf)
    (pinned : 0 < (k.bufs c).refcnt ∨ (k.bufs c).dirty = true) :
    (next.bufs c).id = (k.bufs c).id := by
  obtain ⟨order, ring, -, -⟩ := inv.list
  unfold bget at taken
  rw [unused_eq ring] at taken
  split at taken
  · cases taken
    exact setBuf_id k (by rfl) c
  · split at taken
    · rename_i b found
      cases taken
      have recyclable := find?_some found
      rw [Bool.and_eq_true, decide_eq_true_eq, Bool.not_eq_true'] at recyclable
      have other : c ≠ b := by
        rintro rfl
        obtain counted | dirty := pinned
        · omega
        · rw [recyclable.2] at dirty
          cases dirty
      simp [goto, setBuf, update_of_ne other]
    · cases taken

theorem step_id (inv : Inv k) (taken : step k label = some next)
    (c : Fin nbuf) (pinned : 0 < (k.bufs c).refcnt ∨ (k.bufs c).dirty = true) :
    (next.bufs c).id = (k.bufs c).id := by
  cases label with
  | bread p id =>
    simp only [step, ite_none_right_eq_some] at taken
    exact bget_id inv taken.2 c pinned
  | modify p b data | logWrite p b | bwrite p b | brelse p b =>
    obtain ⟨-, rfl⟩ := of_guard taken
    exact setBuf_id k (by rfl) c
  | run p => exact run_id taken c

/-- The buffer cache is transparent, in every state of a disciplined run:
* no two buffers with references carry the same block;
* the pointers link all buffers in one ring, in both directions;
* no step gives another block to a buffer that has references or is dirty;
* `bread` returns, for the block it was asked for, what the last holder left, and what the disk
  has if the block has not been changed since it was written there. -/
theorem buffer_cache_transparent (k : Kernel nbuf Proc Data)
    (reachable : system.ReachableWhen Disciplined k) :
    (∀ b c, 0 < (k.bufs b).refcnt → 0 < (k.bufs c).refcnt → (k.bufs b).id = (k.bufs c).id →
        b = c) ∧
      (∃ order, order.Perm (List.finRange nbuf) ∧ k.links.Path none order none) ∧
      (∀ label next b, step k label = some next →
        0 < (k.bufs b).refcnt ∨ (k.bufs b).dirty = true →
        (next.bufs b).id = (k.bufs b).id) ∧
      ∀ p b id, k.frames p = .returns b id →
        (k.bufs b).id = id ∧ (k.bufs b).data = k.left id ∧
          (k.changed id = false → (k.bufs b).data = k.disk id) := by
  have inv := reachable_inv reachable
  obtain ⟨order, ring, all, names⟩ := inv.list
  refine ⟨?_, ⟨order, ?_, ring.path⟩, ?_, ?_⟩
  · intro b c countedB countedC same
    exact names.distinct b c (inv.used_of_refcnt countedB) (inv.used_of_refcnt countedC) same
  · exact (List.perm_ext_iff_of_nodup ring.nodup (List.nodup_finRange nbuf)).mpr
      fun b => iff_of_true (all b) (List.mem_finRange b)
  · exact fun label next b taken pinned => step_id inv taken b pinned
  · intro p b id here
    obtain ⟨isUsed, rfl⟩ := inv.named here rfl
    have isLock := inv.lock_of_holds here (decide_eq_true rfl)
    have coherent := inv.coherent b isUsed
    have valid := inv.valid_of_lock here isLock rfl
    have settled : k.Settled b := by
      intro q lock
      obtain rfl : p = q := Option.some.inj (isLock.symm.trans lock)
      rw [here]
      exact decide_eq_true rfl
    exact ⟨rfl, coherent.settled valid settled, coherent.unchanged valid⟩

end

/-- One process changes a block and leaves it to the log, another one reads it. -/
theorem logged_block_read :
    ∃ k : Kernel 2 (Fin 2) Nat, system.ReachableWhen Disciplined k ∧
      k.frames 1 = .returns 0 ⟨1, 7⟩ ∧ (k.bufs 0).data = 5 ∧
      (k.bufs 0).data = k.left ⟨1, 7⟩ ∧ k.disk ⟨1, 7⟩ = 0 := by
  let start : Kernel 2 (Fin 2) Nat :=
    { bufs := fun _ => ⟨⟨0, 0⟩, false, false, 0, none, 9, false, false⟩
      links := binit ⟨fun _ => none, fun _ => none⟩, disk := fun _ => 0, frames := fun _ => .idle
      left := fun _ => 0, changed := fun _ => false }
  have initial : Initial start :=
    ⟨⟨_, rfl⟩, fun _ => rfl, fun _ => rfl, fun _ => rfl, fun _ => rfl, fun _ => rfl, fun _ => rfl,
      fun _ => rfl, fun _ => rfl, rfl, fun _ => rfl⟩
  have ran : ∃ k ∈ system.runWhen Disciplined start
      [.bread 0 ⟨1, 7⟩, .run 0, .run 0, .run 0, .run 0, .modify 0 0 5, .logWrite 0 0, .brelse 0 0,
        .run 0, .bread 1 ⟨1, 7⟩, .run 1, .run 1],
      k.frames 1 = .returns 0 ⟨1, 7⟩ ∧ (k.bufs 0).data = 5 ∧ k.disk ⟨1, 7⟩ = 0 := by
    decide +kernel
  obtain ⟨k, reachable, returns, data, disk⟩ :=
    System.ReachableWhen.exists_of_runWhen (.init initial) ran
  obtain ⟨-, -, -, transparent⟩ := buffer_cache_transparent k reachable
  exact ⟨k, reachable, returns, data, (transparent 1 0 _ returns).2.1, disk⟩

end Laboratorio.Xv6.Bio
