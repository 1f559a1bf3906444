import Laboratorio.Xv6.Bio.Coherence

/-! # How many buffers a process uses

A process uses a buffer from the `bget` that hands it out to the end of its `brelse`: these are
the references that `refcnt` counts.  Only `bget` adds one to those of its process
(`bget_counted`), and only the end of `brelse` takes one away (`run_counted`).  When the
references and the dirty buffers are fewer than the buffers, `bget` has one to recycle
(`Inv.exists_unused`).
-/

namespace Laboratorio.Xv6.Bio

open Laboratorio.Lib Function Bio.Frame Finset Buf Kernel

variable {nbuf : Nat} {Proc Data : Type} [DecidableEq Proc] {k next : Kernel nbuf Proc Data}
  {p q : Proc} {b : Fin nbuf} {frame : Frame nbuf}

/-- On the way to a sleep lock, or from it. -/
def Frame.refs : Frame nbuf → Nat
  | .acquiring _ _ | .releasing _ => 1
  | _ => 0

/-- After `releasesleep`, before `refcnt` is decremented. -/
def Frame.releases : Frame nbuf → Nat
  | .releasing _ => 1
  | _ => 0

def Buf.lockedBy (p : Proc) (buf : Buf Proc Data) : Nat := if buf.lock = some p then 1 else 0

def Kernel.uses (k : Kernel nbuf Proc Data) (p : Proc) : Nat :=
  ∑ b, (k.bufs b).lockedBy p + (k.frames p).refs

/-- The buffers with `B_DIRTY`. -/
def Kernel.dirties (k : Kernel nbuf Proc Data) : Nat := ∑ b, (k.bufs b).dirty.toNat

/-! ## The references -/

theorem sum_refers (frame : Frame nbuf) : ∑ b, frame.refers b = frame.refs := by
  cases frame with
  | acquiring c id => simp [refers, refs]
  | releasing c => simp [refers, refs]
  | idle | testing | reading | returns | writing => exact sum_const_zero

theorem sum_lockedBy [Fintype Proc] (buf : Buf Proc Data) : ∑ p, buf.lockedBy p = buf.held := by
  cases lock : buf.lock with
  | none => simp [lockedBy, held, lock]
  | some p => simp [lockedBy, held, lock]

/-- The processes together use as many buffers as `refcnt` counts. -/
theorem Inv.sum_uses [Fintype Proc] (inv : Inv k) : ∑ p, k.uses p = ∑ b, (k.bufs b).refcnt := by
  have locks : ∑ p, ∑ b, (k.bufs b).lockedBy p = ∑ b, (k.bufs b).held := by
    rw [sum_comm]
    exact sum_congr rfl fun b _ => sum_lockedBy (k.bufs b)
  have frames : ∑ p, (k.frames p).refs = ∑ b, ∑ p, (k.frames p).refers b := by
    rw [sum_comm]
    exact sum_congr rfl fun p _ => (sum_refers (k.frames p)).symm
  simp [inv.refs, uses, sum_add_distrib, locks, frames]

theorem Inv.exists_unused [Fintype Proc] (inv : Inv k) (few : k.dirties + ∑ p, k.uses p < nbuf) :
    ∃ b, (k.bufs b).refcnt = 0 ∧ (k.bufs b).dirty = false := by
  by_contra none
  have busy : ∀ b, 1 ≤ (k.bufs b).dirty.toNat + (k.bufs b).refcnt := by
    intro b
    cases dirty : (k.bufs b).dirty with
    | true => exact Nat.le_add_right 1 _
    | false =>
      have counted : (k.bufs b).refcnt ≠ 0 := fun zero => none ⟨b, zero, dirty⟩
      exact Nat.le_trans (Nat.one_le_iff_ne_zero.mpr counted) (Nat.le_add_left _ _)
  have all : nbuf ≤ ∑ b, ((k.bufs b).dirty.toNat + (k.bufs b).refcnt) :=
    calc nbuf = ∑ _b : Fin nbuf, 1 := by simp
      _ ≤ _ := sum_le_sum fun b _ => busy b
  rw [sum_add_distrib, ← inv.sum_uses] at all
  exact absurd few (Nat.not_lt.mpr all)

/-! ## Steps -/

/-- What a step of `p` does to the references, if nobody has changed data.  `frame` is where the
step leaves the process. -/
structure Counted (k : Kernel nbuf Proc Data) (p : Proc) (takes gives : Nat) (frame : Frame nbuf)
    (next : Kernel nbuf Proc Data) : Prop where
  own : next.uses p + gives = k.uses p + takes
  others : ∀ q, q ≠ p → next.uses q = k.uses q ∧ next.frames q = k.frames q
  frame : next.frames p = frame
  calm : (∀ b, (k.bufs b).pending = false) → ∀ b, (next.bufs b).pending = false

theorem Counted.same (counted : Counted k p 0 0 frame next) : next.uses p = k.uses p :=
  counted.own

theorem counted_of_update (b : Fin nbuf) (buf : Buf Proc Data)
    {takes gives : Nat} (bufs : next.bufs = update k.bufs b buf)
    (frames : next.frames = update k.frames p frame)
    (locks : ∀ q, q ≠ p → buf.lockedBy q = (k.bufs b).lockedBy q)
    (balance : buf.lockedBy p + frame.refs + gives =
      (k.bufs b).lockedBy p + (k.frames p).refs + takes)
    (calm : (k.bufs b).pending = false → buf.pending = false) :
    Counted k p takes gives frame next := by
  have sum : ∀ q, ∑ c, (next.bufs c).lockedBy q + (k.bufs b).lockedBy q =
      ∑ c, (k.bufs c).lockedBy q + buf.lockedBy q := by
    intro q
    rw [bufs]
    exact sum_update (lockedBy q) k.bufs b buf
  constructor
  · have mine := sum p
    simp only [uses, frames, update_self]
    omega
  · intro q other
    have same := sum q
    have lock := locks q other
    simp only [uses, frames, update_of_ne other]
    exact ⟨by omega, trivial⟩
  · rw [frames, update_self]
  · intro before
    rw [bufs]
    exact (forall_update_iff k.bufs (p := fun _ buf => buf.pending = false)).mpr
      ⟨calm (before b), fun c _ => before c⟩

theorem bget_counted {id : Id} (idle : k.frames p = .idle) (taken : k.bget p id = some next) :
    ∃ b, Counted k p 1 0 (.acquiring b id) next := by
  unfold bget at taken
  split at taken
  · rename_i b _
    cases taken
    exact ⟨b, counted_of_update b _ rfl rfl (fun _ _ => rfl) (by rw [idle]; rfl) fun calm => calm⟩
  · split at taken
    · rename_i b _
      cases taken
      exact ⟨b, counted_of_update b _ rfl rfl (fun _ _ => rfl) (by rw [idle]; rfl) fun calm => calm⟩
    · cases taken

theorem logWrite_counted (taken : step k (.logWrite p b) = some next) :
    Counted k p 0 0 .idle next := by
  obtain ⟨holding, rfl⟩ := of_guard taken
  refine counted_of_update b _ rfl ?_ (fun _ _ => rfl) (by rw [holding.1]; rfl) fun _ => rfl
  rw [← holding.1, update_eq_self]
  rfl

theorem bwrite_counted (taken : step k (.bwrite p b) = some next) :
    k.frames p = .idle ∧ Counted k p 0 0 (.writing b) next := by
  obtain ⟨⟨idle, -⟩, rfl⟩ := of_guard taken
  exact ⟨idle, counted_of_update b _ rfl rfl (fun _ _ => rfl) (by rw [idle]; rfl) fun _ => rfl⟩

theorem brelse_counted (taken : step k (.brelse p b) = some next) :
    k.frames p = .idle ∧ Counted k p 0 0 (.releasing b) next := by
  obtain ⟨⟨idle, lock⟩, rfl⟩ := of_guard taken
  refine ⟨idle, counted_of_update b { k.bufs b with lock := none } rfl rfl ?_ ?_ fun calm => calm⟩
  · intro q other
    simp [lockedBy, lock, other.symm]
  · simp [lockedBy, lock, idle, refs]

omit [DecidableEq Proc] in
theorem iderw_cases (taken : k.iderw b = some next) : ∃ data dirty valid,
    next.bufs = update k.bufs b { k.bufs b with data, dirty, valid } ∧
      next.frames = k.frames := by
  unfold iderw at taken
  dsimp only at taken
  split at taken
  · cases taken
    exact ⟨_, _, _, rfl, rfl⟩
  · obtain ⟨-, rfl⟩ := of_guard taken
    exact ⟨_, _, _, rfl, rfl⟩

theorem iderw_counted {moved : Kernel nbuf Proc Data} (taken : k.iderw b = some moved)
    (refs : frame.refs = (k.frames p).refs) : Counted k p 0 0 frame (moved.goto p frame) := by
  obtain ⟨data, dirty, valid, bufs, frames⟩ := iderw_cases taken
  refine counted_of_update b _ bufs ?_ (fun _ _ => rfl) ?_ fun calm => calm
  · rw [goto, frames]
  · rw [refs]
    rfl

theorem goto_counted (b : Fin nbuf) (refs : frame.refs = (k.frames p).refs) :
    Counted k p 0 0 frame (k.goto p frame) := by
  refine counted_of_update b (k.bufs b) ?_ rfl (fun _ _ => rfl) (by rw [refs]) fun calm => calm
  rw [update_eq_self]
  rfl

/-- Inside a call, only the end of `brelse` gives a buffer up. -/
theorem run_counted (taken : k.run p = some next) :
    ∃ frame, Counted k p 0 (k.frames p).releases frame next ∧ frame.releases = 0 := by
  unfold run at taken
  split at taken
  · cases taken
  · rename_i b id here
    obtain ⟨free, rfl⟩ := of_guard taken
    refine ⟨_, counted_of_update b _ rfl rfl ?_ ?_ fun calm => calm, rfl⟩
    · intro q other
      simp [lockedBy, free, other.symm]
    · simp [lockedBy, free, here, refs, releases]
  · rename_i b id here
    rw [here]
    split at taken
    · cases taken
      exact ⟨_, goto_counted b (by rw [here]; rfl), rfl⟩
    · cases taken
      exact ⟨_, goto_counted b (by rw [here]; rfl), rfl⟩
  · rename_i b id here
    obtain ⟨moved, transfer, rfl⟩ := Option.map_eq_some_iff.mp taken
    rw [here]
    exact ⟨_, iderw_counted transfer (by rw [here]; rfl), rfl⟩
  · rename_i b id here
    cases taken
    rw [here]
    exact ⟨_, goto_counted b (by rw [here]; rfl), rfl⟩
  · rename_i b here
    obtain ⟨moved, transfer, rfl⟩ := Option.map_eq_some_iff.mp taken
    rw [here]
    exact ⟨_, iderw_counted transfer (by rw [here]; rfl), rfl⟩
  · rename_i b here
    cases taken
    refine ⟨.idle, counted_of_update b { k.bufs b with refcnt := (k.bufs b).refcnt - 1 } ?_ ?_
      (fun _ _ => rfl) (by rw [here]; rfl) fun calm => calm, rfl⟩
    · simp only [unref]
      split <;> rfl
    · simp only [unref]
      split <;> rfl

end Laboratorio.Xv6.Bio
