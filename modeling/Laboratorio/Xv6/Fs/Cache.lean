import Laboratorio.Xv6.Fs.Primitives
import Laboratorio.Xv6.Fs.Tree

/-! # The inode cache and the inode table

What the cache knows about the inode table while a call runs alone: an unlinked inode is in
the cache, valid, and somebody refers to it; so the last `iput` finds it and frees it.

Two sets of invariants of the inode table are carried along, chosen by two flags.

* `strict` — link counts are exact (`LinkInv true`), which needs calls that add no entry to a
  removed directory.
* `dots` — no `..` names a free inode (`DotsInv`), which needs calls that remove no directory
  from above another removed one.  Then every inode that anybody refers to is allocated, and
  no call panics for want of a type.
-/

namespace Laboratorio.Xv6.Fs

open Laboratorio.Lib Function Kernel

structure Cached (dots : Bool) (k : Kernel) : Prop where
  kept : ∀ i inode, k.dinodes i = some inode → inode.nlink = 0 → k.valid i = true ∧ 0 < k.ref i
  known : ∀ i, k.valid i = true → (k.dinodes i).isSome = true
  pinned : dots = true → ∀ i, 0 < k.ref i → (k.dinodes i).isSome = true

structure Sound (strict dots : Bool) (pending : Option Inum) (d : Dinodes) : Prop where
  links : LinkInv strict d pending
  dots : dots = true → DotsInv d

structure Tidy (strict dots : Bool) (pending : Option Inum) (k : Kernel) : Prop where
  cached : Cached dots k
  sound : Sound strict dots pending k.dinodes

/-- The code, run by a process alone, ends in `post` or panics, but for no missing type if `..`
never dangles. -/
abbrev Runs {Result : Type} (dots : Bool) (p : Pid) (code : M Result)
    (post : Result → Kernel → Prop) (k : Kernel) : Prop :=
  Prog.Ends p (fun reason => dots = true → reason ≠ .ilockNoType) code post k

section

variable {strict dots : Bool} {pending : Option Inum} {p : Pid} {k k' : Kernel} {i j : Inum}
  {inode new : Inode}

theorem other_panics (reason : Panic) (other : reason ≠ .ilockNoType) :
    dots = true → reason ≠ .ilockNoType :=
  fun _ => other

/-! ## What `iput` leaves alone -/

theorem put_dinodes_of_ne (different : j ≠ i) : (k.put p i).dinodes j = k.dinodes j := by
  rcases freeUnlinked_cases i k with ⟨_, _, _, _, _, freed⟩ | ⟨same, _⟩
  · rw [put, freed]
    exact update_of_ne different _ _
  · rw [put, same]
    rfl

theorem put_valid_of_ne (different : j ≠ i) : (k.put p i).valid j = k.valid j := by
  rcases freeUnlinked_cases i k with ⟨_, _, _, _, _, freed⟩ | ⟨same, _⟩
  · rw [put, freed]
    exact update_of_ne different _ _
  · rw [put, same]
    rfl

theorem put_ref (k : Kernel) (p : Pid) (i : Inum) :
    (k.put p i).ref = update k.ref i (k.ref i - 1) := by
  rcases freeUnlinked_cases i k with ⟨_, _, _, _, _, freed⟩ | ⟨same, _⟩
  · rw [put, freed]
    rfl
  · rw [put, same]
    rfl

theorem put_dinodes_of_linked (found : k.dinodes i = some inode) (linked : inode.nlink ≠ 0) :
    (k.put p i).dinodes = k.dinodes := by
  rcases freeUnlinked_cases i k with ⟨other, otherFound, _, unlinked, _⟩ | ⟨same, _⟩
  · rw [found, Option.some.injEq] at otherFound
    exact absurd (otherFound ▸ unlinked) linked
  · rw [put, same]
    rfl

theorem taken_setInode (k : Kernel) (p : Pid) (i j : Inum) (inode : Option Inode) :
    (k.setInode j inode).taken p i = (k.taken p i).setInode j inode := by
  have sameRef : (k.setInode j inode).ref = k.ref := rfl
  rw [taken, taken, sameRef]
  split <;> rfl

theorem taken_dinodes (k : Kernel) (p : Pid) (i : Inum) : (k.taken p i).dinodes = k.dinodes := by
  rw [taken]
  split <;> rfl

/-! ## The cache -/

namespace Cached

theorem taken (cached : Cached dots k) (allocated : dots = true → (k.dinodes i).isSome = true) :
    Cached dots (k.taken p i) := by
  have kept : ∀ j inode, k.dinodes j = some inode → inode.nlink = 0 → k.valid j = true ∧
      0 < update k.ref i (k.ref i + 1) j := by
    intro j inode found unlinked
    refine ⟨(cached.kept j inode found unlinked).1, ?_⟩
    induction j using update_cases with
    | own => exact Nat.succ_pos _
    | others j _ => exact (cached.kept j inode found unlinked).2
  have pinned : dots = true → ∀ j, 0 < update k.ref i (k.ref i + 1) j →
      (k.dinodes j).isSome = true := by
    intro isDots j positive
    induction j using update_cases with
    | own => exact allocated isDots
    | others j _ => exact cached.pinned isDots j positive
  rw [Kernel.taken]
  split
  case isTrue => exact ⟨kept, cached.known, pinned⟩
  case isFalse recycled =>
    refine ⟨fun j inode found unlinked => ?_, fun j valid => ?_, pinned⟩
    · -- an unlinked inode is referred to, so its entry is not recycled
      have different : j ≠ i := by
        intro same
        subst same
        exact recycled (cached.kept j inode found unlinked).2
      refine ⟨?_, (kept j inode found unlinked).2⟩
      exact (update_of_ne different _ _).trans (kept j inode found unlinked).1
    · by_cases same : j = i
      · subst same
        rw [setValid] at valid
        simp only [update_self] at valid
        cases valid
      · exact cached.known j ((update_of_ne same _ _).symm.trans valid)

theorem load (cached : Cached dots k) (isThere : (k.dinodes i).isSome = true) :
    Cached dots (k.setValid i true) := by
  refine ⟨fun j inode found unlinked => ?_, fun j valid => ?_, cached.pinned⟩
  · refine ⟨?_, (cached.kept j inode found unlinked).2⟩
    by_cases same : j = i
    · subst same
      exact update_self _ _ _
    · exact (update_of_ne same _ _).trans (cached.kept j inode found unlinked).1
  · by_cases same : j = i
    · subst same
      exact isThere
    · exact cached.known j ((update_of_ne same _ _).symm.trans valid)

theorem put (cached : Cached dots k) (p : Pid) (i : Inum) : Cached dots (k.put p i) := by
  rcases freeUnlinked_cases i k with ⟨inode, found, valid, unlinked, alone, freed⟩ | ⟨same, shared⟩
  · -- the last reference to an unlinked inode
    have put : k.put p i = ((k.setInode i none).setValid i false).dropRef p i := by
      rw [Kernel.put, freed]
    rw [put]
    constructor
    case kept =>
      intro j other otherFound otherUnlinked
      rcases update_eq_some otherFound with ⟨_, ⟨⟩⟩ | ⟨different, before⟩
      simp only [dropRef, setValid, update_of_ne different]
      exact cached.kept j other before otherUnlinked
    case known =>
      intro j valid
      by_cases same : j = i
      · subst same
        simp only [dropRef, setValid, update_self] at valid
        cases valid
      · simp only [dropRef, setValid, setInode, update_of_ne same]
          at valid ⊢
        exact cached.known j valid
    case pinned =>
      intro isDots j positive
      by_cases same : j = i
      · subst same
        simp only [dropRef, setValid, setInode, update_self, alone] at positive
        cases positive
      · simp only [dropRef, setValid, setInode, update_of_ne same]
          at positive ⊢
        exact cached.pinned isDots j positive
  · rw [Kernel.put, same]
    refine ⟨fun j inode found unlinked => ?_, cached.known, fun isDots j positive => ?_⟩
    · obtain ⟨valid, positive⟩ := cached.kept j inode found unlinked
      refine ⟨valid, ?_⟩
      simp only [dropRef]
      induction j using update_cases with
      | own =>
        have many := shared inode found valid unlinked
        omega
      | others j _ => exact positive
    · simp only [dropRef] at positive ⊢
      induction j using update_cases with
      | own => exact cached.pinned isDots i (by omega)
      | others j _ => exact cached.pinned isDots j positive

theorem setInode (cached : Cached dots k)
    (loaded : new.nlink = 0 → k.valid i = true ∧ 0 < k.ref i) :
    Cached dots (k.setInode i (some new)) := by
  have isThere : ∀ j, (k.dinodes j).isSome = true →
      (update k.dinodes i (some new) j).isSome = true := by
    intro j before
    induction j using update_cases with
    | own => rfl
    | others j _ => exact before
  refine ⟨fun j inode found unlinked => ?_, fun j valid => isThere j (cached.known j valid),
    fun isDots j positive => isThere j (cached.pinned isDots j positive)⟩
  rcases update_eq_some found with ⟨rfl, ⟨⟩⟩ | ⟨_, before⟩
  · exact loaded unlinked
  · exact cached.kept j inode before unlinked

theorem create (cached : Cached dots k) (p : Pid) (linked : new.nlink ≠ 0) (type : FileType) :
    Cached dots ((((k.allocate i type).taken p i).setValid i true).setInode i (some new)) := by
  have other : ∀ j, j ≠ i → (k.allocate i type).dinodes j = k.dinodes j :=
    fun j different => update_of_ne different _ _
  -- the table with its new entry is as good as one where the entry has a link already
  have before : Cached dots ((k.allocate i type).setInode i (some new)) := by
    refine ⟨fun j inode found unlinked => ?_, fun j valid => ?_, fun isDots j positive => ?_⟩
    · rcases update_eq_some found with ⟨rfl, ⟨⟩⟩ | ⟨different, before⟩
      · exact absurd unlinked linked
      · rw [other j different] at before
        exact cached.kept j inode before unlinked
    · by_cases same : j = i
      · subst same
        simp [Kernel.setInode]
      · simp only [Kernel.setInode, update_of_ne same, other j same]
        exact cached.known j valid
    · by_cases same : j = i
      · subst same
        simp [Kernel.setInode]
      · simp only [Kernel.setInode, update_of_ne same, other j same]
        exact cached.pinned isDots j positive
  have named : (((k.allocate i type).setInode i (some new)).dinodes i).isSome = true := by
    simp [Kernel.setInode]
  have taken : Cached dots (((k.allocate i type).setInode i (some new)).taken p i) :=
    before.taken fun _ => named
  rw [taken_setInode] at taken
  apply taken.load
  simp [Kernel.setInode]

end Cached

/-! ## Cache and table together -/

theorem Sound.free {d : Dinodes} (sound : Sound strict dots pending d) (found : d i = some inode)
    (unlinked : inode.nlink = 0) : Sound strict dots pending (update d i none) :=
  ⟨sound.links.free found unlinked, fun isDots => (sound.dots isDots).free found unlinked⟩

theorem Sound.allocated {d : Dinodes} (sound : Sound strict dots pending d) (isDots : dots = true)
    {dp : Inum} (found : d dp = some inode) {name : Name} {off : Nat}
    (entry : lookup inode.slots name = some (off, i)) : (d i).isSome = true := by
  obtain ⟨target, targetFound⟩ := (sound.dots isDots).targets sound.links found (mem_of_lookup entry)
  rw [targetFound]
  rfl

namespace Tidy

section

variable (tidy : Tidy strict dots pending k)
include tidy

/-- Only the inode table, the references and the valid bits matter. -/
theorem of_same (dinodes : k'.dinodes = k.dinodes)
    (ref : k'.ref = k.ref) (valid : k'.valid = k.valid) : Tidy strict dots pending k' := by
  refine ⟨⟨?_, ?_, ?_⟩, ?_⟩
  · rw [dinodes, ref, valid]
    exact tidy.cached.kept
  · rw [dinodes, valid]
    exact tidy.cached.known
  · rw [dinodes, ref]
    exact tidy.cached.pinned
  · rw [dinodes]
    exact tidy.sound

theorem taken (p : Pid) (allocated : dots = true → (k.dinodes i).isSome = true) :
    Tidy strict dots pending (k.taken p i) := by
  refine ⟨tidy.cached.taken allocated, ?_⟩
  rw [taken_dinodes]
  exact tidy.sound

theorem load (isThere : (k.dinodes i).isSome = true) :
    Tidy strict dots pending (k.setValid i true) :=
  ⟨tidy.cached.load isThere, tidy.sound⟩

theorem put (p : Pid) (i : Inum) : Tidy strict dots pending (k.put p i) := by
  refine ⟨tidy.cached.put p i, ?_⟩
  rcases freeUnlinked_cases i k with ⟨inode, found, _, unlinked, _, freed⟩ | ⟨same, _⟩
  · rw [Kernel.put, freed]
    exact tidy.sound.free found unlinked
  · rw [Kernel.put, same]
    exact tidy.sound

end

end Tidy

theorem ilock_runs {post : Unit → Kernel → Prop} (cached : Cached dots k)
    (holds : 0 < k.ref i → (k.dinodes i).isSome = true → post () (k.setValid i true)) :
    Runs dots p (ilock i) post k := by
  apply ilock_ends other_panics
  · intro positive absent isDots
    have isThere := cached.pinned isDots i positive
    rw [absent] at isThere
    cases isThere
  · intro positive isThere
    apply holds positive
    cases Bool.or_eq_true_iff.mp isThere with
    | inl valid => exact cached.known i valid
    | inr isSome => exact isSome

section

variable (tidy : Tidy strict dots pending k)
include tidy

theorem ilock_tidy : Runs dots p (ilock i) (fun _ => Tidy strict dots pending) k :=
  ilock_runs tidy.cached fun _ isThere => tidy.load isThere

theorem iunlock_tidy : Runs dots p (iunlock i) (fun _ => Tidy strict dots pending) k :=
  iunlock_ends other_panics tidy

theorem iput_tidy : Runs dots p (iput p i) (fun _ => Tidy strict dots pending) k :=
  iput_ends (tidy.put p i)

theorem iunlockput_tidy : Runs dots p (iunlockput p i) (fun _ => Tidy strict dots pending) k :=
  iunlockput_ends other_panics (tidy.put p i)

end

theorem kept_tidy (strict dots : Bool) (p : Pid) :
    Kept p (fun reason => dots = true → reason ≠ .ilockNoType) fun _ => Tidy strict dots none :=
  ⟨other_panics, ilock_tidy, fun tidy => tidy.put p _⟩

end

end Laboratorio.Xv6.Fs
