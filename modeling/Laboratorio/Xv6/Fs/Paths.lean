import Laboratorio.Xv6.Fs.Accounts
import Laboratorio.Xv6.Fs.Cache

/-! # Paths

`walk` says what a path means in an inode table.  A call that runs alone finds with `namex`
what `walk` says: on the way it takes references and drops them again, and it frees nothing,
since an unlinked inode is also referred to by an open file or a current directory.
-/

namespace Laboratorio.Xv6.Fs

open Laboratorio.Lib Laboratorio.Lib.Prog Option Kernel

/-- The inode at the end of a path; with `parent`, the directory before its last element, and
that element. -/
def walk (d : Dinodes) (parent : Bool) : List Name → Inum → Option (Inum × Name)
  | [], ip => if parent then none else some (ip, [])
  | name :: rest, ip =>
    match d ip with
    | none => none
    | some inode =>
      if inode.type = .dir then
        if parent && rest.isEmpty then some (ip, name)
        else
          match lookup inode.slots name with
          | none => none
          | some (_, next) => walk d parent rest next
      else none

/-- Where a path starts. -/
def Kernel.origin (k : Kernel) (p : Pid) (path : Path) : Option Inum :=
  if path.head? = some slash then some rootIno else k.cwd p

/-- What `nameiparent` finds. -/
def Kernel.resolve (k : Kernel) (p : Pid) (path : Path) : Option (Inum × Name) :=
  (k.origin p path).bind (walk k.dinodes true (pathElems path))

theorem walk_dir {d : Dinodes} {names : List Name} {ip dp : Inum} {name : Name}
    (found : walk d true names ip = some (dp, name)) :
    ∃ inode, d dp = some inode ∧ inode.type = .dir := by
  induction names generalizing ip with
  | nil => cases found
  | cons first rest ih =>
    simp only [walk] at found
    split at found
    case h_1 => cases found
    case h_2 inode isThere =>
      split at found
      case isFalse => cases found
      case isTrue directory =>
        split at found
        case isTrue =>
          cases found
          exact ⟨inode, isThere, directory⟩
        case isFalse =>
          split at found
          case h_1 => cases found
          case h_2 => exact ih found

theorem walk_congr {d d' : Dinodes}
    (same : ∀ i, (d' i).map (fun inode => (inode.type, inode.slots)) =
      (d i).map fun inode => (inode.type, inode.slots))
    (parent : Bool) (names : List Name) (ip : Inum) :
    walk d' parent names ip = walk d parent names ip := by
  induction names generalizing ip with
  | nil => rfl
  | cons first rest ih =>
    have here := same ip
    simp only [walk]
    cases before : d ip with
    | none =>
      rw [before, map_none, map_eq_none_iff] at here
      rw [here]
    | some inode =>
      rw [before, map_some, map_eq_some_iff] at here
      obtain ⟨inode', isThere, pair⟩ := here
      obtain ⟨sameType, sameSlots⟩ := Prod.mk.injEq _ _ _ _ ▸ pair
      rw [isThere]
      dsimp only
      rw [sameType, sameSlots]
      simp [ih]

/-! ## Walking -/

/-- Neither inodes nor processes nor files have changed. -/
structure Same (k₀ k : Kernel) : Prop where
  dinodes : k.dinodes = k₀.dinodes
  procs : k.procs = k₀.procs
  table : k.table = k₀.table

/-- An unlinked inode is some process's current directory, or a file is open on it. -/
def Anchored (k : Kernel) : Prop :=
  ∀ i inode, k.dinodes i = some inode → inode.nlink = 0 →
    0 < cwds k.procs i + k.table.inodes i

/-- A call that has read only, since the state `k₀`, and that holds references. -/
structure Walking (strict dots : Bool) (pending : Option Inum) (k₀ : Kernel) (p : Pid)
    (refs : List Inum) (k : Kernel) : Prop where
  accounts : Accounts p refs [] k
  tidy : Tidy strict dots pending k
  same : Same k₀ k
  anchored : Anchored k₀

section

variable {strict dots : Bool} {pending : Option Inum} {k₀ k : Kernel} {p : Pid} {refs : List Inum}
  {i : Inum} {inode : Inode}

theorem Settled.anchored (settled : Settled k) (tidy : Tidy strict dots pending k) : Anchored k := by
  intro i inode found unlinked
  have count := settled.exact i
  have noCalls : holds k.held i = 0 := Finset.sum_eq_zero fun q _ => settled.held q i
  have referred := (tidy.cached.kept i inode found unlinked).2
  omega

namespace Walking

theorem start (settled : Settled k) (alive : k.procs p ≠ none) (tidy : Tidy strict dots pending k) :
    Walking strict dots pending k p [] k :=
  ⟨settled.accounts alive, tidy, ⟨rfl, rfl, rfl⟩, settled.anchored tidy⟩

theorem taken (walking : Walking strict dots pending k₀ p refs k)
    (allocated : dots = true → (k.dinodes i).isSome = true) :
    Walking strict dots pending k₀ p (i :: refs) (k.taken p i) := by
  obtain ⟨accounts, tidy, same, anchored⟩ := walking
  refine ⟨accounts.taken i, tidy.taken p allocated, ?_, anchored⟩
  rw [Kernel.taken]
  split <;> exact ⟨same.dinodes, same.procs, same.table⟩

theorem load (walking : Walking strict dots pending k₀ p refs k)
    (isThere : (k.dinodes i).isSome = true) :
    Walking strict dots pending k₀ p refs (k.setValid i true) :=
  ⟨walking.accounts.setValid i true, walking.tidy.load isThere,
    ⟨walking.same.dinodes, walking.same.procs, walking.same.table⟩, walking.anchored⟩

theorem put (walking : Walking strict dots pending k₀ p (i :: refs) k) :
    Walking strict dots pending k₀ p refs (k.put p i) := by
  obtain ⟨accounts, tidy, same, anchored⟩ := walking
  have notFreed : freeUnlinked i k = k := by
    rcases freeUnlinked_cases i k with ⟨inode, found, _, unlinked, alone, _⟩ | ⟨notFreed, _⟩
    · have count := accounts.exact i
      have holding := accounts.holding_pos
      have part := held_le_holds k.held p i
      rw [same.dinodes] at found
      have held := anchored i inode found unlinked
      rw [← same.procs, ← same.table] at held
      omega
    · exact notFreed
  refine ⟨accounts.put, tidy.put p i, ?_, anchored⟩
  rw [Kernel.put, notFreed]
  exact ⟨same.dinodes, same.procs, same.table⟩

end Walking

theorem ilock_walking (walking : Walking strict dots pending k₀ p refs k) :
    Runs dots p (ilock i) (fun _ k' => Walking strict dots pending k₀ p refs k' ∧
      (k₀.dinodes i).isSome = true ∧ k'.valid i = true ∧ 0 < k'.ref i) k := by
  apply ilock_runs walking.tidy.cached
  intro positive isThere
  refine ⟨walking.load isThere, ?_, Function.update_self _ _ _, positive⟩
  rw [← walking.same.dinodes]
  exact isThere

theorem iunlock_walking (walking : Walking strict dots pending k₀ p refs k) :
    Runs dots p (iunlock i) (fun _ => Walking strict dots pending k₀ p refs) k :=
  iunlock_ends other_panics walking

theorem iput_walking (walking : Walking strict dots pending k₀ p (i :: refs) k) :
    Runs dots p (iput p i) (fun _ => Walking strict dots pending k₀ p refs) k :=
  iput_ends walking.put

theorem iunlockput_walking (walking : Walking strict dots pending k₀ p (i :: refs) k) :
    Runs dots p (iunlockput p i) (fun _ => Walking strict dots pending k₀ p refs) k :=
  iunlockput_ends other_panics walking.put

theorem dirlookup_walking (walking : Walking strict dots pending k₀ p refs k) {dp : Inum}
    (name : Name) :
    Runs dots p (dirlookup p dp name) (fun found k' =>
      Walking strict dots pending k₀ p ((found.map Prod.snd).toList ++ refs) k' ∧
        ∃ inode, k₀.dinodes dp = some inode ∧ inode.type = .dir ∧
          found = lookup inode.slots name) k := by
  apply dirlookup_ends other_panics
  · intro inode found directory absent
    rw [walking.same.dinodes] at found
    exact ⟨walking, inode, found, directory, absent.symm⟩
  · intro inode off ip found directory present
    have allocated : dots = true → (k.dinodes ip).isSome = true :=
      fun isDots => walking.tidy.sound.allocated isDots found present
    rw [walking.same.dinodes] at found
    exact ⟨walking.taken allocated, inode, found, directory, present.symm⟩

/-! ## Path names -/

/-- The induction is on the elements of the path. -/
theorem namexLoop_walks (parent : Bool) (names : List Name)
    (walking : Walking strict dots pending k₀ p (i :: refs) k) :
    Runs dots p (namexLoop p parent names i) (fun found k' =>
      Walking strict dots pending k₀ p ((found.map Prod.fst).toList ++ refs) k' ∧
        found = walk k₀.dinodes parent names i) k := by
  induction names generalizing i k with
  | nil =>
    rw [namexLoop]
    split
    case isTrue isParent =>
      apply Ends.seq (iput_walking walking)
      intro _ k₁ walking
      exact .ret ⟨walking, by rw [walk, if_pos isParent]⟩
    case isFalse notParent => exact .ret ⟨walking, by rw [walk, if_neg notParent]⟩
  | cons name rest ih =>
    apply Ends.seq (ilock_walking walking)
    intro _ k₁ locked
    obtain ⟨walking, isThere, -, -⟩ := locked
    obtain ⟨inode, found⟩ := isSome_iff_exists.mp isThere
    have sameDir : k₁.isDir i = decide (inode.type = .dir) := by
      rw [isDir, walking.same.dinodes, found]
    apply Ends.bind
    apply Ends.get
    rw [sameDir]
    simp only [walk, found]
    by_cases directory : inode.type = .dir
    · simp only [directory, decide_true, Bool.not_true, Bool.false_eq_true, if_false, if_true]
      split
      case isTrue =>
        apply Ends.seq (iunlock_walking walking)
        exact fun _ _ walking => .ret ⟨walking, rfl⟩
      case isFalse =>
        apply Ends.seq (dirlookup_walking walking name)
        intro entry k₂ looked
        obtain ⟨walking, inode', found', -, isEntry⟩ := looked
        rw [found, some.injEq] at found'
        subst found'
        rw [← isEntry]
        cases entry with
        | none =>
          apply Ends.seq (iunlockput_walking walking)
          exact fun _ _ walking => .ret ⟨walking, rfl⟩
        | some entry =>
          -- the directory is put, the entry's inode stays
          have swapped : Walking strict dots pending k₀ p (i :: entry.2 :: refs) k₂ :=
            ⟨walking.accounts.swap, walking.tidy, walking.same, walking.anchored⟩
          apply Ends.seq (iunlockput_walking swapped)
          exact fun _ _ walking => ih walking
    · simp only [directory]
      apply Ends.seq (iunlockput_walking walking)
      exact fun _ _ walking => .ret ⟨walking, rfl⟩

section

variable (walking : Walking strict dots pending k₀ p refs k)
include walking

theorem namexStart_walks (path : Path) :
    Runs dots p (namexStart p path) (fun start k' =>
      Walking strict dots pending k₀ p (start :: refs) k' ∧ k₀.origin p path = some start) k := by
  have sameCwd : k.cwd p = k₀.cwd p := by rw [cwd, cwd, walking.same.procs]
  rw [namexStart, origin]
  split
  case isTrue =>
    apply Ends.bind
    apply iget_ends other_panics
    obtain ⟨root, found, -⟩ := walking.tidy.sound.links.root
    apply Ends.ret
    refine ⟨walking.taken fun _ => ?_, rfl⟩
    rw [found]
    rfl
  case isFalse =>
    apply Ends.act
    cases home : k.cwd p with
    | none => exact .panic (other_panics _ (by rintro ⟨⟩))
    | some start =>
      -- the current directory is referred to by the process, so it is allocated
      have referred : 0 < k.ref start := walking.accounts.exact.cwd_referred home
      have taken := walking.taken (i := start) fun isDots =>
        walking.tidy.cached.pinned isDots start referred
      rw [Kernel.taken, if_pos referred] at taken
      exact .ret ⟨taken, by rw [← sameCwd, home]⟩

theorem namex_walks (path : Path) (parent : Bool) :
    Runs dots p (namex p path parent) (fun found k' =>
      Walking strict dots pending k₀ p ((found.map Prod.fst).toList ++ refs) k' ∧
        found = (k₀.origin p path).bind (walk k₀.dinodes parent (pathElems path))) k := by
  apply Ends.seq (namexStart_walks walking path)
  intro start k₁ started
  obtain ⟨walking, isStart⟩ := started
  rw [isStart]
  exact namexLoop_walks parent (pathElems path) walking

theorem namei_walks (path : Path) :
    Runs dots p (namei p path) (fun found =>
      Walking strict dots pending k₀ p (found.toList ++ refs)) k := by
  apply Ends.seq (namex_walks walking path false)
  exact fun _ _ ended => .ret ended.1

theorem namei_tidy (path : Path) :
    Runs dots p (namei p path) (fun _ => Tidy strict dots pending) k :=
  Ends.mono (fun _ _ walking => walking.tidy) (namei_walks walking path)

theorem nameiparent_walks (path : Path) :
    Runs dots p (nameiparent p path) (fun found k' =>
      Walking strict dots pending k₀ p ((found.map Prod.fst).toList ++ refs) k' ∧
        found = k₀.resolve p path) k :=
  namex_walks walking path true

end

end

end Laboratorio.Xv6.Fs
