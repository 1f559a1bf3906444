import Mathlib.Data.List.TakeWhile
import Laboratorio.Lib.Lists
import Laboratorio.Xv6.Fs.Dangling

/-! # Path names resolve to what they say

`namei` and `nameiparent` run to their end, in every file tree (`FileTree`) in which no inode is
locked and two entries of the inode cache are free: `namei_is_walk`.  The walk is the one over the
`components` of the path, as the format of a path defines them; `pathElems_eq_components` says
that `skipelem` takes a path apart in the same way.
-/

namespace Laboratorio.Xv6.Fs

open Laboratorio.Lib Laboratorio.Lib.Prog Function List Kernel

/-- The parts between slashes that are not empty, each cut to `DIRSIZ` bytes. -/
def components (path : Path) : List Name :=
  ((path.splitOnP (· = slash)).filter (· ≠ [])).map (List.take dirsiz)

def child (d : Dinodes) (dp : Inum) (name : Name) : Option Inum :=
  match d dp with
  | some inode => if inode.type = .dir then (lookup inode.slots name).map Prod.snd else none
  | none => none

/-- No entry names a free inode, and an inode without links is in use. -/
structure FileTree (k : Kernel) : Prop where
  root : (k.dinodes rootIno).isSome = true
  entries : ∀ dp inode entry, k.dinodes dp = some inode → some entry ∈ inode.slots →
    (k.dinodes entry.inum).isSome = true
  homes : ∀ p start, k.cwd p = some start → (k.dinodes start).isSome = true
  unlinked : ∀ i inode, k.dinodes i = some inode → inode.nlink = 0 → 0 < k.ref i

/-- The state `k₀`, but for references to `refs`. -/
structure Holding (k₀ : Kernel) (refs : List Inum) (k : Kernel) : Prop extends Same k₀ k where
  ref : ∀ j, k.ref j = k₀.ref j + refs.count j

variable {k₀ k : Kernel} {p : Pid} {i : Inum} {refs : List Inum} {locks : Inum → Option Pid}
  {path : Path} {d : Dinodes}

/-! ## Taking a path apart -/

theorem components_dropWhile (path : Path) :
    components (path.dropWhile (· = slash)) = components path := by
  induction path with
  | nil => rfl
  | cons byte path ih =>
    by_cases isSlash : byte = slash
    · rw [dropWhile_cons_of_pos (by simpa using isSlash), ih]
      simp [components, splitOnP_cons_eq_if_modifyHead, isSlash]
    · rw [dropWhile_cons_of_neg (by simpa using isSlash)]

/-- An element, and the rest of the path from the next slash on. -/
theorem components_append {elem rest : Path} (nonempty : elem ≠ []) (plain : slash ∉ elem)
    (ends : ∀ byte ∈ rest.head?, byte = slash) :
    components (elem ++ rest) = elem.take dirsiz :: components rest := by
  have noSlash : ∀ byte ∈ elem, decide (byte = slash) = false := by
    intro byte member
    exact decide_eq_false fun isSlash => plain (isSlash ▸ member)
  cases rest with
  | nil => simp [components, splitOnP_eq_singleton noSlash, nonempty]
  | cons byte rest =>
    obtain rfl := ends byte rfl
    simp [components, splitOnP_append_cons_of_forall_mem noSlash slash (decide_eq_true rfl),
      splitOnP_cons_eq_if_modifyHead, nonempty]

/-- The induction is on the fuel, which each element uses up by at least one byte. -/
theorem elemsFrom_eq_components {fuel : Nat} (enough : path.length ≤ fuel) :
    elemsFrom fuel path = components path := by
  induction fuel generalizing path with
  | zero =>
    rw [length_eq_zero_iff.mp (Nat.le_zero.mp enough)]
    rfl
  | succ fuel ih =>
    rw [elemsFrom, skipelem, ← components_dropWhile path]
    have shorter := (dropWhile_suffix (p := (· = slash)) (l := path)).length_le
    cases skipped : path.dropWhile (· = slash) with
    | nil => rfl
    | cons byte bytes =>
      have notSlash : byte ≠ slash := by
        have first := head?_dropWhile_not (· = slash) path
        rw [skipped] at first
        simpa using first
      have split := takeWhile_append_dropWhile (p := (· ≠ slash)) (l := byte :: bytes)
      have plain : slash ∉ (byte :: bytes).takeWhile (· ≠ slash) := by
        intro member
        simpa using mem_takeWhile_imp member
      have ends : ∀ next ∈ ((byte :: bytes).dropWhile (· ≠ slash)).head?, next = slash := by
        have first := head?_dropWhile_not (· ≠ slash) (byte :: bytes)
        intro next isNext
        rw [isNext] at first
        simpa using first
      have nonempty : (byte :: bytes).takeWhile (· ≠ slash) ≠ [] := by
        simp [notSlash]
      have remaining : ((byte :: bytes).dropWhile (· ≠ slash)).length ≤ fuel := by
        rw [dropWhile_cons_of_pos (by simpa using notSlash)]
        have rest := (dropWhile_suffix (p := (· ≠ slash)) (l := bytes)).length_le
        rw [skipped, length_cons] at shorter
        omega
      have further := (dropWhile_suffix (p := (· = slash))
        (l := (byte :: bytes).dropWhile (· ≠ slash))).length_le
      conv_rhs => rw [← split, components_append nonempty plain ends]
      simp only
      rw [ih (by omega), components_dropWhile]

theorem pathElems_eq_components (path : Path) : pathElems path = components path :=
  elemsFrom_eq_components (Nat.le_refl _)

/-! ## The walk, step by step -/

theorem walk_eq_foldlM (d : Dinodes) (names : List Name) (ip : Inum) :
    walk d false names ip = (names.foldlM (child d) ip).map fun ip => (ip, []) := by
  induction names generalizing ip with
  | nil => rfl
  | cons name names ih =>
    simp only [walk, foldlM_cons, child, ih]
    cases d ip with
    | none => rfl
    | some inode =>
      dsimp only
      split
      case isTrue => cases lookup inode.slots name <;> rfl
      case isFalse => rfl

theorem walk_parent (k : Kernel) (names : List Name) (ip : Inum) :
    walk k.dinodes true names ip = names.getLast?.bind fun name =>
      (names.dropLast.foldlM (child k.dinodes) ip).bind fun dp =>
        if k.isDir dp then some (dp, name) else none := by
  induction names generalizing ip with
  | nil => rfl
  | cons name names ih =>
    cases names with
    | nil =>
      simp only [walk, isDir]
      cases found : k.dinodes ip with
      | none => simp [found]
      | some inode => simp [found]
    | cons next names =>
      rw [walk]
      simp only [ih, dropLast_cons_cons, foldlM_cons, child]
      cases k.dinodes ip with
      | none => simp
      | some inode =>
        dsimp only
        split
        case isTrue => cases lookup inode.slots name <;> simp
        case isFalse => simp

/-! ## References -/

namespace Holding

theorem taken (holding : Holding k₀ refs k) (i : Inum) : Holding k₀ (i :: refs) (k.taken p i) := by
  have counts : ∀ j, update k.ref i (k.ref i + 1) j = k₀.ref j + (i :: refs).count j := by
    intro j
    induction j using update_cases with
    | own => rw [holding.ref, count_cons_self, Nat.add_assoc]
    | others j different => rw [holding.ref, count_cons_of_ne (Ne.symm different)]
  rw [Kernel.taken]
  split <;> exact ⟨⟨holding.dinodes, holding.procs, holding.table⟩, counts⟩

theorem load (holding : Holding k₀ refs k) (i : Inum) : Holding k₀ refs (k.setValid i true) :=
  ⟨⟨holding.dinodes, holding.procs, holding.table⟩, holding.ref⟩

theorem put (tree : FileTree k₀) (holding : Holding k₀ (i :: refs) k) :
    Holding k₀ refs (k.put p i) := by
  have count := holding.ref i
  rw [count_cons_self] at count
  have notFreed : freeUnlinked i k = k := by
    rcases freeUnlinked_cases i k with ⟨inode, found, _, unlinked, alone, _⟩ | ⟨same, _⟩
    · rw [holding.dinodes] at found
      have inUse := tree.unlinked i inode found unlinked
      omega
    · exact same
  rw [Kernel.put, notFreed]
  refine ⟨⟨holding.dinodes, holding.procs, holding.table⟩, fun j => ?_⟩
  simp only [dropRef]
  induction j using update_cases with
  | own => omega
  | others j different => rw [holding.ref, count_cons_of_ne (Ne.symm different)]

/-- One reference takes at most one more entry of the cache. -/
theorem entriesInUse_le (holding : Holding k₀ [i] k) : k.entriesInUse ≤ k₀.entriesInUse + 1 := by
  have once : (finRange ninodes).count i = 1 :=
    count_eq_one_of_mem (nodup_finRange _) (mem_finRange i)
  rw [← once]
  apply countP_le_add_count
  intro j different
  rw [holding.ref, count_singleton, if_neg (by simpa using Ne.symm different), Nat.add_zero]

end Holding

/-! ## Running alone -/

theorem iget_exec (room : 0 < k.ref i ∨ k.entriesInUse < ninode) :
    (iget p i).exec p k locks = .done () (k.taken p i) locks := by
  simp [iget, exec, room, taken]

theorem ilock_exec (referred : 0 < k.ref i) (isThere : (k.dinodes i).isSome = true)
    (free : locks i = none) :
    (ilock i).exec p k locks = .done () (k.setValid i true) (update locks i (some p)) := by
  have held : ¬ k.ref i < 1 := by omega
  simp only [ilock, load, exec, held, free, id, isThere, Bool.or_true, if_true, if_false]

theorem iunlock_exec (referred : 0 < k.ref i) (free : locks i = none) :
    (iunlock i).exec p k (update locks i (some p)) = .done () k locks := by
  have unlocked : update (update locks i (some p)) i none = locks := by
    rw [update_idem, ← free, update_eq_self]
  have held : 1 ≤ k.ref i := referred
  simp [iunlock, exec, held, id, unlocked]

theorem iput_exec (free : locks i = none) :
    (iput p i).exec p k locks = .done () (k.put p i) locks := by
  have unlocked : update (update locks i (some p)) i none = locks := by
    rw [update_idem, ← free, update_eq_self]
  simp [iput, exec, free, unlocked, put]

theorem iunlockput_exec (referred : 0 < k.ref i) (free : locks i = none) :
    (iunlockput p i).exec p k (update locks i (some p)) = .done () (k.put p i) locks := by
  rw [iunlockput, exec_bind (iunlock_exec referred free), iput_exec free]

theorem dirlookup_exec {dp : Inum} {inode : Inode} (found : k.dinodes dp = some inode)
    (directory : inode.type = .dir) (room : k.entriesInUse < ninode) (name : Name) :
    (dirlookup p dp name).exec p k locks = .done (lookup inode.slots name)
      ((lookup inode.slots name).elim k fun entry => k.taken p entry.2) locks := by
  simp only [dirlookup, exec, found, directory]
  cases lookup inode.slots name with
  | none => rfl
  | some entry => exact exec_bind (iget_exec (.inr room))

/-- The induction is on the elements; the directory that the loop has reached is referred to. -/
theorem namexLoop_exec (tree : FileTree k₀) (room : k₀.entriesInUse + 2 ≤ ninode)
    (unlocked : ∀ i, locks i = none) (parent : Bool) (names : List Name)
    (holding : Holding k₀ [i] k) (isThere : (k₀.dinodes i).isSome = true) :
    ∃ k', (namexLoop p parent names i).exec p k locks =
        .done (walk k₀.dinodes parent names i) k' locks ∧
      Holding k₀ ((walk k₀.dinodes parent names i).map Prod.fst).toList k' := by
  induction names generalizing i k with
  | nil =>
    cases parent with
    | true => exact ⟨_, exec_bind (iput_exec (unlocked i)), holding.put tree⟩
    | false => exact ⟨k, rfl, holding⟩
  | cons name rest ih =>
    obtain ⟨inode, found⟩ := Option.isSome_iff_exists.mp isThere
    have referred : 0 < k.ref i := by
      rw [holding.ref, List.count_singleton_self]
      exact Nat.succ_pos _
    have here : (k.dinodes i).isSome = true := by rw [holding.dinodes, found]; rfl
    have locked := holding.load i
    have sameDir : (k.setValid i true).isDir i = decide (inode.type = .dir) := by
      rw [Kernel.isDir, locked.dinodes, found]
    have unlocks : (iunlock i).exec p (k.setValid i true) (update locks i (some p)) =
        .done () (k.setValid i true) locks := iunlock_exec referred (unlocked i)
    rw [namexLoop, exec_bind (ilock_exec referred here (unlocked i)), exec_bind rfl]
    simp only [walk, found, sameDir, id]
    by_cases directory : inode.type = .dir
    · simp only [directory, decide_true, Bool.not_true, Bool.false_eq_true, if_false, if_true]
      by_cases last : (parent && rest.isEmpty) = true
      · rw [if_pos last, if_pos last]
        exact ⟨_, exec_bind unlocks, locked⟩
      · rw [if_neg last, if_neg last]
        have inUse := locked.entriesInUse_le
        rw [exec_bind (dirlookup_exec ((congrFun locked.dinodes i).trans found) directory (by omega)
          name)]
        cases entry : lookup inode.slots name with
        | none => exact ⟨_, exec_bind (iunlockput_exec referred (unlocked i)), locked.put tree⟩
        | some slot =>
          -- the entry's inode has been taken; the directory is put
          have both : Holding k₀ [slot.2, i] ((k.setValid i true).taken p slot.2) :=
            locked.taken slot.2
          have swapped : Holding k₀ [i, slot.2] ((k.setValid i true).taken p slot.2) :=
            ⟨both.toSame, fun j => by rw [both.ref, (List.Perm.swap i slot.2 []).count_eq]⟩
          have still : 0 < ((k.setValid i true).taken p slot.2).ref i := by
            rw [swapped.ref, List.count_cons_self]
            omega
          dsimp only [Option.elim]
          rw [exec_bind (iunlockput_exec still (unlocked i))]
          exact ih (swapped.put tree) (tree.entries i inode _ found (mem_of_lookup entry))
    · simp only [directory]
      exact ⟨_, exec_bind (iunlockput_exec referred (unlocked i)), locked.put tree⟩

theorem namex_exec (tree : FileTree k) (room : k.entriesInUse + 2 ≤ ninode)
    (unlocked : ∀ i, locks i = none) {start : Inum} (origin : k.origin p path = some start)
    (parent : Bool) :
    ∃ k', (namex p path parent).exec p k locks =
        .done (walk k.dinodes parent (components path) start) k' locks ∧
      Holding k ((walk k.dinodes parent (components path) start).map Prod.fst).toList k' := by
  have nothing : Holding k [] k := ⟨⟨rfl, rfl, rfl⟩, fun _ => rfl⟩
  rw [namex, pathElems_eq_components]
  by_cases absolute : path.head? = some slash
  · rw [Kernel.origin, if_pos absolute] at origin
    cases origin
    have starts : (namexStart p path).exec p k locks = .done rootIno (k.taken p rootIno) locks := by
      rw [namexStart, if_pos absolute]
      exact exec_bind (iget_exec (.inr (by omega)))
    rw [exec_bind starts]
    exact namexLoop_exec tree room unlocked parent _ (nothing.taken rootIno) tree.root
  · rw [Kernel.origin, if_neg absolute] at origin
    have starts : (namexStart p path).exec p k locks = .done start (k.addRef p start) locks := by
      simp [namexStart, if_neg absolute, idupCwd, exec, origin]
    have home : Holding k [start] (k.addRef p start) :=
      ⟨⟨rfl, rfl, rfl⟩, fun j => by
        simp only [addRef]
        induction j using update_cases with
        | own => rw [count_singleton_self]
        | others j different => rw [count_cons_of_ne (Ne.symm different)]; rfl⟩
    rw [exec_bind starts]
    exact namexLoop_exec tree room unlocked parent _ home (tree.homes p start origin)

/-- `namei` is the walk over the components, `nameiparent` that over all but the last, and `namei`
is the last step from there.  But for the reference to the result nothing has changed. -/
theorem namei_is_walk (tree : FileTree k) (room : k.entriesInUse + 2 ≤ ninode)
    (unlocked : ∀ i, locks i = none) {start : Inum} (origin : k.origin p path = some start) :
    ∃ found parent k₁ k₂,
      (namei p path).exec p k locks = .done found k₁ locks ∧
      found = (components path).foldlM (child k.dinodes) start ∧
      Holding k found.toList k₁ ∧
      (nameiparent p path).exec p k locks = .done parent k₂ locks ∧
      parent = ((components path).getLast?.bind fun name =>
        ((components path).dropLast.foldlM (child k.dinodes) start).bind fun dp =>
          if k.isDir dp then some (dp, name) else none) ∧
      Holding k (parent.map Prod.fst).toList k₂ ∧
      ∀ dp name, parent = some (dp, name) → found = child k.dinodes dp name := by
  have first : ∀ found : Option Inum, (found.map fun ip => (ip, ([] : Name))).map Prod.fst = found := by
    intro found
    cases found <;> rfl
  obtain ⟨k₁, ended, holding⟩ := namex_exec tree room unlocked origin false
  obtain ⟨k₂, ended', holding'⟩ := namex_exec tree room unlocked origin true
  rw [walk_eq_foldlM] at ended holding
  rw [first] at holding
  rw [walk_parent] at ended' holding'
  refine ⟨_, _, k₁, k₂, ?_, rfl, holding, ended', rfl, holding', fun dp name isParent => ?_⟩
  · rw [namei, exec_bind ended, first]
    rfl
  · obtain ⟨last, isLast, rest⟩ := Option.bind_eq_some_iff.mp isParent
    obtain ⟨dp', reached, isDir⟩ := Option.bind_eq_some_iff.mp rest
    obtain ⟨-, same⟩ := Option.ite_none_right_eq_some.mp isDir
    cases same
    have split := dropLast_append_getLast? name isLast
    conv_lhs => rw [← split, foldlM_append, reached]
    simp

/-! ## Trees and full caches -/

theorem Tidy.fileTree {strict : Bool} (tidy : Tidy strict true none k) (exact : RefsExact k) :
    FileTree k where
  root := by
    obtain ⟨inode, found, -⟩ := tidy.sound.links.root
    rw [found]
    rfl
  entries dp inode entry found member := by
    obtain ⟨target, isThere⟩ := (tidy.sound.dots rfl).targets tidy.sound.links found member
    rw [isThere]
    rfl
  homes p start home := tidy.cached.pinned rfl start (exact.cwd_referred home)
  unlinked i inode found unlinked := (tidy.cached.kept i inode found unlinked).2

theorem FileTree.boot (files : Files) : FileTree files.boot :=
  (files.boot_tidy true true).fileTree (boot_settled files).exact

/-- `mkdir d`, then `open d/x` that creates the file: `/d/x` is the second inode after the root. -/
theorem nested_file_resolves : ∃ m k₁, noFiles.sequential.Reachable m ∧
    (namei initproc [slash, 100, slash, 120]).exec initproc m.kernel m.locks =
      .done (some ⟨3, by decide⟩) k₁ m.locks ∧ Holding m.kernel [⟨3, by decide⟩] k₁ := by
  have ran : ∃ m ∈ noFiles.sequential.runWhen LeavesParents ⟨noFiles.boot, fun _ => none⟩
      [⟨initproc, .mkdir [100]⟩, ⟨initproc, .open [100, slash, 120] openCreate⟩],
      m.kernel.entriesInUse + 2 ≤ ninode ∧ (∀ i, m.locks i = none) ∧
        m.kernel.origin initproc [slash, 100, slash, 120] = some rootIno ∧
        (components [slash, 100, slash, 120]).foldlM (child m.kernel.dinodes) rootIno =
          some ⟨3, by decide⟩ := by
    decide +kernel
  obtain ⟨m, reachable, room, unlocked, starts, walks⟩ :=
    System.ReachableWhen.exists_of_runWhen (.init rfl) ran
  have always := reachable.mono fun _ _ _ => trivial
  have tidy : Tidy false true none m.kernel :=
    reachable_tidy (reachable.mono fun _ _ leaves => leaves.permitted)
  have tree := tidy.fileTree (reachable_settled always).exact
  obtain ⟨found, _, k₁, _, ended, same, holding, _⟩ := namei_is_walk tree room unlocked starts
  rw [walks] at same
  subst same
  exact ⟨m, k₁, always, ended, holding⟩

/-- The files `a`, `b`, … in the root directory. -/
def fiftyFiles : Files :=
  ⟨(List.range 50).map fun j => [97 + UInt8.ofNat j], by decide, by decide⟩

def crowded : Kernel :=
  { fiftyFiles.boot with ref := fun i => if 1 ≤ i.val ∧ i.val ≤ 50 then 1 else 0 }

/-- The fiftieth file is there, but there is no entry left for it. -/
theorem full_cache_stops_namei : FileTree crowded ∧
    ((components [slash, 146]).foldlM (child crowded.dinodes) rootIno).isSome = true ∧
    (match (namei initproc [slash, 146]).exec initproc crowded (fun _ => none) with
      | .panicked reason => decide (reason = .igetNoInodes)
      | _ => false) = true := by
  have tree := FileTree.boot fiftyFiles
  refine ⟨⟨tree.root, tree.entries, tree.homes, fun i inode found unlinked => ?_⟩, ?_, ?_⟩
  · have isRoot := tree.unlinked i inode found unlinked
    simp only [Files.boot] at isRoot
    split at isRoot
    case isTrue same =>
      rw [same]
      decide
    case isFalse => cases isRoot
  · decide +kernel
  · decide +kernel

end Laboratorio.Xv6.Fs
