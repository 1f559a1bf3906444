import Laboratorio.Xv6.Fs.Balance
import Laboratorio.Xv6.Fs.Upkeep

/-! # Link counts between calls

From a fresh file system on, as long as no call adds an entry to a removed directory, the link
count of an inode is the number of entries that name it, and an inode without links is freed
as soon as the last file on it is closed and the last process has left it.
-/

namespace Laboratorio.Xv6.Fs

open Laboratorio.Lib List

/-! ## The fresh file system -/

namespace Files

variable (files : Files)

theorem naming_rootSlots (i : Inum) :
    naming proper i files.rootSlots =
      if 2 ≤ i.val ∧ i.val < files.names.length + 2 then 1 else 0 := by
  have isProper : ∀ j : Fin files.names.length, proper (files.names.get j) = true :=
    fun j => proper_iff.mpr (files.plain _ (get_mem files.names j))
  have padding : ∀ count, naming proper i (replicate count none) = 0 := by
    intro count
    apply naming_eq_zero
    intro entry member
    cases eq_of_mem_replicate member
  have fileEntries : naming proper i files.entries =
      (finRange files.names.length).countP fun j => decide (j.val + 2 = i.val) := by
    rw [naming, entries, ofFn_eq_map, countP_map]
    apply countP_congr
    intro j _
    simp only [Function.comp_apply, isProper, Bool.true_and, Fin.ext_iff]
  have split : naming proper i files.rootSlots =
      naming proper i files.entries + naming proper i (replicate
        (32 - (some ⟨dot, rootIno⟩ :: some ⟨dotDot, rootIno⟩ :: files.entries).length % 32) none) := by
    rw [rootSlots]
    simp [naming, proper]
  rw [split, padding, fileEntries, Nat.add_zero]
  by_cases isFile : 2 ≤ i.val ∧ i.val < files.names.length + 2
  · rw [if_pos isFile]
    have same : (fun j : Fin files.names.length => decide (j.val + 2 = i.val)) =
        (· == (⟨i.val - 2, by omega⟩ : Fin files.names.length)) := by
      funext j
      rw [Bool.eq_iff_iff, decide_eq_true_eq, beq_iff_eq, Fin.ext_iff]
      dsimp only
      omega
    rw [same]
    exact count_eq_one_of_mem (nodup_finRange _) (mem_finRange _)
  · rw [if_neg isFile, countP_eq_zero]
    intro j _ same
    rw [decide_eq_true_eq] at same
    exact isFile ⟨by omega, by omega⟩

theorem shape_rootSlots : DirShape rootIno files.rootSlots := by
  refine ⟨rootIno, files.entries ++ replicate
    (32 - (some ⟨dot, rootIno⟩ :: some ⟨dotDot, rootIno⟩ :: files.entries).length % 32) none, rfl, ?_⟩
  intro entry member
  rcases mem_append.mp member with isFile | isPadding
  · obtain ⟨j, same⟩ := mem_ofFn.mp isFile
    cases same
    exact proper_iff.mpr (files.plain _ (get_mem files.names j))
  · cases eq_of_mem_replicate isPadding

theorem dinodes_cases {i : Inum} {inode : Inode} (found : files.dinodes i = some inode) :
    (i = rootIno ∧ inode = { type := .dir, major := 0, nlink := 1, slots := files.rootSlots }) ∨
      (i ≠ rootIno ∧ (2 ≤ i.val ∧ i.val < files.names.length + 2) ∧
        inode = { type := .file, major := 0, nlink := 1, slots := [] }) := by
  rw [dinodes] at found
  split at found
  case isTrue isRoot =>
    cases found
    exact .inl ⟨isRoot, rfl⟩
  case isFalse notRoot =>
    obtain ⟨isFile, rfl⟩ := of_guard found
    exact .inr ⟨notRoot, isFile, rfl⟩

theorem dinodes_root : files.dinodes rootIno =
    some { type := .dir, major := 0, nlink := 1, slots := files.rootSlots } :=
  if_pos rfl

theorem links_fresh (i : Inum) : links files.dinodes i =
    if 2 ≤ i.val ∧ i.val < files.names.length + 2 then 1 else 0 := by
  rw [← files.naming_rootSlots i, links, Fintype.sum_eq_single rootIno]
  · rw [dinodes_root]
    rfl
  · intro j different
    cases found : files.dinodes j with
    | none => rfl
    | some inode =>
      rcases files.dinodes_cases found with ⟨isRoot, _⟩ | ⟨_, _, rfl⟩
      · exact absurd isRoot different
      · rfl

theorem children_fresh (i : Inum) : children files.dinodes i = if i = rootIno then 1 else 0 := by
  have up : lookup files.rootSlots dotDot = some (1, rootIno) := rfl
  rw [children, Fintype.sum_eq_single rootIno]
  · rw [dinodes_root]
    simp [childOf, parentOf, up, eq_comm]
  · intro j different
    cases found : files.dinodes j with
    | none => rfl
    | some inode =>
      rcases files.dinodes_cases found with ⟨isRoot, _⟩ | ⟨_, _, rfl⟩
      · exact absurd isRoot different
      · rfl

theorem linkInv_fresh (strict : Bool) : LinkInv strict files.dinodes none := by
  have rootUp : parentOf { type := .dir, major := 0, nlink := 1, slots := files.rootSlots } =
      some rootIno := rfl
  -- an entry with a proper name is one of a file, in the root directory
  have entry : ∀ i inode entry, files.dinodes i = some inode → some entry ∈ inode.slots →
      proper entry.name = true →
        files.dinodes entry.inum = some { type := .file, major := 0, nlink := 1, slots := [] } := by
    intro i inode entry found member isProper
    rcases files.dinodes_cases found with ⟨rfl, rfl⟩ | ⟨_, _, rfl⟩
    · have named : 0 < links files.dinodes entry.inum :=
        links_pos.mpr ⟨rootIno, _, entry, files.dinodes_root, member, isProper, rfl⟩
      rw [links_fresh] at named
      have isFile : 2 ≤ entry.inum.val ∧ entry.inum.val < files.names.length + 2 := by
        by_contra other
        rw [if_neg other] at named
        exact Nat.lt_irrefl 0 named
      have notRoot : entry.inum ≠ rootIno := by
        intro isRoot
        rw [isRoot] at isFile
        exact absurd isFile.1 (by decide)
      rw [dinodes, if_neg notRoot, if_pos isFile]
    · cases member
  constructor
  case root => exact ⟨_, files.dinodes_root, rfl, one_pos, rootUp⟩
  case rootEntries =>
    rw [links_fresh, if_neg]
    exact fun isFile => absurd isFile.1 (by decide)
  case shape =>
    intro i inode found directory
    rcases files.dinodes_cases found with ⟨rfl, rfl⟩ | ⟨_, _, rfl⟩
    · exact files.shape_rootSlots
    · cases directory
  case plain =>
    intro i inode found file
    rcases files.dinodes_cases found with ⟨rfl, rfl⟩ | ⟨_, _, rfl⟩
    · exact absurd rfl file
    · rfl
  case dirLinks =>
    intro i inode found directory
    rcases files.dinodes_cases found with ⟨rfl, rfl⟩ | ⟨_, _, rfl⟩
    · rw [links_fresh, children_fresh, if_neg]
      · rfl
      · exact fun isFile => absurd isFile.1 (by decide)
    · cases directory
  case single =>
    intro i inode found directory notRoot
    rcases files.dinodes_cases found with ⟨isRoot, _⟩ | ⟨_, _, rfl⟩
    · exact absurd isRoot notRoot
    · cases directory
  case parents =>
    intro i inode e child found member isProper childFound directory
    rw [entry i inode e found member isProper] at childFound
    cases childFound
    cases directory
  case targets => exact fun i inode e found member isProper => ⟨_, entry i inode e found member isProper⟩
  case fileLinks =>
    intro i inode found file
    rcases files.dinodes_cases found with ⟨_, rfl⟩ | ⟨_, isFile, rfl⟩
    · exact absurd rfl file
    · rw [links_fresh, if_pos isFile]
      exact ⟨le_rfl, fun _ => rfl⟩
  case emptied =>
    intro _ i inode found _ unlinked
    rcases files.dinodes_cases found with ⟨_, rfl⟩ | ⟨_, _, rfl⟩ <;> cases unlinked

theorem dotsInv_fresh : DotsInv files.dinodes := by
  constructor
  case up =>
    intro i inode found directory parent isParent
    rcases files.dinodes_cases found with ⟨_, rfl⟩ | ⟨_, _, rfl⟩
    · have up : parentOf { type := .dir, major := 0, nlink := 1, slots := files.rootSlots } =
          some rootIno := rfl
      cases isParent
      exact ⟨_, files.dinodes_root, rfl⟩
    · cases directory
  case alone =>
    intro i inode found _ unlinked
    rcases files.dinodes_cases found with ⟨_, rfl⟩ | ⟨_, _, rfl⟩ <;> cases unlinked

theorem boot_tidy (strict dots : Bool) : Tidy strict dots none files.boot := by
  refine ⟨⟨fun i inode found unlinked => ?_, nofun, fun _ i referred => ?_⟩,
    files.linkInv_fresh strict, fun _ => files.dotsInv_fresh⟩
  · rcases files.dinodes_cases found with ⟨_, rfl⟩ | ⟨_, _, rfl⟩ <;> cases unlinked
  · have isRoot : i = rootIno := by
      by_contra other
      have zero : files.boot.ref i = 0 := if_neg other
      omega
    rw [isRoot]
    exact congrArg Option.isSome files.dinodes_root

end Files

theorem reachable_tidy {strict dots : Bool} {files : Files} {m : Machine}
    (reachable : files.sequential.ReachableWhen
      (fun m label => Permitted strict dots m.kernel label.pid label.call) m) :
    Tidy strict dots none m.kernel := by
  induction reachable with
  | init start =>
    subst start
    exact files.boot_tidy strict dots
  | step label before permitted taken tidy =>
    obtain ⟨alive, -, result, ended⟩ := completed_cases taken
    have settled := reachable_settled (before.mono fun _ _ _ => trivial)
    have kept := program_tidy settled alive tidy permitted
    exact kept.done ended

/-! ## Exact counts -/

/-- The entries other than `.` that name an inode, in the directories with links. -/
def liveEntries (k : Kernel) (i : Inum) : Nat :=
  ∑ j, match k.dinodes j with
    | some inode =>
      if inode.type = .dir ∧ 0 < inode.nlink then
        naming (fun name => decide (name ≠ dot)) i inode.slots
      else 0
    | none => 0

/-- Besides the proper entries there is `..`. -/
theorem DirShape.naming_not_dot {i j : Inum} {inode : Inode} (shape : DirShape j inode.slots) :
    naming (fun name => decide (name ≠ dot)) i inode.slots =
      naming proper i inode.slots + if parentOf inode = some i then 1 else 0 := by
  obtain ⟨parent, rest, slots, isProper⟩ := shape
  have up : parentOf inode = some parent := by simp [parentOf, slots, lookup, dot_ne_dotDot]
  have sameRest : naming (fun name => decide (name ≠ dot)) i rest = naming proper i rest := by
    apply countP_congr
    intro slot member
    cases slot with
    | none => rfl
    | some entry =>
      have named := isProper entry member
      have notDot := (proper_iff.mp named).1
      simp only [named, notDot, ne_eq, not_false_eq_true, decide_true]
  rw [up, slots]
  simp only [naming] at sameRest
  simp only [naming, countP_cons, sameRest, proper, ne_eq, Ne.symm dot_ne_dotDot,
    not_true_eq_false, not_false_eq_true, decide_true, decide_false, Bool.false_and, Bool.true_and, Bool.false_eq_true, if_false, Nat.add_zero, decide_eq_true_eq, Option.some.injEq]

theorem liveEntries_eq {k : Kernel} (inv : LinkInv true k.dinodes none) (i : Inum) :
    liveEntries k i = links k.dinodes i + children k.dinodes i := by
  rw [links, children, ← Finset.sum_add_distrib]
  apply Finset.sum_congr rfl
  intro j _
  cases found : k.dinodes j with
  | none => rfl
  | some inode =>
    dsimp only
    by_cases directory : inode.type = .dir
    · have nonneg := inv.nlink_nonneg found
      by_cases linked : 0 < inode.nlink
      · rw [if_pos ⟨directory, linked⟩, (inv.shape j inode found directory).naming_not_dot]
        simp [entriesTo, childOf, directory, linked]
      · -- a removed directory has no proper entries left
        have unlinked : inode.nlink = 0 := by omega
        rw [if_neg fun both => linked both.2, childOf_unlinked unlinked]
        symm
        apply naming_eq_zero
        intro entry member isProper
        rw [inv.emptied rfl j inode found directory unlinked entry member] at isProper
        cases isProper
    · rw [if_neg fun both => directory both.1, childOf_file directory,
        entriesTo_of_no_slots (inv.plain j inode found directory)]

/-- The path at which a call may add an entry. -/
def Call.adds : Call → Option Path
  | .open path omode => if omode &&& openCreate ≠ 0 then some path else none
  | .mkdir path => some path
  | .mknod path _ => some path
  | .link _ new => some new
  | _ => none

/-- The call adds no entry to a removed directory. -/
def AddsToLinked (m : Machine) (label : Label) : Prop :=
  ∀ path ∈ label.call.adds, m.kernel.addsToRemoved label.pid path = false

instance (m : Machine) (label : Label) : Decidable (AddsToLinked m label) :=
  inferInstanceAs (Decidable (∀ path ∈ label.call.adds, _))

theorem AddsToLinked.permitted {m : Machine} {label : Label} (adds : AddsToLinked m label) :
    Permitted true false m.kernel label.pid label.call := by
  cases called : label.call with
  | «open» path omode =>
    intro _ creates
    apply adds path
    rw [called, Call.adds, if_pos creates]
    rfl
  | mkdir path =>
    apply adds path
    rw [called]
    rfl
  | mknod path major =>
    intro _
    apply adds path
    rw [called]
    rfl
  | link old new =>
    intro _
    apply adds new
    rw [called]
    rfl
  | unlink path => exact nofun
  | _ => trivial

theorem link_counts_exact (files : Files) {m : Machine}
    (reachable : files.sequential.ReachableWhen AddsToLinked m) (i : Inum) (inode : Inode)
    (found : m.kernel.dinodes i = some inode) :
    inode.nlink = (liveEntries m.kernel i : Int) ∧
      (0 < inode.nlink ∨ 0 < openFiles m.kernel i ∨ 0 < workers m.kernel i) := by
  have tidy : Tidy true false none m.kernel :=
    reachable_tidy (reachable.mono fun _ _ adds => adds.permitted)
  have links := tidy.sound.links
  have nonneg := links.nlink_nonneg found
  constructor
  · rw [liveEntries_eq links]
    by_cases directory : inode.type = .dir
    · exact links.dirLinks i inode found directory
    · have count := (links.fileLinks i inode found directory).2 rfl
      rw [links.children_of_file found directory]
      exact count
  · by_cases linked : 0 < inode.nlink
    · exact .inl linked
    · -- an unlinked inode is referred to, and between calls only by files and processes
      have settled := reachable_settled (reachable.mono fun _ _ _ => trivial)
      have referred := (tidy.cached.kept i inode found (by omega)).2
      rw [settled.ref_eq i] at referred
      omega

/-- `mkdir d`, `open d/x` with `O_CREATE`, `link d/x y`: the file has two names. -/
theorem second_name_counted :
    ∃ m, noFiles.sequential.ReachableWhen AddsToLinked m ∧
      ∃ inode, m.kernel.dinodes ⟨3, by decide⟩ = some inode ∧ inode.nlink = 2 ∧
        inode.nlink = (liveEntries m.kernel ⟨3, by decide⟩ : Int) := by
  have ran : ∃ m ∈ noFiles.sequential.runWhen AddsToLinked ⟨noFiles.boot, fun _ => none⟩
      [⟨initproc, .mkdir [100]⟩, ⟨initproc, .open [100, 47, 120] openCreate⟩,
        ⟨initproc, .link [100, 47, 120] [121]⟩],
      ∃ inode ∈ m.kernel.dinodes ⟨3, by decide⟩, inode.nlink = 2 := by
    decide +kernel
  obtain ⟨m, reachable, inode, found, count⟩ :=
    System.ReachableWhen.exists_of_runWhen (.init rfl) ran
  exact ⟨m, reachable, inode, found, count,
    (link_counts_exact noFiles reachable _ inode found).1⟩

/-- `mkdir d`, `chdir d`, `unlink ../d`, `open x` with `O_CREATE`: the new file has a link, but
no directory with links names it. -/
theorem file_in_removed_directory :
    ∃ m, noFiles.sequential.Reachable m ∧
      ∃ inode, m.kernel.dinodes ⟨3, by decide⟩ = some inode ∧ inode.nlink = 1 ∧
        liveEntries m.kernel ⟨3, by decide⟩ = 0 := by
  have ran : ∃ m ∈ noFiles.sequential.runWhen (fun _ _ => True) ⟨noFiles.boot, fun _ => none⟩
      [⟨initproc, .mkdir [100]⟩, ⟨initproc, .chdir [100]⟩, ⟨initproc, .unlink [46, 46, 47, 100]⟩,
        ⟨initproc, .open [120] openCreate⟩],
      ∃ inode ∈ m.kernel.dinodes ⟨3, by decide⟩, inode.nlink = 1 ∧
        liveEntries m.kernel ⟨3, by decide⟩ = 0 := by
    decide +kernel
  exact System.ReachableWhen.exists_of_runWhen (.init rfl) ran

end Laboratorio.Xv6.Fs
