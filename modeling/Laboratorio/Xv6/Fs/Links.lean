import Laboratorio.Lib.Sum
import Laboratorio.Xv6.Fs.Model

/-! # Links between directories

What the inode table says about the links of an inode, independently of who runs.

* `LinkInv` — every directory has its `.` and `..`, its link count is the number of
  entries that name it plus the number of linked directories below it, and it is named
  by one entry, in its parent; the link count of a file is at least the number of its
  entries.  With `strict` file counts are exact and an unlinked directory has no
  entries.
* The rest says what each change of the table does to it: a new inode, a new entry, a
  removed entry, a removed directory, a freed inode.

`pending` is a file whose link count is one ahead of its entries, in the middle of a
call.
-/

namespace Laboratorio.Xv6.Fs

open Laboratorio.Lib Function Option List Nat

variable {other : Dirent} {name : Name} {target inode : Inode} {pending' : Option Inum} {dp j i : Inum}
  {d : Dinodes}

abbrev Dinodes := Inum → Option Inode

/-! ## Slots -/

/-- Neither `.` nor `..`. -/
def proper (name : Name) : Bool :=
  decide (name ≠ dot) && decide (name ≠ dotDot)

/-- The slots that name an inode under a name that passes the test. -/
def naming (test : Name → Bool) (i : Inum) (slots : List (Option Dirent)) : Nat :=
  slots.countP fun
    | some entry => test entry.name && decide (entry.inum = i)
    | none => false

/-- The two first entries of a directory are `.` and `..`, and no others have these
names. -/
def DirShape (i : Inum) (slots : List (Option Dirent)) : Prop :=
  ∃ parent rest, slots = some ⟨dot, i⟩ :: some ⟨dotDot, parent⟩ :: rest ∧
    ∀ entry, some entry ∈ rest → proper entry.name = true

def parentOf (inode : Inode) : Option Inum :=
  (lookup inode.slots dotDot).map Prod.snd

section Slots

variable {slots : List (Option Dirent)} {name : Name} {entry : Dirent} {i : Inum} {off : Nat}
  {test : Name → Bool}

theorem proper_iff : proper name = true ↔ name ≠ dot ∧ name ≠ dotDot := by
  simp [proper]

theorem dot_ne_dotDot : dot ≠ dotDot := by decide

theorem get_of_lookup (found : lookup slots name = some (off, i)) :
    slots[off]? = some (some ⟨name, i⟩) := by
  induction slots generalizing off with
  | nil => cases found
  | cons slot rest ih =>
    cases slot with
    | none =>
      simp only [lookup, map_eq_some_iff, Prod.exists] at found
      obtain ⟨off', i', found, rfl, rfl⟩ := found
      exact ih found
    | some entry =>
      simp only [lookup] at found
      split at found
      · rename_i same
        cases found
        rw [← same]
        rfl
      · simp only [map_eq_some_iff, Prod.exists] at found
        obtain ⟨off', i', found, rfl, rfl⟩ := found
        exact ih found

theorem mem_of_lookup (found : lookup slots name = some (off, i)) : some ⟨name, i⟩ ∈ slots :=
  mem_of_getElem? (get_of_lookup found)

theorem ne_of_lookup_none (absent : lookup slots name = none) (member : some entry ∈ slots) :
    entry.name ≠ name := by
  induction slots with
  | nil => cases member
  | cons slot rest ih =>
    cases slot with
    | none =>
      simp only [lookup, map_eq_none_iff] at absent
      rcases mem_cons.mp member with same | member
      · cases same
      · exact ih absent member
    | some other =>
      simp only [lookup] at absent
      split at absent
      · cases absent
      · rename_i different
        simp only [map_eq_none_iff] at absent
        rcases mem_cons.mp member with same | member
        · cases same
          exact different
        · exact ih absent member

theorem naming_pos : 0 < naming test i slots ↔
    ∃ entry, some entry ∈ slots ∧ test entry.name = true ∧ entry.inum = i := by
  unfold naming
  rw [countP_pos_iff]
  constructor
  · intro ⟨slot, member, passes⟩
    cases slot with
    | none => cases passes
    | some entry =>
      simp only [Bool.and_eq_true, decide_eq_true_eq] at passes
      exact ⟨entry, member, passes⟩
  · intro ⟨entry, member, passes, same⟩
    exact ⟨some entry, member, by simp [passes, same]⟩

theorem naming_eq_zero (none : ∀ entry, some entry ∈ slots → test entry.name = true →
    entry.inum ≠ i) : naming test i slots = 0 := by
  rcases Nat.eq_zero_or_pos (naming test i slots) with zero | positive
  · exact zero
  · obtain ⟨entry, member, passes, same⟩ := naming_pos.mp positive
    exact absurd same (none entry member passes)

theorem mem_addEntry : some other ∈ addEntry slots entry ↔ other = entry ∨ some other ∈ slots := by
  induction slots with
  | nil => simp [addEntry]
  | cons slot rest ih =>
    cases slot with
    | none => simp [addEntry]
    | some first =>
      simp only [addEntry, mem_cons]
      tauto

theorem naming_addEntry : naming test i (addEntry slots entry) =
    naming test i slots + if test entry.name = true ∧ entry.inum = i then 1 else 0 := by
  induction slots with
  | nil => simp [addEntry, naming]
  | cons slot rest ih =>
    unfold naming at ih ⊢
    cases slot with
    | none => simp [addEntry, countP_cons]
    | some first =>
      simp only [addEntry, countP_cons]
      omega

theorem mem_of_mem_clear (member : some other ∈ slots.set off none) : some other ∈ slots := by
  rcases mem_or_eq_of_mem_set member with member | same
  · exact member
  · cases same

theorem naming_clear (found : slots[off]? = some (some entry)) :
    naming test i (slots.set off none) + (if test entry.name = true ∧ entry.inum = i then 1 else 0) =
      naming test i slots := by
  induction slots generalizing off with
  | nil => cases found
  | cons slot rest ih =>
    unfold naming at ih ⊢
    cases off with
    | zero =>
      cases found
      simp [countP_cons]
    | succ off =>
      simp only [set_cons_succ, countP_cons]
      have rest := ih found
      omega

end Slots

namespace DirShape

variable {i : Inum} {slots : List (Option Dirent)} {entry : Dirent} {off : Nat}

section

variable (shape : DirShape i slots)
include shape

theorem name_proper (absent : lookup slots name = none) : proper name = true := by
  obtain ⟨parent, rest, rfl, _⟩ := shape
  refine proper_iff.mpr ⟨?_, ?_⟩
  · exact (ne_of_lookup_none absent mem_cons_self).symm
  · exact (ne_of_lookup_none absent (mem_cons_of_mem _ mem_cons_self)).symm

theorem addEntry (name : proper entry.name = true) : DirShape i (addEntry slots entry) := by
  obtain ⟨parent, rest, rfl, others⟩ := shape
  refine ⟨parent, Fs.addEntry rest entry, rfl, fun other member => ?_⟩
  rcases mem_addEntry.mp member with rfl | member
  · exact name
  · exact others other member

theorem lookup_addEntry : lookup (Fs.addEntry slots entry) dotDot = lookup slots dotDot := by
  obtain ⟨parent, rest, rfl, _⟩ := shape
  simp [Fs.addEntry, lookup]

theorem two_le (found : slots[off]? = some (some entry))
    (name : proper entry.name = true) : 2 ≤ off := by
  obtain ⟨parent, rest, rfl, _⟩ := shape
  obtain ⟨notDot, notDotDot⟩ := proper_iff.mp name
  match off with
  | 0 =>
    simp only [getElem?_cons_zero, some.injEq] at found
    exact absurd (congrArg Dirent.name found).symm notDot
  | 1 =>
    simp only [getElem?_cons_succ, getElem?_cons_zero, some.injEq] at found
    exact absurd (congrArg Dirent.name found).symm notDotDot
  | off + 2 => omega

theorem clear (found : slots[off]? = some (some entry)) (name : proper entry.name = true) :
    DirShape i (slots.set off none) ∧
      lookup (slots.set off none) dotDot = lookup slots dotDot := by
  have later := shape.two_le found name
  obtain ⟨parent, rest, rfl, others⟩ := shape
  obtain ⟨off, rfl⟩ := Nat.exists_eq_add_of_le' later
  refine ⟨⟨parent, rest.set off none, rfl, fun other member => ?_⟩, ?_⟩
  · exact others other (mem_of_mem_clear member)
  · simp [lookup]

/-- `isdirempty`: no entry but the first two. -/
theorem not_proper_of_empty
    (empty : (slots.drop 2).all Option.isNone = true) (member : some other ∈ slots) :
    proper other.name = false := by
  obtain ⟨parent, rest, rfl, _⟩ := shape
  simp only [List.all_eq_true] at empty
  rcases List.mem_cons.mp member with same | member
  · cases same
    rfl
  · rcases List.mem_cons.mp member with same | member
    · cases same
      rfl
    · exact absurd (empty _ member) Bool.false_ne_true

end

end DirShape

/-! ## Counting links -/

/-- The proper entries of an inode that name another. -/
def entriesTo (i : Inum) : Option Inode → Nat
  | some inode => naming proper i inode.slots
  | none => 0

/-- Whether the inode is a linked directory with the other as its parent. -/
def childOf (i : Inum) : Option Inode → Nat
  | some inode =>
    if inode.type = .dir ∧ 0 < inode.nlink ∧ parentOf inode = some i then 1 else 0
  | none => 0

def links (d : Dinodes) (i : Inum) : Nat :=
  ∑ j, entriesTo i (d j)

def children (d : Dinodes) (i : Inum) : Nat :=
  ∑ j, childOf i (d j)

theorem update_eq_some {entry : Option Inode} (found : update d i entry j = some inode) :
    (j = i ∧ entry = some inode) ∨ (j ≠ i ∧ d j = some inode) := by
  induction j using update_cases with
  | own => exact .inl ⟨rfl, found⟩
  | others j same => exact .inr ⟨same, found⟩

theorem update_update_eq_some {k : Inum} {first second : Option Inode}
    (found : update (update d i first) k second j = some inode) :
    (j = k ∧ second = some inode) ∨ (j = i ∧ first = some inode) ∨
      (j ≠ k ∧ j ≠ i ∧ d j = some inode) := by
  rcases update_eq_some found with changed | ⟨notSecond, found⟩
  · exact .inl changed
  · rcases update_eq_some found with changed | ⟨notFirst, found⟩
    · exact .inr (.inl changed)
    · exact .inr (.inr ⟨notSecond, notFirst, found⟩)

section Counting

variable {d : Dinodes} {i : Inum} {inode : Inode}

theorem links_update (d : Dinodes) (j : Inum) (entry : Option Inode) (i : Inum) :
    links (update d j entry) i + entriesTo i (d j) = links d i + entriesTo i entry :=
  sum_update (entriesTo i) d j entry

theorem children_update (d : Dinodes) (j : Inum) (entry : Option Inode) (i : Inum) :
    children (update d j entry) i + childOf i (d j) = children d i + childOf i entry :=
  sum_update (childOf i) d j entry

theorem links_pos : 0 < links d i ↔ ∃ j inode entry, d j = some inode ∧ some entry ∈ inode.slots ∧
    proper entry.name = true ∧ entry.inum = i := by
  constructor
  · intro positive
    obtain ⟨j, positive⟩ := exists_of_sum_pos _ positive
    cases found : d j with
    | none => simp [entriesTo, found] at positive
    | some inode =>
      rw [found] at positive
      obtain ⟨entry, member, name, same⟩ := naming_pos.mp positive
      exact ⟨j, inode, entry, found, member, name, same⟩
  · intro ⟨j, inode, entry, found, member, name, same⟩
    refine lt_of_lt_of_le ?_ (le_sum (fun j => entriesTo i (d j)) j)
    simp only [found]
    exact naming_pos.mpr ⟨entry, member, name, same⟩

theorem children_pos : 0 < children d i ↔ ∃ j inode, d j = some inode ∧ inode.type = .dir ∧
    0 < inode.nlink ∧ parentOf inode = some i := by
  constructor
  · intro positive
    obtain ⟨j, positive⟩ := exists_of_sum_pos _ positive
    cases found : d j with
    | none => simp [childOf, found] at positive
    | some inode =>
      simp only [found, childOf] at positive
      split at positive
      · rename_i child
        exact ⟨j, inode, found, child⟩
      · cases positive
  · intro ⟨j, inode, found, child⟩
    refine lt_of_lt_of_le ?_ (le_sum (fun j => childOf i (d j)) j)
    simp [found, childOf, child]

theorem entriesTo_none : entriesTo i none = 0 := rfl

theorem childOf_none : childOf i none = 0 := rfl

theorem childOf_file (file : inode.type ≠ .dir) : childOf i (some inode) = 0 := by
  simp [childOf, file]

theorem childOf_unlinked (unlinked : inode.nlink = 0) : childOf i (some inode) = 0 := by
  simp [childOf, unlinked]

theorem entriesTo_of_no_slots (empty : inode.slots = []) : entriesTo i (some inode) = 0 := by
  simp [entriesTo, empty, naming]

end Counting

/-- The slot of a directory that `sys_unlink` clears, and the inode that it names. -/
structure Named (d : Dinodes) (dp : Inum) (inode : Inode) (off : Nat) (name : Name) (ip : Inum)
    (target : Inode) : Prop where
  found : d dp = some inode
  directory : inode.type = .dir
  slot : inode.slots[off]? = some (some ⟨name, ip⟩)
  isProper : proper name = true
  targetFound : d ip = some target

theorem ne_of_file {target : Inode} (found : d j = some inode) (directory : inode.type = .dir)
    (targetFound : d i = some target) (file : target.type ≠ .dir) : j ≠ i := by
  rintro rfl
  rw [targetFound, some.injEq] at found
  exact file (found ▸ directory)

/-- A file whose link count is one ahead of its entries. -/
def ahead (pending : Option Inum) (i : Inum) : Nat :=
  if pending = some i then 1 else 0

structure LinkInv (strict : Bool) (d : Dinodes) (pending : Option Inum) : Prop where
  root : ∃ inode, d rootIno = some inode ∧ inode.type = .dir ∧ 0 < inode.nlink ∧
    parentOf inode = some rootIno
  rootEntries : links d rootIno = 0
  shape : ∀ i inode, d i = some inode → inode.type = .dir → DirShape i inode.slots
  plain : ∀ i inode, d i = some inode → inode.type ≠ .dir → inode.slots = []
  dirLinks : ∀ i inode, d i = some inode → inode.type = .dir →
    inode.nlink = ((links d i + children d i : Nat) : Int)
  single : ∀ i inode, d i = some inode → inode.type = .dir → i ≠ rootIno → 0 < inode.nlink →
    links d i = 1
  parents : ∀ i inode entry child, d i = some inode → some entry ∈ inode.slots →
    proper entry.name = true → d entry.inum = some child → child.type = .dir →
    parentOf child = some i
  targets : ∀ i inode entry, d i = some inode → some entry ∈ inode.slots →
    proper entry.name = true → ∃ target, d entry.inum = some target
  fileLinks : ∀ i inode, d i = some inode → inode.type ≠ .dir →
    ((links d i + ahead pending i : Nat) : Int) ≤ inode.nlink ∧
      (strict = true → inode.nlink = ((links d i + ahead pending i : Nat) : Int))
  emptied : strict = true → ∀ i inode, d i = some inode → inode.type = .dir → inode.nlink = 0 →
    ∀ entry, some entry ∈ inode.slots → proper entry.name = false

namespace LinkInv

variable {strict : Bool} {d : Dinodes} {pending : Option Inum} {i : Inum} {inode : Inode}
  {changed : Option Inode}

section

variable (inv : LinkInv strict d pending)
include inv

theorem nlink_nonneg (found : d i = some inode) : 0 ≤ inode.nlink := by
  by_cases directory : inode.type = .dir
  · have count := inv.dirLinks i inode found directory
    omega
  · have count := (inv.fileLinks i inode found directory).1
    omega

/-- No entry names an inode without links. -/
theorem links_of_unlinked (found : d i = some inode)
    (unlinked : inode.nlink = 0) : links d i = 0 := by
  by_cases directory : inode.type = .dir
  · have count := inv.dirLinks i inode found directory
    omega
  · have count := (inv.fileLinks i inode found directory).1
    omega

theorem links_of_free (free : d i = none) : links d i = 0 := by
  rcases Nat.eq_zero_or_pos (links d i) with zero | positive
  · exact zero
  · obtain ⟨j, holder, entry, found, member, name, rfl⟩ := links_pos.mp positive
    obtain ⟨target, allocated⟩ := inv.targets j holder entry found member name
    rw [free] at allocated
    cases allocated

/-- A linked directory has an entry in its parent, which is a directory; the root is its
own parent. -/
theorem parent_of_linked (found : d i = some inode)
    (directory : inode.type = .dir) (linked : 0 < inode.nlink) :
    (i = rootIno ∧ parentOf inode = some rootIno) ∨
      ∃ j holder entry, d j = some holder ∧ holder.type = .dir ∧ parentOf inode = some j ∧
        some entry ∈ holder.slots ∧ proper entry.name = true ∧ entry.inum = i := by
  by_cases isRoot : i = rootIno
  · obtain ⟨root, rootFound, _, _, parent⟩ := inv.root
    rw [isRoot, rootFound, some.injEq] at found
    exact .inl ⟨isRoot, found ▸ parent⟩
  · have one := inv.single i inode found directory isRoot linked
    obtain ⟨j, holder, entry, holderFound, member, name, rfl⟩ := links_pos.mp (by omega : 0 < links d i)
    refine .inr ⟨j, holder, entry, holderFound, ?_, ?_, member, name, rfl⟩
    · by_contra notDir
      rw [inv.plain j holder holderFound notDir] at member
      cases member
    · exact inv.parents j holder entry inode holderFound member name found directory

theorem isDir_of_children (below : 0 < children d i) :
    ∃ inode, d i = some inode ∧ inode.type = .dir := by
  obtain ⟨j, child, found, directory, linked, parent⟩ := children_pos.mp below
  rcases inv.parent_of_linked found directory linked with ⟨_, ofRoot⟩ | ⟨up, holder, _, upFound, upDir, ofUp, _⟩
  · obtain ⟨root, rootFound, rootDir, _⟩ := inv.root
    rw [ofRoot, some.injEq] at parent
    exact ⟨root, parent ▸ rootFound, rootDir⟩
  · rw [ofUp, some.injEq] at parent
    exact ⟨holder, parent ▸ upFound, upDir⟩

theorem children_of_free (free : d i = none) : children d i = 0 := by
  rcases Nat.eq_zero_or_pos (children d i) with zero | positive
  · exact zero
  · obtain ⟨inode, found, _⟩ := inv.isDir_of_children positive
    rw [free] at found
    cases found

theorem children_of_file (found : d i = some inode)
    (file : inode.type ≠ .dir) : children d i = 0 := by
  rcases Nat.eq_zero_or_pos (children d i) with zero | positive
  · exact zero
  · obtain ⟨other, otherFound, directory⟩ := inv.isDir_of_children positive
    rw [found, Option.some.injEq] at otherFound
    exact absurd (otherFound ▸ directory) file

/-- An unlinked directory names no directory. -/
theorem file_of_unlinked_entry (found : d i = some inode)
    (unlinked : inode.nlink = 0) {entry : Dirent} (member : some entry ∈ inode.slots)
    (name : proper entry.name = true) (targetFound : d entry.inum = some target) :
    target.type ≠ .dir := by
  intro directory
  have parent := inv.parents i inode entry target found member name targetFound directory
  have named : 0 < links d entry.inum := links_pos.mpr ⟨i, inode, entry, found, member, name, rfl⟩
  have targetLinks := inv.dirLinks _ target targetFound directory
  have below : 0 < children d i :=
    children_pos.mpr ⟨entry.inum, target, targetFound, directory, by omega, parent⟩
  obtain ⟨self, selfFound, selfDir⟩ := inv.isDir_of_children below
  rw [found, some.injEq] at selfFound
  have count := inv.dirLinks i inode found (selfFound ▸ selfDir)
  omega

end

/-! ## One inode at a time -/

/-- What the invariant says about one inode, given the number of entries that name it, alone and
with the pending link, and the number of linked directories below it. -/
structure Counted (strict : Bool) (links children total : Nat) (i : Inum) (inode : Inode) :
    Prop where
  shape : inode.type = .dir → DirShape i inode.slots
  plain : inode.type ≠ .dir → inode.slots = []
  dirLinks : inode.type = .dir → inode.nlink = ((links + children : Nat) : Int)
  single : inode.type = .dir → i ≠ rootIno → 0 < inode.nlink → links = 1
  fileLinks : inode.type ≠ .dir →
    (total : Int) ≤ inode.nlink ∧ (strict = true → inode.nlink = (total : Int))
  emptied : strict = true → inode.type = .dir → inode.nlink = 0 →
    ∀ entry, some entry ∈ inode.slots → proper entry.name = false

section Counted

variable {count below total : Nat}

theorem Counted.ofDir (directory : inode.type = .dir) (shape : DirShape i inode.slots)
    (links : inode.nlink = ((count + below : Nat) : Int))
    (single : i ≠ rootIno → 0 < inode.nlink → count = 1)
    (emptied : strict = true → inode.nlink = 0 →
      ∀ entry, some entry ∈ inode.slots → proper entry.name = false) :
    Counted strict count below total i inode :=
  ⟨fun _ => shape, (absurd directory ·), fun _ => links, fun _ => single, (absurd directory ·),
    fun isStrict _ => emptied isStrict⟩

theorem Counted.ofFile (file : inode.type ≠ .dir) (plain : inode.slots = [])
    (lower : (total : Int) ≤ inode.nlink) (links : strict = true → inode.nlink = (total : Int)) :
    Counted strict count below total i inode :=
  ⟨(absurd · file), fun _ => plain, (absurd · file), (absurd · file), fun _ => ⟨lower, links⟩,
    fun _ => (absurd · file)⟩

theorem Counted.congr {count' below' total' : Nat} (counted : Counted strict count below total i inode)
    (dir : inode.type = .dir → count' = count ∧ below' = below)
    (file : inode.type ≠ .dir → total' ≤ total ∧ (strict = true → total' = total)) :
    Counted strict count' below' total' i inode := by
  by_cases directory : inode.type = .dir
  · obtain ⟨rfl, rfl⟩ := dir directory
    exact .ofDir directory (counted.shape directory) (counted.dirLinks directory)
      (counted.single directory) fun isStrict => counted.emptied isStrict directory
  · obtain ⟨le, same⟩ := file directory
    have links := counted.fileLinks directory
    refine .ofFile directory (counted.plain directory) (by omega) fun isStrict => ?_
    rw [same isStrict, links.2 isStrict]

end Counted

theorem counted (inv : LinkInv strict d pending) (found : d i = some inode) :
    Counted strict (links d i) (children d i) (links d i + ahead pending i) i inode :=
  ⟨inv.shape i inode found, inv.plain i inode found, inv.dirLinks i inode found,
    inv.single i inode found, inv.fileLinks i inode found,
    fun isStrict => inv.emptied isStrict i inode found⟩

/-- The entry of the directory `i` leads to an inode, and back when that is a directory. -/
def Leads (d : Dinodes) (i : Inum) (entry : Dirent) : Prop :=
  ∃ target, d entry.inum = some target ∧ (target.type = .dir → parentOf target = some i)

/-- The invariant after a change: inodes with entries are kept, and every inode and every new
entry is as it has to be. -/
theorem change {d' : Dinodes} (inv : LinkInv strict d pending)
    (kept : ∀ j old, d j = some old → j = rootIno ∨ 0 < links d j → ∃ new, d' j = some new ∧
      new.type = old.type ∧ parentOf new = parentOf old ∧
      (j = rootIno → 0 < old.nlink → 0 < new.nlink))
    (rootLinks : links d' rootIno = 0)
    (each : ∀ j new, d' j = some new →
      Counted strict (links d' j) (children d' j) (links d' j + ahead pending' j) j new ∧
      ∀ entry, some entry ∈ new.slots → proper entry.name = true →
        Leads d' j entry ∨ ∃ old, d j = some old ∧ some entry ∈ old.slots) :
    LinkInv strict d' pending' := by
  have leads : ∀ j new entry, d' j = some new → some entry ∈ new.slots →
      proper entry.name = true → Leads d' j entry := by
    intro j new entry newFound member name
    rcases (each j new newFound).2 entry member name with leads | ⟨old, found, oldMember⟩
    · exact leads
    · obtain ⟨target, targetFound⟩ := inv.targets j old entry found oldMember name
      obtain ⟨now, nowFound, sameType, sameParent, _⟩ := kept _ target targetFound
        (.inr (links_pos.mpr ⟨j, old, entry, found, oldMember, name, rfl⟩))
      refine ⟨now, nowFound, fun directory => sameParent.trans ?_⟩
      exact inv.parents j old entry target found oldMember name targetFound (sameType ▸ directory)
  refine
    { root := ?_
      rootEntries := rootLinks
      shape := fun j new newFound => (each j new newFound).1.shape
      plain := fun j new newFound => (each j new newFound).1.plain
      dirLinks := fun j new newFound => (each j new newFound).1.dirLinks
      single := fun j new newFound => (each j new newFound).1.single
      parents := ?_
      targets := ?_
      fileLinks := fun j new newFound => (each j new newFound).1.fileLinks
      emptied := fun isStrict j new newFound => (each j new newFound).1.emptied isStrict }
  · obtain ⟨root, found, directory, linked, parent⟩ := inv.root
    obtain ⟨new, newFound, sameType, sameParent, stays⟩ := kept rootIno root found (.inl rfl)
    exact ⟨new, newFound, sameType.trans directory, stays rfl linked, sameParent.trans parent⟩
  · intro j new entry child newFound member name childFound directory
    obtain ⟨target, targetFound, parent⟩ := leads j new entry newFound member name
    obtain rfl : target = child := some.inj (targetFound.symm.trans childFound)
    exact parent directory
  · intro j new entry newFound member name
    obtain ⟨target, targetFound, _⟩ := leads j new entry newFound member name
    exact ⟨target, targetFound⟩

theorem changeOne {k : Inum} (inv : LinkInv strict d pending)
    (kept : ∀ old, d k = some old → k = rootIno ∨ 0 < links d k → ∃ new, changed = some new ∧
      new.type = old.type ∧ parentOf new = parentOf old ∧
      (k = rootIno → 0 < old.nlink → 0 < new.nlink))
    (rootLinks : links (update d k changed) rootIno = links d rootIno)
    (own : ∀ new, changed = some new → Counted strict (links (update d k changed) k)
        (children (update d k changed) k) (links (update d k changed) k + ahead pending' k) k new ∧
      ∀ entry, some entry ∈ new.slots → proper entry.name = true →
        Leads (update d k changed) k entry ∨ ∃ old, d k = some old ∧ some entry ∈ old.slots)
    (others : ∀ j old, j ≠ k → d j = some old → Counted strict (links (update d k changed) j)
      (children (update d k changed) j) (links (update d k changed) j + ahead pending' j) j old) :
    LinkInv strict (update d k changed) pending' := by
  refine inv.change (fun j old found linked => ?_) (rootLinks.trans inv.rootEntries) fun j new found => ?_
  · by_cases same : j = k
    · subst same
      rw [update_self]
      exact kept old found linked
    · exact ⟨old, by rw [update_of_ne same, found], rfl, rfl, fun _ => id⟩
  · rcases update_eq_some found with ⟨rfl, isNew⟩ | ⟨different, oldFound⟩
    · exact own new isNew
    · exact ⟨others j new different oldFound, fun entry member _ => .inr ⟨new, oldFound, member⟩⟩

theorem children_same (same : ∀ k, childOf k changed = childOf k (d i))
    (j : Inum) : children (update d i changed) j = children d j := by
  have sum := children_update d i changed j
  rw [same] at sum
  exact add_right_cancel sum

/-! ## Changes that keep the directory tree -/

/-- The link count of a file changes by as much as the pending link. -/
theorem setFileLinks (inv : LinkInv strict d pending) (found : d i = some inode)
    (file : inode.type ≠ .dir) {count : Int}
    (others : ∀ j, j ≠ i → ahead pending' j = ahead pending j)
    (balance : count + ahead pending i = inode.nlink + ahead pending' i) :
    LinkInv strict (update d i (some { inode with nlink := count })) pending' := by
  have noSlots : inode.slots = [] := inv.plain i inode found file
  have sameLinks : ∀ j, links (update d i (some { inode with nlink := count })) j =
      links d j := by
    intro j
    have sum := links_update d i (some { inode with nlink := count }) j
    rw [found] at sum
    exact add_right_cancel sum
  have sameChildren : ∀ j, children (update d i (some { inode with nlink := count })) j =
      children d j := children_same fun k => by
    rw [found, childOf_file file]
    exact childOf_file file
  apply inv.changeOne
  · intro old oldFound _
    rw [found] at oldFound
    cases oldFound
    obtain ⟨root, rootFound, directory, _⟩ := inv.root
    exact ⟨_, rfl, rfl, rfl, fun isRoot =>
      absurd isRoot.symm (ne_of_file rootFound directory found file)⟩
  · exact sameLinks rootIno
  · rintro new ⟨⟩
    have links := inv.fileLinks i inode found file
    rw [sameLinks i]
    refine ⟨.ofFile file noSlots ?_ fun isStrict => ?_, fun entry member => ?_⟩
    · have lower := links.1
      simp only
      omega
    · have exact := links.2 isStrict
      simp only
      omega
    · rw [noSlots] at member
      cases member
  · intro j old different oldFound
    rw [sameLinks, sameChildren, others j different]
    exact inv.counted oldFound

theorem setSlots (inv : LinkInv strict d pending) (found : d dp = some inode)
    (directory : inode.type = .dir) {slots : List (Option Dirent)} (shape : DirShape dp slots)
    (up : lookup slots dotDot = lookup inode.slots dotDot)
    (targetFound : d i = some target) (file : target.type ≠ .dir)
    (before : ∀ j, j ≠ i → ahead pending j = 0) (after : ∀ j, j ≠ i → ahead pending' j = 0)
    (count : ∀ j, naming proper j slots + ahead pending' j =
      naming proper j inode.slots + ahead pending j)
    (members : ∀ entry, some entry ∈ slots → proper entry.name = true →
      some entry ∈ inode.slots ∨ entry.inum = i)
    (emptied : strict = true → inode.nlink = 0 → ∀ entry, some entry ∈ slots →
      proper entry.name = false) :
    LinkInv strict (update d dp (some { inode with slots })) pending' := by
  have sum : ∀ j, links (update d dp (some { inode with slots })) j + ahead pending' j =
      links d j + ahead pending j := by
    intro j
    have changed := links_update d dp (some { inode with slots }) j
    have balance := count j
    rw [found] at changed
    simp only [entriesTo] at changed
    omega
  have sameLinks : ∀ j old, d j = some old → old.type = .dir →
      links (update d dp (some { inode with slots })) j = links d j := by
    intro j old oldFound oldDir
    have different : j ≠ i := ne_of_file oldFound oldDir targetFound file
    have balance := sum j
    rw [before j different, after j different] at balance
    omega
  have notSelf : i ≠ dp := (ne_of_file found directory targetFound file).symm
  have sameParent : parentOf { inode with slots } = parentOf inode := by
    simp [parentOf, up]
  have sameChildren : ∀ j, children (update d dp (some { inode with slots })) j = children d j :=
    children_same fun k => by simp [found, childOf, sameParent]
  apply inv.changeOne
  · intro old oldFound _
    rw [found] at oldFound
    cases oldFound
    exact ⟨_, rfl, rfl, sameParent, fun _ => id⟩
  · obtain ⟨root, rootFound, rootDir, _⟩ := inv.root
    exact sameLinks rootIno root rootFound rootDir
  · rintro new ⟨⟩
    rw [sameLinks dp inode found directory, sameChildren]
    refine ⟨.ofDir directory shape (inv.dirLinks dp inode found directory)
      (inv.single dp inode found directory) emptied, fun entry member name => ?_⟩
    rcases members entry member name with oldMember | same
    · exact .inr ⟨inode, found, oldMember⟩
    · exact .inl ⟨target, by rw [same, update_of_ne notSelf, targetFound],
        fun targetDir => absurd targetDir file⟩
  · intro j old _ oldFound
    exact (inv.counted oldFound).congr (fun oldDir => ⟨sameLinks j old oldFound oldDir, sameChildren j⟩)
      fun _ => ⟨le_of_eq (sum j), fun _ => sum j⟩

theorem ahead_self (i : Inum) : ahead (some i) i = 1 := if_pos rfl

theorem ahead_of_ne (different : j ≠ i) : ahead (some i) j = 0 :=
  if_neg fun same => different (some.inj same).symm

theorem ahead_none (i : Inum) : ahead none i = 0 := if_neg nofun

/-- `dirlink` of a file whose link is counted already. -/
theorem link (inv : LinkInv strict d (some i)) (found : d dp = some inode)
    (directory : inode.type = .dir) (linked : strict = true → 0 < inode.nlink)
    (targetFound : d i = some target) (file : target.type ≠ .dir) (isProper : proper name = true) :
    LinkInv strict (update d dp (some (inode.link name i))) none := by
  have shape := inv.shape dp inode found directory
  apply inv.setSlots found directory (shape.addEntry isProper) shape.lookup_addEntry targetFound file
  · exact fun j different => ahead_of_ne different
  · exact fun j _ => ahead_none j
  · intro j
    rw [naming_addEntry, ahead_none]
    by_cases same : j = i
    · subst same
      simp [isProper, ahead_self]
    · simp [ahead_of_ne same, Ne.symm same]
  · intro entry member name
    rcases mem_addEntry.mp member with rfl | member
    · exact .inr rfl
    · exact .inl member
  · intro isStrict unlinked
    have := linked isStrict
    omega

/-- `sys_unlink` clears the entry of a file. -/
theorem unlinkFile (inv : LinkInv strict d none) {off : Nat}
    (named : Named d dp inode off name i target) (file : target.type ≠ .dir) :
    LinkInv strict (update d dp (some (inode.unlink off))) (some i) := by
  obtain ⟨found, directory, slot, isProper, targetFound⟩ := named
  have shape := (inv.shape dp inode found directory).clear slot isProper
  apply inv.setSlots found directory shape.1 shape.2 targetFound file
  · exact fun j _ => ahead_none j
  · exact fun j different => ahead_of_ne different
  · intro j
    have cleared : naming proper j (inode.slots.set off none) +
        (if proper name = true ∧ i = j then 1 else 0) = naming proper j inode.slots :=
      naming_clear slot
    rw [ahead_none]
    by_cases same : j = i
    · subst same
      simp only [isProper, true_and, if_true] at cleared
      rw [ahead_self]
      omega
    · simp only [isProper, true_and, Ne.symm same, if_false] at cleared
      rw [ahead_of_ne same]
      omega
  · exact fun entry member _ => .inl (mem_of_mem_clear member)
  · intro isStrict unlinked entry member
    exact inv.emptied isStrict dp inode found directory unlinked entry (mem_of_mem_clear member)

theorem allocFile (inv : LinkInv strict d none) (free : d i = none) {new : Inode}
    (file : new.type ≠ .dir) (noSlots : new.slots = []) (count : new.nlink = 1) :
    LinkInv strict (update d i (some new)) (some i) := by
  have sameLinks : ∀ j, links (update d i (some new)) j = links d j := by
    intro j
    have sum := links_update d i (some new) j
    rw [free, entriesTo_of_no_slots noSlots, entriesTo_none] at sum
    omega
  have sameChildren : ∀ j, children (update d i (some new)) j = children d j :=
    children_same fun k => by rw [free, childOf_file file, childOf_none]
  apply inv.changeOne
  · intro old oldFound
    rw [free] at oldFound
    cases oldFound
  · exact sameLinks rootIno
  · rintro now ⟨⟩
    rw [sameLinks, inv.links_of_free free, ahead_self]
    refine ⟨.ofFile file noSlots (by omega) fun _ => count, fun entry member => ?_⟩
    rw [noSlots] at member
    cases member
  · intro j old different oldFound
    have counted := inv.counted oldFound
    rwa [sameLinks, sameChildren, ahead_of_ne different, ← ahead_none j]

/-- `iput` frees an inode without links. -/
theorem free (inv : LinkInv strict d pending) (found : d i = some inode) (unlinked : inode.nlink = 0) :
    LinkInv strict (update d i none) pending := by
  have noEntry := inv.links_of_unlinked found unlinked
  have sum : ∀ j, links (update d i none) j + entriesTo j (some inode) = links d j := by
    intro j
    have changed := links_update d i none j
    rw [found, entriesTo_none] at changed
    omega
  -- an unlinked directory can only hold entries of files
  have sameLinks : ∀ j old, d j = some old → old.type = .dir →
      links (update d i none) j = links d j := by
    intro j old oldFound directory
    have none : entriesTo j (some inode) = 0 := by
      refine naming_eq_zero fun entry member name same => ?_
      subst same
      exact inv.file_of_unlinked_entry found unlinked member name oldFound directory
    have changed := sum j
    omega
  have sameChildren : ∀ j, children (update d i none) j = children d j :=
    children_same fun k => by rw [found, childOf_unlinked unlinked, childOf_none]
  obtain ⟨root, rootFound, rootDir, rootLinked, _⟩ := inv.root
  apply inv.changeOne
  · rintro old oldFound (rfl | linked)
    · rw [found, some.injEq] at rootFound
      subst rootFound
      omega
    · omega
  · exact sameLinks rootIno root rootFound rootDir
  · nofun
  · intro j old _ oldFound
    refine (inv.counted oldFound).congr (fun oldDir => ⟨sameLinks j old oldFound oldDir, sameChildren j⟩)
      fun _ => ⟨by have := sum j; omega, fun isStrict => ?_⟩
    have changed := sum j
    have none : entriesTo j (some inode) = 0 := by
      by_cases directory : inode.type = .dir
      · refine naming_eq_zero fun entry member name => ?_
        rw [inv.emptied isStrict i inode found directory unlinked entry member] at name
        cases name
      · exact entriesTo_of_no_slots (inv.plain i inode found directory)
    omega

end LinkInv

end Laboratorio.Xv6.Fs
