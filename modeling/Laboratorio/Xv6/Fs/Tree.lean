import Laboratorio.Xv6.Fs.Links

/-! # Changes of the directory tree

`mkdir` adds a directory below another and `unlink` removes an empty one; both change
two inodes.  The invariants of the tree hold again after both changes.

`DotsInv` is about `..`: the parent of every directory, linked or not, is allocated.
-/

namespace Laboratorio.Xv6.Fs

open Laboratorio.Lib Function Option

namespace LinkInv

variable {strict : Bool} {d : Dinodes} {inode target new : Inode} {dp ip : Inum} {name : Name}

/-! ## A new directory -/

def withChild (inode : Inode) (name : Name) (ip : Inum) : Inode :=
  { inode with nlink := inode.nlink + 1, slots := addEntry inode.slots ⟨name, ip⟩ }

def withDir (d : Dinodes) (dp ip : Inum) (inode new : Inode) (name : Name) : Dinodes :=
  Function.update (Function.update d ip (some new)) dp (some (withChild inode name ip))

theorem ne_of_free {i : Inum} (found : d dp = some inode) (free : d i = none) : i ≠ dp := by
  rintro rfl
  rw [free] at found
  cases found

theorem withDir_parent : withDir d dp ip inode new name dp = some (withChild inode name ip) :=
  update_self ..

theorem withDir_new (different : ip ≠ dp) : withDir d dp ip inode new name ip = some new := by
  rw [withDir, update_of_ne different, update_self]

theorem withDir_other {j : Inum} (notParent : j ≠ dp) (notNew : j ≠ ip) :
    withDir d dp ip inode new name j = d j := by
  rw [withDir, update_of_ne notParent, update_of_ne notNew]

theorem parentOf_withChild (shape : DirShape dp inode.slots) :
    parentOf (withChild inode name ip) = parentOf inode := by
  simp [parentOf, withChild, shape.lookup_addEntry]

theorem links_withDir (found : d dp = some inode) (free : d ip = none) (isProper : proper name = true)
    (newSlots : new.slots = [some ⟨dot, ip⟩, some ⟨dotDot, dp⟩]) (j : Inum) :
    links (withDir d dp ip inode new name) j = links d j + if ip = j then 1 else 0 := by
  have first := links_update d ip (some new) j
  have second := links_update (update d ip (some new)) dp (some (withChild inode name ip)) j
  rw [update_of_ne (ne_of_free found free).symm, found] at second
  have noEntries : entriesTo j (some new) = 0 := by
    simp only [entriesTo, newSlots]
    exact naming_eq_zero (by simp [proper])
  have one : entriesTo j (some (withChild inode name ip)) =
      entriesTo j (some inode) + if ip = j then 1 else 0 := by
    simp [entriesTo, withChild, naming_addEntry, isProper]
  rw [free, entriesTo_none] at first
  show links (update _ dp _) j = _
  omega

theorem children_withDir (found : d dp = some inode) (linked : 0 < inode.nlink)
    (shape : DirShape dp inode.slots) (free : d ip = none) (newType : new.type = .dir)
    (newLinks : new.nlink = 1) (newSlots : new.slots = [some ⟨dot, ip⟩, some ⟨dotDot, dp⟩])
    (j : Inum) :
    children (withDir d dp ip inode new name) j = children d j + if dp = j then 1 else 0 := by
  have first := children_update d ip (some new) j
  have second :=
    children_update (update d ip (some new)) dp (some (withChild inode name ip)) j
  rw [update_of_ne (ne_of_free found free).symm, found] at second
  have one : childOf j (some new) = if dp = j then 1 else 0 := by
    have up : parentOf new = some dp := by simp [parentOf, newSlots, lookup, dot_ne_dotDot]
    simp [childOf, newType, newLinks, up]
  have same : childOf j (some (withChild inode name ip)) = childOf j (some inode) := by
    have more : 0 < inode.nlink + 1 := by omega
    simp only [childOf, parentOf_withChild shape]
    simp [withChild, linked, more]
  rw [free, childOf_none] at first
  show children (update _ dp _) j = _
  omega

theorem makeDir (inv : LinkInv strict d none) (found : d dp = some inode)
    (directory : inode.type = .dir) (linked : 0 < inode.nlink) (free : d ip = none)
    (isProper : proper name = true) (newType : new.type = .dir) (newLinks : new.nlink = 1)
    (newSlots : new.slots = [some ⟨dot, ip⟩, some ⟨dotDot, dp⟩]) :
    LinkInv strict (withDir d dp ip inode new name) none := by
  have different := ne_of_free found free
  have shape := inv.shape dp inode found directory
  have newEntries := links_withDir found free isProper newSlots
  have newChildren : ∀ j, children (withDir d dp ip inode new name) j = _ :=
    children_withDir found linked shape free newType newLinks newSlots
  have newPlain : ∀ entry, some entry ∈ new.slots → proper entry.name = false := by
    simp [newSlots, proper]
  apply inv.change
  · intro j old oldFound _
    by_cases isParent : j = dp
    · subst isParent
      rw [found] at oldFound
      cases oldFound
      refine ⟨_, withDir_parent, rfl, parentOf_withChild shape, fun _ _ => ?_⟩
      simp only [withChild]
      omega
    · exact ⟨old, by rw [withDir_other isParent (ne_of_free oldFound free).symm, oldFound], rfl, rfl,
        fun _ => id⟩
  · obtain ⟨root, rootFound, _⟩ := inv.root
    rw [newEntries, inv.rootEntries, if_neg (ne_of_free rootFound free)]
  · intro j now nowFound
    rw [newEntries, newChildren]
    rcases update_update_eq_some nowFound with ⟨rfl, ⟨⟩⟩ | ⟨rfl, ⟨⟩⟩ | ⟨notParent, notNew, oldFound⟩
    · rw [if_neg different, if_pos rfl]
      refine ⟨.ofDir directory (shape.addEntry isProper) ?_ (fun notRoot _ => ?_) fun _ none => ?_, ?_⟩
      · have count := inv.dirLinks j inode found directory
        simp only [withChild]
        omega
      · rw [inv.single j inode found directory notRoot linked]
      · simp only [withChild] at none
        omega
      · intro entry member _
        rcases mem_addEntry.mp member with rfl | oldMember
        · refine .inl ⟨new, withDir_new different, fun _ => ?_⟩
          simp [parentOf, newSlots, lookup, dot_ne_dotDot]
        · exact .inr ⟨inode, found, oldMember⟩
    · rw [inv.links_of_free free, inv.children_of_free free, if_pos rfl, if_neg different.symm]
      refine ⟨.ofDir newType ⟨dp, [], newSlots, by rintro _ ⟨⟩⟩ (by omega) (fun _ _ => rfl) (by omega), ?_⟩
      intro entry member entryName
      rw [newPlain entry member] at entryName
      cases entryName
    · rw [if_neg notNew.symm, if_neg notParent.symm, Nat.add_zero, Nat.add_zero]
      exact ⟨inv.counted oldFound, fun entry member _ => .inr ⟨now, oldFound, member⟩⟩

/-! ## A removed directory -/

def withoutChild (inode : Inode) (off : Nat) : Inode :=
  { inode with nlink := inode.nlink + -1, slots := inode.slots.set off none }

def unlinked (target : Inode) : Inode :=
  { target with nlink := target.nlink + -1 }

def withoutDir (d : Dinodes) (dp ip : Inum) (inode target : Inode) (off : Nat) : Dinodes :=
  Function.update (Function.update d dp (some (withoutChild inode off))) ip (some (unlinked target))

variable {off : Nat}

theorem withoutDir_removed : withoutDir d dp ip inode target off ip = some (unlinked target) :=
  update_self ..

theorem withoutDir_parent (different : dp ≠ ip) :
    withoutDir d dp ip inode target off dp = some (withoutChild inode off) := by
  rw [withoutDir, update_of_ne different, update_self]

theorem withoutDir_other {j : Inum} (notParent : j ≠ dp) (notRemoved : j ≠ ip) :
    withoutDir d dp ip inode target off j = d j := by
  rw [withoutDir, update_of_ne notRemoved, update_of_ne notParent]

/-- What is known of an empty directory and its parent before it is removed. -/
structure Removable (d : Dinodes) (dp ip : Inum) (inode target : Inode) : Prop where
  different : dp ≠ ip
  notRoot : ip ≠ rootIno
  up : parentOf target = some dp
  one : target.nlink = 1
  links : links d ip = 1
  children : children d ip = 0
  more : 1 < inode.nlink

section

variable (named : Named d dp inode off name ip target) (targetDir : target.type = .dir)
  (empty : isdirempty target = true)
include named targetDir empty

theorem removable (inv : LinkInv strict d none) : Removable d dp ip inode target := by
  obtain ⟨found, directory, slot, isProper, targetFound⟩ := named
  have member : some ⟨name, ip⟩ ∈ inode.slots := List.mem_of_getElem? slot
  have plain : ∀ entry, some entry ∈ target.slots → proper entry.name = false := fun entry =>
    (inv.shape ip target targetFound targetDir).not_proper_of_empty empty
  have different : dp ≠ ip := by
    rintro rfl
    rw [found, some.injEq] at targetFound
    have notProper : proper name = false := plain ⟨name, dp⟩ (targetFound ▸ member)
    rw [notProper] at isProper
    cases isProper
  have named : 0 < links d ip := links_pos.mpr ⟨dp, inode, _, found, member, isProper, rfl⟩
  have notRoot : ip ≠ rootIno := by
    rintro rfl
    have := inv.rootEntries
    omega
  have up : parentOf target = some dp :=
    inv.parents dp inode _ target found member isProper targetFound targetDir
  have count := inv.dirLinks ip target targetFound targetDir
  have one := inv.single ip target targetFound targetDir notRoot (by omega)
  -- a linked directory below would have an entry in the empty one
  have noChildren : children d ip = 0 := by
    rcases Nat.eq_zero_or_pos (children d ip) with zero | positive
    · exact zero
    · obtain ⟨j, child, childFound, childDir, childLinked, childUp⟩ := children_pos.mp positive
      rcases inv.parent_of_linked childFound childDir childLinked with
        ⟨_, rootUp⟩ | ⟨holder, holderInode, entry, holderFound, _, holderUp, entryMember, entryName, _⟩
      · rw [rootUp, some.injEq] at childUp
        exact absurd childUp.symm notRoot
      · rw [holderUp] at childUp
        cases childUp
        rw [targetFound, some.injEq] at holderFound
        rw [plain entry (holderFound ▸ entryMember)] at entryName
        cases entryName
  have isChild : childOf dp (d ip) = 1 := by
    simp only [targetFound]
    exact if_pos ⟨targetDir, by omega, up⟩
  have below : 1 ≤ children d dp := by
    have := le_sum (fun j => childOf dp (d j)) ip
    simp only [isChild] at this
    exact this
  have parentCount := inv.dirLinks dp inode found directory
  have more : 1 < inode.nlink := by
    by_cases isRoot : dp = rootIno
    · -- the root counts itself as well
      obtain ⟨root, rootFound, rootDir, rootLinked, rootUp⟩ := inv.root
      have self : childOf dp (d dp) = 1 := by
        rw [isRoot]
        simp only [rootFound]
        exact if_pos ⟨rootDir, rootLinked, rootUp⟩
      have two := add_le_sum (fun j => childOf dp (d j)) different
      simp only [self, isChild] at two
      have twoChildren : 2 ≤ children d dp := two
      omega
    · have := inv.single dp inode found directory isRoot (by omega)
      omega
  exact ⟨different, notRoot, up, by omega, one, noChildren, more⟩

omit targetDir empty in
theorem links_withoutDir (removable : Removable d dp ip inode target) (j : Inum) :
    links (withoutDir d dp ip inode target off) j + (if ip = j then 1 else 0) = links d j := by
  obtain ⟨found, directory, slot, isProper, targetFound⟩ := named
  have first := links_update d dp (some (withoutChild inode off)) j
  have second := links_update (update d dp (some (withoutChild inode off))) ip
    (some (unlinked target)) j
  rw [update_of_ne removable.different.symm, targetFound] at second
  have cleared : naming proper j (inode.slots.set off none) +
      (if proper name = true ∧ ip = j then 1 else 0) = naming proper j inode.slots :=
    naming_clear slot
  have same : entriesTo j (some (unlinked target)) = entriesTo j (some target) := rfl
  simp only [isProper, true_and] at cleared
  rw [found] at first
  rw [same] at second
  simp only [entriesTo, withoutChild] at first
  show links (update _ ip _) j + _ = _
  simp only [entriesTo, withoutChild] at second ⊢
  omega

omit empty in
theorem children_withoutDir (removable : Removable d dp ip inode target)
    (up : parentOf (withoutChild inode off) = parentOf inode) (j : Inum) :
    children (withoutDir d dp ip inode target off) j + (if dp = j then 1 else 0) = children d j := by
  have first := children_update d dp (some (withoutChild inode off)) j
  have second := children_update (update d dp (some (withoutChild inode off))) ip
    (some (unlinked target)) j
  rw [update_of_ne removable.different.symm, named.targetFound] at second
  have more := removable.more
  have same : childOf j (some (withoutChild inode off)) = childOf j (some inode) := by
    have linked : 0 < inode.nlink + -1 := by omega
    have before : 0 < inode.nlink := by omega
    simp only [childOf, up]
    simp [withoutChild, linked, before]
  have gone : childOf j (some (unlinked target)) = 0 := by
    apply childOf_unlinked
    simp only [unlinked, removable.one]
    rfl
  have one : childOf j (some target) = if dp = j then 1 else 0 := by
    simp [childOf, targetDir, removable.one, removable.up]
  rw [named.found, same] at first
  rw [gone, one] at second
  show children (update _ ip _) j + _ = _
  omega

omit targetDir empty in
theorem parentOf_withoutChild (inv : LinkInv strict d none) :
    parentOf (withoutChild inode off) = parentOf inode := by
  have cleared := (inv.shape dp inode named.found named.directory).clear named.slot named.isProper
  simp [parentOf, withoutChild, cleared.2]

theorem removeDir (inv : LinkInv strict d none) :
    LinkInv strict (withoutDir d dp ip inode target off) none := by
  have removable := removable named targetDir empty inv
  have different := removable.different
  have parentUp := parentOf_withoutChild named inv
  have newEntries := links_withoutDir named removable
  have newChildren := children_withoutDir named targetDir removable parentUp
  obtain ⟨found, directory, slot, isProper, targetFound⟩ := named
  have shape := (inv.shape dp inode found directory).clear slot isProper
  have more := removable.more
  have gone : (unlinked target).nlink = 0 := by
    simp only [unlinked, removable.one]
    rfl
  have plain : ∀ entry, some entry ∈ target.slots → proper entry.name = false := fun entry =>
    (inv.shape ip target targetFound targetDir).not_proper_of_empty empty
  apply inv.change
  · intro j old oldFound _
    by_cases isRemoved : j = ip
    · subst isRemoved
      rw [targetFound] at oldFound
      cases oldFound
      exact ⟨_, withoutDir_removed, rfl, rfl, fun isRoot => absurd isRoot removable.notRoot⟩
    · by_cases isParent : j = dp
      · subst isParent
        rw [found] at oldFound
        cases oldFound
        refine ⟨_, withoutDir_parent different, rfl, parentUp, fun _ _ => ?_⟩
        simp only [withoutChild]
        omega
      · exact ⟨old, by rw [withoutDir_other isParent isRemoved, oldFound], rfl, rfl, fun _ => id⟩
  · have sum := newEntries rootIno
    rw [inv.rootEntries] at sum
    omega
  · intro j now nowFound
    have entrySum := newEntries j
    have childSum := newChildren j
    rcases update_update_eq_some nowFound with ⟨rfl, ⟨⟩⟩ | ⟨rfl, ⟨⟩⟩ | ⟨notRemoved, notParent, oldFound⟩
    · rw [if_pos rfl, removable.links] at entrySum
      rw [removable.children] at childSum
      refine ⟨.ofDir targetDir (inv.shape j target targetFound targetDir) (by omega)
        (fun _ nowLinked => by omega) fun _ _ => plain, ?_⟩
      exact fun entry member _ => .inr ⟨target, targetFound, member⟩
    · rw [if_neg different.symm] at entrySum
      rw [if_pos rfl] at childSum
      refine ⟨.ofDir directory shape.1 ?_ (fun notRoot _ => ?_) fun _ none => ?_, ?_⟩
      · have count := inv.dirLinks j inode found directory
        simp only [withoutChild]
        omega
      · have := inv.single j inode found directory notRoot (by omega)
        omega
      · simp only [withoutChild] at none
        omega
      · exact fun entry member _ => .inr ⟨inode, found, mem_of_mem_clear member⟩
    · rw [if_neg notRemoved.symm, Nat.add_zero] at entrySum
      rw [if_neg notParent.symm, Nat.add_zero] at childSum
      rw [entrySum, childSum]
      exact ⟨inv.counted oldFound, fun entry member _ => .inr ⟨now, oldFound, member⟩⟩

end

end LinkInv

/-! ## Parents -/

/-- `..` of every directory is a directory, and `..` of no other directory is an unlinked
one. -/
structure DotsInv (d : Dinodes) : Prop where
  up : ∀ i inode, d i = some inode → inode.type = .dir → ∀ parent, parentOf inode = some parent →
    ∃ target, d parent = some target ∧ target.type = .dir
  alone : ∀ i inode, d i = some inode → inode.type = .dir → inode.nlink = 0 →
    ∀ j other, j ≠ i → d j = some other → other.type = .dir → parentOf other ≠ some i

namespace DotsInv

open LinkInv

variable {strict : Bool} {d : Dinodes} {pending : Option Inum} {i : Inum} {inode target new : Inode}
  {dp ip : Inum} {name : Name} {off : Nat}

theorem update (dots : DotsInv d) (change : ∀ found, d i = some found → found.type = .dir →
      new.type = .dir ∧ new.nlink = found.nlink ∧ parentOf new = parentOf found)
    (file : (∃ found, d i = some found ∧ found.type = .dir) ∨ new.type ≠ .dir) :
    DotsInv (Function.update d i (some new)) := by
  -- every directory was one before, with the same links and parent
  have back : ∀ j now, Function.update d i (some new) j = some now → now.type = .dir →
      ∃ old, d j = some old ∧ old.type = .dir ∧ now.nlink = old.nlink ∧
        parentOf now = parentOf old := by
    intro j now nowFound nowDir
    rcases update_eq_some nowFound with ⟨rfl, ⟨⟩⟩ | ⟨_, oldFound⟩
    · rcases file with ⟨old, oldFound, oldDir⟩ | isFile
      · obtain ⟨_, sameLinks, sameUp⟩ := change old oldFound oldDir
        exact ⟨old, oldFound, oldDir, sameLinks, sameUp⟩
      · exact absurd nowDir isFile
    · exact ⟨now, oldFound, nowDir, rfl, rfl⟩
  constructor
  · intro j now nowFound nowDir parent isParent
    obtain ⟨old, oldFound, oldDir, _, sameUp⟩ := back j now nowFound nowDir
    obtain ⟨target, targetFound, targetDir⟩ :=
      dots.up j old oldFound oldDir parent (sameUp ▸ isParent)
    by_cases same : parent = i
    · subst same
      exact ⟨new, update_self .., (change target targetFound targetDir).1⟩
    · exact ⟨target, by rw [update_of_ne same, targetFound], targetDir⟩
  · intro j now nowFound nowDir unlinked k other different otherFound otherDir
    obtain ⟨old, oldFound, oldDir, sameLinks, _⟩ := back j now nowFound nowDir
    obtain ⟨oldOther, oldOtherFound, oldOtherDir, _, sameUp⟩ := back k other otherFound otherDir
    rw [sameUp]
    exact dots.alone j old oldFound oldDir (sameLinks ▸ unlinked) k oldOther different
      oldOtherFound oldOtherDir

theorem setEntry (dots : DotsInv d) (found : d dp = some inode) (directory : inode.type = .dir)
    (newDir : new.type = .dir) (links : new.nlink = inode.nlink)
    (up : parentOf new = parentOf inode) : DotsInv (Function.update d dp (some new)) := by
  apply dots.update
  · intro old oldFound _
    rw [found] at oldFound
    cases oldFound
    exact ⟨newDir, links, up⟩
  · exact .inl ⟨inode, found, directory⟩

theorem free (dots : DotsInv d) (found : d i = some inode) (unlinked : inode.nlink = 0) :
    DotsInv (Function.update d i none) := by
  have kept : ∀ j old, Function.update d i none j = some old → j ≠ i ∧ d j = some old := by
    intro j old oldFound
    rcases update_eq_some oldFound with ⟨_, ⟨⟩⟩ | kept
    exact kept
  constructor
  · intro j old newFound directory parent isParent
    obtain ⟨different, oldFound⟩ := kept j old newFound
    obtain ⟨target, targetFound, targetDir⟩ := dots.up j old oldFound directory parent isParent
    have notFreed : parent ≠ i := by
      rintro rfl
      rw [found, some.injEq] at targetFound
      exact dots.alone parent inode found (targetFound ▸ targetDir) unlinked j old different oldFound
        directory isParent
    exact ⟨target, by rw [update_of_ne notFreed, targetFound], targetDir⟩
  · intro j old newFound directory oldUnlinked k other different otherFound
    exact dots.alone j old (kept j old newFound).2 directory oldUnlinked k other different
      (kept k other otherFound).2

theorem makeDir (dots : DotsInv d) (found : d dp = some inode) (directory : inode.type = .dir)
    (linked : 0 < inode.nlink) (shape : DirShape dp inode.slots) (free : d ip = none)
    (newLinks : new.nlink = 1) (up : parentOf new = some dp) :
    DotsInv (withDir d dp ip inode new name) := by
  constructor
  · intro j now nowFound nowDir parent isParent
    have lift : ∀ target, d parent = some target → target.type = .dir →
        ∃ now, withDir d dp ip inode new name parent = some now ∧ now.type = .dir := by
      intro target targetFound targetDir
      by_cases isDp : parent = dp
      · exact ⟨withChild inode name ip, by rw [isDp, withDir_parent], directory⟩
      · exact ⟨target, by rw [withDir_other isDp (ne_of_free targetFound free).symm, targetFound],
          targetDir⟩
    rcases update_update_eq_some nowFound with ⟨rfl, ⟨⟩⟩ | ⟨rfl, ⟨⟩⟩ | ⟨_, _, oldFound⟩
    · rw [parentOf_withChild shape] at isParent
      obtain ⟨target, targetFound, targetDir⟩ := dots.up j inode found directory parent isParent
      exact lift target targetFound targetDir
    · rw [up] at isParent
      cases isParent
      exact ⟨_, withDir_parent, directory⟩
    · obtain ⟨target, targetFound, targetDir⟩ := dots.up j now oldFound nowDir parent isParent
      exact lift target targetFound targetDir
  · intro j now nowFound nowDir unlinked k other apart otherFound otherDir
    rcases update_update_eq_some nowFound with ⟨rfl, ⟨⟩⟩ | ⟨rfl, ⟨⟩⟩ | ⟨notParent, _, oldFound⟩
    · simp only [withChild] at unlinked
      omega
    · omega
    · rcases update_update_eq_some otherFound with ⟨rfl, ⟨⟩⟩ | ⟨rfl, ⟨⟩⟩ | ⟨_, _, oldOther⟩
      · rw [parentOf_withChild shape]
        exact dots.alone j now oldFound nowDir unlinked k inode apart found directory
      · rw [up]
        exact fun same => notParent (some.inj same).symm
      · exact dots.alone j now oldFound nowDir unlinked k other apart oldOther otherDir

theorem removeDir (dots : DotsInv d) (inv : LinkInv strict d none)
    (named : Named d dp inode off name ip target) (targetDir : target.type = .dir)
    (empty : isdirempty target = true)
    (noneBelow : ∀ j other, j ≠ ip → d j = some other → other.type = .dir → other.nlink = 0 →
      parentOf other ≠ some ip) :
    DotsInv (withoutDir d dp ip inode target off) := by
  have removable := removable named targetDir empty inv
  have different := removable.different
  have more := removable.more
  have parentUp := parentOf_withoutChild named inv
  obtain ⟨found, directory, -, -, targetFound⟩ := named
  -- every directory was one before, with the same parent
  have back : ∀ j now, withoutDir d dp ip inode target off j = some now → now.type = .dir →
      ∃ old, d j = some old ∧ old.type = .dir ∧ parentOf now = parentOf old := by
    intro j now nowFound nowDir
    rcases update_update_eq_some nowFound with ⟨rfl, ⟨⟩⟩ | ⟨rfl, ⟨⟩⟩ | ⟨_, _, oldFound⟩
    · exact ⟨target, targetFound, targetDir, rfl⟩
    · exact ⟨inode, found, directory, parentUp⟩
    · exact ⟨now, oldFound, nowDir, rfl⟩
  constructor
  · intro j now nowFound nowDir parent isParent
    obtain ⟨old, oldFound, oldDir, sameUp⟩ := back j now nowFound nowDir
    obtain ⟨up, upFound, upDir⟩ := dots.up j old oldFound oldDir parent (sameUp ▸ isParent)
    by_cases isRemoved : parent = ip
    · exact ⟨unlinked target, by rw [isRemoved, withoutDir_removed], targetDir⟩
    · by_cases isDp : parent = dp
      · exact ⟨withoutChild inode off, by rw [isDp, withoutDir_parent different], directory⟩
      · exact ⟨up, by rw [withoutDir_other isDp isRemoved, upFound], upDir⟩
  · intro j now nowFound nowDir unlinked k other apart otherFound otherDir
    obtain ⟨old, oldFound, oldDir, sameUp⟩ := back k other otherFound otherDir
    rw [sameUp]
    rcases update_update_eq_some nowFound with ⟨rfl, ⟨⟩⟩ | ⟨rfl, ⟨⟩⟩ | ⟨_, _, nowOld⟩
    · -- nothing is below the removed directory: it was empty
      intro below
      by_cases zero : old.nlink = 0
      · exact noneBelow k old apart oldFound oldDir zero below
      · have nonneg := inv.nlink_nonneg oldFound
        have counted : 0 < children d j :=
          children_pos.mpr ⟨k, old, oldFound, oldDir, by omega, below⟩
        have := removable.children
        omega
    · simp only [withoutChild] at unlinked
      omega
    · exact dots.alone j now nowOld nowDir unlinked k old apart oldFound oldDir

theorem targets (dots : DotsInv d) (inv : LinkInv strict d pending) (found : d i = some inode)
    {entry : Dirent} (member : some entry ∈ inode.slots) :
    ∃ target, d entry.inum = some target := by
  by_cases directory : inode.type = .dir
  · by_cases isProper : proper entry.name = true
    · exact inv.targets i inode entry found member isProper
    · -- an improper name is one of the first two entries
      obtain ⟨parent, rest, slots, others⟩ := inv.shape i inode found directory
      have up : parentOf inode = some parent := by simp [parentOf, slots, lookup, dot_ne_dotDot]
      rw [slots, List.mem_cons, List.mem_cons] at member
      rcases member with isDot | isDotDot | member
      · rw [some.inj isDot]
        exact ⟨inode, found⟩
      · obtain ⟨target, targetFound, _⟩ := dots.up i inode found directory parent up
        rw [some.inj isDotDot]
        exact ⟨target, targetFound⟩
      · exact absurd (others entry member) isProper
  · rw [inv.plain i inode found directory] at member
    cases member

end DotsInv

end Laboratorio.Xv6.Fs
