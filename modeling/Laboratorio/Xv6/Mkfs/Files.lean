import Laboratorio.Xv6.Mkfs.Refines

/-! # What `mkfs` has stored

`Holds g kind data` says that the inodes allocated so far have these types and contents, and that
the blocks in use are exactly theirs.  Every step of the program keeps it, and at the end the data
are the root directory and the files of the command line (`Made`).
-/

namespace Laboratorio.Xv6.Mkfs

open Laboratorio.Lib Inodes Function Option Nat List

variable {inum : Nat} {files : List File}

variable {g g' : Globals} {kind : Nat → FileType} {data : Nat → List UInt8} {bytes : List UInt8}
  {type : FileType}

/-- An inode of the file system with its type and contents, without holes. -/
structure Stores (fs : FileSystem) (inum : Nat) (type : FileType) (bytes : List UInt8)
    (ip : Inode) : Prop where
  entry : fs.dinodes inum = some ip
  type : ip.type = type
  extent : Extent (addrOf fs.blocks fs.dinodes) inum (blocksFor ip.size)
  bytes : contents fs.blocks ip = bytes

theorem Stores.size {fs : FileSystem}
    {ip : Inode} (stores : Stores fs inum type bytes ip) : ip.size = bytes.length := by
  rw [← stores.bytes, contents_length]

theorem Stores.opened {fs : FileSystem} {ip : Inode} (stores : Stores fs inum type bytes ip)
    (owns : Owns fs fs.dinodes []) : Opened fs inum ip ip :=
  ⟨owns, stores.entry, .refl ip, fun _ => stores.extent⟩

structure Holds (g : Globals) (kind : Nat → FileType) (data : Nat → List UInt8) : Prop where
  ok : Ok g
  owns : Owns (view g) (view g).dinodes []
  notDevice : ∀ inum, kind inum ≠ .dev
  file : ∀ inum, 1 ≤ inum → inum < g.freeinode →
    ∃ ip, Stores (view g) inum (kind inum) (data inum) ip

theorem Holds.congr (holds : Holds g kind data) {data' : Nat → List UInt8}
    (same : ∀ inum, 1 ≤ inum → inum < g.freeinode → data' inum = data inum) :
    Holds g kind data' where
  ok := holds.ok
  owns := holds.owns
  notDevice := holds.notDevice
  file inum lower upper := by
    rw [same inum lower upper]
    exact holds.file inum lower upper

theorem Holds.iappend (holds : Holds g kind data) (lower : 1 ≤ inum)
    (upper : inum < g.freeinode) {p : List UInt8} (nonempty : p ≠ [])
    (result : iappend g inum p = some g') :
    Holds g' kind (update data inum (data inum ++ p)) := by
  obtain ⟨ip, stores⟩ := holds.file inum lower upper
  have notDevice : ip.type ≠ .dev := by
    rw [stores.type]
    exact holds.notDevice inum
  have opened := stores.opened holds.owns
  obtain ⟨⟨ip', ok⟩, ok'⟩ := iappend_writei holds.ok opened notDevice nonempty result
  obtain ⟨written, size, type⟩ := writei_written (opened.maps notDevice) notDevice ok
  obtain ⟨dip, stored⟩ := writei_stored opened ok
  refine ⟨ok', stored.owns, holds.notDevice, ?_⟩
  intro other lower' upper'
  rw [iappend_freeinode result] at upper'
  by_cases here : other = inum
  · subst here
    refine ⟨dip, ?_, ?_, ?_, ?_⟩
    · rw [stored.dinodes, update_self]
    · rw [← stored.agrees.1, type, stores.type]
    · apply stored.extent
      rw [← stored.agrees.1, type]
      exact notDevice
    · rw [update_self, ← stored.agrees.contents, written.appends size rfl, stores.bytes]
  · obtain ⟨otherIp, otherStores⟩ := holds.file other lower' upper'
    refine ⟨otherIp, ?_, otherStores.type, ?_, ?_⟩
    · rw [stored.dinodes, update_of_ne here]
      exact otherStores.entry
    · intro bn
      rw [otherStores.extent bn]
      simp [stored.others other _ here]
    · rw [update_of_ne here, ← otherStores.bytes]
      exact written.others_contents here otherStores.entry otherStores.extent

/-! ## New inodes -/

theorem Holds.ialloc (holds : Holds g kind data) (room : g.freeinode < ninodes)
    (positive : 1 ≤ g.freeinode) (notDevice : type ≠ .dev)
    (result : ialloc g type = some (inum, g')) :
    inum = g.freeinode ∧ g'.freeinode = g.freeinode + 1 ∧ g'.freeblock = g.freeblock ∧
      Holds g' (update kind inum type) (update data inum []) := by
  simp only [Mkfs.ialloc, bind_eq_bind, bind_eq_some_iff] at result
  obtain ⟨image, stored, rfl, rfl⟩ := result
  refine ⟨rfl, rfl, rfl, ?_⟩
  have load : (⟨typeCode type, 0, 0, 1, 0, fun _ => 0⟩ : Dinode).load =
      some (Dinode.inode ⟨typeCode type, 0, 0, 1, 0, fun _ => 0⟩ type) := by
    simp [Dinode.load, typeOf_typeCode]
  generalize fresh : Dinode.inode ⟨typeCode type, 0, 0, 1, 0, fun _ => 0⟩ type = ip at load
  have zero : ∀ i, ip.addrs i = 0 := by
    intro i
    rw [← fresh]
    rfl
  generalize next : ({ image, freeinode := g.freeinode + 1, freeblock := g.freeblock } : Globals)
    = g₁
  have ok₁ : Ok g₁ := by
    obtain ⟨length, sectors⟩ := winode_sectors stored
    have low := iblock_lt room
    have data := holds.ok.lower
    rw [← next]
    refine ⟨length.trans holds.ok.length, data, holds.ok.upper, ?_, room, ?_, ?_⟩
    · intro b above
      have other : b ≠ iblock sb g.freeinode := by
        simp only at above
        omega
      exact (sectors b other).trans (holds.ok.clean b above)
    · exact (sectors 1 (iblock_ne_one _).symm).trans holds.ok.super
    · intro other unused bound
      have away : other ≠ g.freeinode := by
        simp only at unused
        omega
      simp only [inodeAt_winode stored, update_of_ne away]
      exact holds.ok.free other (by simp only at unused; omega) bound
  have blocks : (view g₁).blocks = (view g).blocks := by
    rw [← next]
    exact blocks_winode room stored
  have table : (view g₁).dinodes = update (view g).dinodes g.freeinode (some ip) := by
    have inodes := inodeAt_winode stored
    rw [← next]
    funext other
    simp only [view, inodes]
    by_cases here : other = g.freeinode
    · subst here
      have bounds : 1 ≤ g.freeinode ∧ g.freeinode < g.freeinode + 1 := by omega
      simp only [if_pos bounds, update_self, load]
    · have bounds : (1 ≤ other ∧ other < g.freeinode + 1) ↔ 1 ≤ other ∧ other < g.freeinode := by
        omega
      simp only [bounds, update_of_ne here]
  -- the new inode holds no address
  have addrs : addrOf (view g₁).blocks (view g₁).dinodes =
      addrOf (view g).blocks (view g).dinodes := by
    have none : (view g).dinodes g.freeinode = none := by
      simp [view]
    rw [blocks, table]
    refine addrOf_update fun slot => ?_
    rw [addrOf_blank zero]
    simp [addrOf, none]
  have bitmap : (view g₁).bitmap = (view g).bitmap := by
    rw [← next]
    rfl
  refine ⟨ok₁, ?_, ?_, ?_⟩
  · show Tracks _ _ _ _ _
    rw [addrs, bitmap]
    exact holds.owns
  · intro other
    induction other using update_cases with
    | own => exact notDevice
    | others other _ => exact holds.notDevice other
  · intro other lower upper
    by_cases here : other = g.freeinode
    · subst here
      refine ⟨ip, by rw [table, update_self], ?_, ?_, ?_⟩
      · rw [update_self, ← fresh]
        rfl
      · have size : ip.size = 0 := by
          rw [← fresh]
          rfl
        rw [size, table]
        exact extent_zero fun slot => addrOf_blank zero slot
      · rw [update_self, ← fresh]
        rfl
    · have upper' : other < g.freeinode := by
        have limit : g₁.freeinode = g.freeinode + 1 := by rw [← next]
        omega
      obtain ⟨otherIp, stores⟩ := holds.file other lower upper'
      refine ⟨otherIp, ?_, ?_, ?_, ?_⟩
      · rw [table, update_of_ne here]
        exact stores.entry
      · rw [update_of_ne here]
        exact stores.type
      · rw [addrs]
        exact stores.extent
      · rw [update_of_ne here, blocks]
        exact stores.bytes

/-! ## Files -/

theorem copyFile_freeinode {fuel : Nat} (result : copyFile fuel g inum bytes = some g') :
    g'.freeinode = g.freeinode := by
  induction fuel generalizing g bytes with
  | zero =>
    cases result
    rfl
  | succ fuel ih =>
    unfold copyFile at result
    split at result
    case isTrue =>
      cases result
      rfl
    case isFalse =>
      obtain ⟨g₁, first, rest⟩ := bind_eq_some_iff.mp result
      exact (ih rest).trans (iappend_freeinode first)

theorem take_bsize_ne_nil (nonempty : bytes ≠ []) : bytes.take bsize ≠ [] := by
  rw [ne_eq, take_eq_nil_iff]
  exact not_or.mpr ⟨by decide, nonempty⟩

theorem Holds.copyFile {fuel : Nat} (holds : Holds g kind data)
    (lower : 1 ≤ inum) (upper : inum < g.freeinode) (enough : bytes.length ≤ fuel)
    (result : copyFile fuel g inum bytes = some g') :
    Holds g' kind (update data inum (data inum ++ bytes)) := by
  induction fuel generalizing g data bytes with
  | zero =>
    have none : bytes = [] := length_eq_zero_iff.mp (le_zero.mp enough)
    subst none
    cases result
    rw [append_nil, update_eq_self]
    exact holds
  | succ fuel ih =>
    unfold Mkfs.copyFile at result
    split at result
    case isTrue none =>
      subst none
      cases result
      rw [append_nil, update_eq_self]
      exact holds
    case isFalse nonempty =>
      simp only [bind_eq_bind, bind_eq_some_iff] at result
      obtain ⟨g₁, first, rest⟩ := result
      have positive : 0 < bytes.length := length_pos_iff.mpr nonempty
      have holds₁ := holds.iappend lower upper (take_bsize_ne_nil nonempty) first
      have shorter : (bytes.drop bsize).length ≤ fuel := by
        rw [length_drop]
        simp only [bsize, nindirect]
        omega
      have holds₂ := ih holds₁ (by rw [iappend_freeinode first]; exact upper) shorter rest
      rw [update_self, update_idem, append_assoc,
        take_append_drop] at holds₂
      exact holds₂

/-- The entries that the root directory gets for files numbered from `inum` on. -/
def entries : Nat → List File → List UInt8
  | _, [] => []
  | inum, file :: rest => dirent inum file.shortName ++ entries (inum + 1) rest

theorem entries_append (inum : Nat) (first second : List File) :
    entries inum (first ++ second) =
      entries inum first ++ entries (inum + first.length) second := by
  induction first generalizing inum with
  | nil => simp [entries]
  | cons file rest ih =>
    simp only [cons_append, entries, ih, append_assoc,
      length_cons]
    rw [show inum + (rest.length + 1) = inum + 1 + rest.length by omega]

/-- The contents of the root directory. -/
def rootData (files : List File) : List UInt8 :=
  dirent rootino dot ++ dirent rootino dotdot ++ entries (rootino + 1) files

/-- The contents of the inodes: the root directory, then the files. -/
def dataOf (files : List File) (inum : Nat) : List UInt8 :=
  if inum = rootino then rootData files
  else ((files[inum - 2]?).bind File.contents).getD []

theorem dataOf_file (files : List File) (notRoot : inum ≠ rootino) :
    dataOf files inum = ((files[inum - 2]?).bind File.contents).getD [] := by
  rw [dataOf, if_neg notRoot]

def kindOf (inum : Nat) : FileType :=
  if inum = rootino then .dir else .file

/-- The files added so far. -/
structure Made (g : Globals) (files : List File) : Prop where
  holds : Holds g kindOf (dataOf files)
  freeinode : g.freeinode = files.length + 2
  opened : ∀ file ∈ files, file.contents.isSome = true

theorem dirent_ne_nil (inum : Nat) (name : List UInt8) : dirent inum name ≠ [] := by
  simp [dirent]

theorem Made.addFile {file : File} (made : Made g files)
    (few : files.length < 198) (result : addFile rootino g file = some g') :
    Made g' (files ++ [file]) := by
  obtain ⟨-, result⟩ := Option.ite_none_left_eq_some.mp result
  simp only [Option.bind_eq_bind, Option.bind_eq_some_iff, Prod.exists] at result
  obtain ⟨bytes, opened, inum, g₁, allocated, g₂, linked, copied⟩ := result
  have limit : g.freeinode < ninodes := by
    rw [made.freeinode]
    simp only [ninodes]
    omega
  have regular : FileType.file ≠ .dev := nofun
  obtain ⟨rfl, next, -, holds₁⟩ := made.holds.ialloc limit (by rw [made.freeinode]; omega)
    regular allocated
  have away : g.freeinode ≠ rootino := by
    rw [made.freeinode]
    simp only [rootino]
    omega
  have kinds : update kindOf g.freeinode .file = kindOf := by
    rw [update_eq_self_iff, kindOf, if_neg away]
  rw [kinds] at holds₁
  have next₂ := iappend_freeinode linked
  have next₃ := copyFile_freeinode copied
  have holds₂ := holds₁.iappend (Nat.le_refl rootino)
    (by rw [next, made.freeinode]; simp only [rootino]; omega) (dirent_ne_nil _ _) linked
  have holds₃ := holds₂.copyFile (show 1 ≤ g.freeinode by rw [made.freeinode]; omega)
    (by rw [next₂]; omega) (Nat.le_refl _) copied
  have number : g'.freeinode = (files ++ [file]).length + 2 := by
    rw [next₃, next₂, next, made.freeinode, List.length_append, List.length_singleton]
  refine ⟨?_, number, ?_⟩
  · apply holds₃.congr
    intro other lower upper
    by_cases root : other = rootino
    · subst root
      rw [update_of_ne away.symm, update_self, update_of_ne away.symm]
      simp only [dataOf, if_true, rootData, entries_append, entries, List.append_nil,
        List.append_assoc, made.freeinode, rootino]
      rw [show 1 + 1 + files.length = files.length + 2 by omega]
    · rw [dataOf_file _ root]
      by_cases last : other = g.freeinode
      · subst last
        have index : g.freeinode - 2 = files.length := by
          rw [made.freeinode]
          omega
        rw [update_self, update_of_ne away, update_self, index,
          List.getElem?_append_right (Nat.le_refl _)]
        simp [opened]
      · have index : other - 2 < files.length := by
          rw [next₃, next₂, next, made.freeinode] at upper
          rw [made.freeinode] at last
          simp only [rootino] at root
          omega
        rw [update_of_ne last, update_of_ne root, update_of_ne last,
          dataOf_file _ root, List.getElem?_append_left index]
  · intro other member
    rcases List.mem_append.mp member with old | new
    · exact made.opened other old
    · rw [List.mem_singleton.mp new, opened]
      rfl

theorem Made.addFiles {done : List File} (made : Made g done)
    (few : done.length + files.length ≤ 198)
    (result : files.foldlM (Mkfs.addFile rootino) g = some g') : Made g' (done ++ files) := by
  induction files generalizing g done with
  | nil =>
    cases result
    rw [append_nil]
    exact made
  | cons file rest ih =>
    rw [length_cons] at few
    simp only [foldlM_cons, bind_eq_bind, bind_eq_some_iff] at result
    obtain ⟨g₁, first, result⟩ := result
    have made₁ := made.addFile (by omega) first
    have made' := ih made₁
      (by rw [length_append, length_singleton]; omega) result
    rw [append_assoc] at made'
    exact made'

/-! ## The empty image and the root directory -/

theorem blank_sectors (n : Nat) :
    ((List.range n).foldl (fun image i => wsect image i zeroes) ⟨fun _ => zeroes, 0⟩) =
      ⟨fun _ => zeroes, n⟩ := by
  induction n with
  | zero => rfl
  | succ n ih =>
    have unchanged : update (fun _ : Nat => zeroes) n zeroes = fun _ => zeroes :=
      update_eq_self_iff.mpr rfl
    have longer : max n (n + 1) = n + 1 := max_eq_right (le_succ n)
    rw [range_succ, foldl_append, ih]
    simp [wsect]

theorem blank_eq : blank = ⟨fun _ => zeroes, fssize⟩ := blank_sectors fssize

/-- The globals before the first inode. -/
def start : Globals := ⟨wsect blank 1 (Words.putAll zeroes 0 sb.words), 1, nmeta⟩

theorem start_sectors {b : Nat} (other : b ≠ 1) : start.image.sectors b = zeroes := by
  simp [start, blank_eq, wsect, update_of_ne other]

theorem inodeAt_start (inum : Nat) : inodeAt start.image inum = none := by
  have type : (dinodeIn zeroes inum).type = 0 := by
    have word : ∀ i, Words.get zeroes i = 0 := get_zero
    simp only [dinodeIn, dinodeWords, Words.getAll, word]
    rfl
  simp only [inodeAt, start_sectors (iblock_ne_one inum), Dinode.load, type]
  rfl

theorem start_holds (data : Nat → List UInt8) : Holds start kindOf data := by
  have empty : ∀ inum, (view start).dinodes inum = none := by
    intro inum
    have bounds : ¬ (1 ≤ inum ∧ inum < start.freeinode) := by
      simp only [start]
      omega
    simp [view, if_neg bounds]
  have unaddressed : ∀ place, addrOf (view start).blocks (view start).dinodes place = 0 := by
    rintro ⟨inum, slot⟩
    simp [addrOf, empty]
  refine ⟨⟨?_, le_refl _, by decide, ?_, by decide, ?_,
    fun inum _ _ => inodeAt_start inum⟩, ?_, ?_, ?_⟩
  · simp only [start, blank_eq]
    decide
  · intro b above
    apply start_sectors
    rintro rfl
    exact absurd above (by decide)
  · simp [start, wsect]
  · refine ⟨by decide, ?_, ?_, (by simp), .nil, (by simp), ?_, ?_⟩
    · intro place held
      exact absurd (unaddressed place) held
    · intro place other held
      exact absurd (unaddressed place) held
    · intro block above below
      have free : ¬ block < start.freeblock := not_lt.mpr above
      have positive : 0 < nmeta := by decide
      have nobody : ¬ ∃ place, addrOf (view start).blocks (view start).dinodes place = block := by
        rintro ⟨place, holds⟩
        rw [unaddressed] at holds
        have : nmeta ≤ block := above
        omega
      simp only [view, free, decide_false, not_mem_nil, false_or, Bool.false_eq_true, false_iff]
      exact nobody
    · intro block below
      exact decide_eq_true below
  · intro inum
    simp only [kindOf]
    split <;> rintro ⟨⟩
  · intro inum lower upper
    exact absurd upper (not_lt.mpr lower)

theorem makeRoot_made {root : Nat} (result : makeRoot = some (root, g)) :
    root = rootino ∧ Made g [] := by
  simp only [makeRoot, bind_eq_bind, bind_eq_some_iff, Prod.exists] at result
  obtain ⟨inum, g₁, allocated, result⟩ := result
  obtain ⟨first, result⟩ := ite_none_right_eq_some.mp result
  subst first
  simp only [bind_eq_some_iff] at result
  obtain ⟨g₂, linked, g₃, linked', rfl, rfl⟩ := result
  have directory : FileType.dir ≠ .dev := nofun
  obtain ⟨-, next, -, holds₁⟩ := (start_holds fun _ => []).ialloc (by decide) (le_refl 1)
    directory allocated
  have kinds : update kindOf rootino .dir = kindOf :=
    update_eq_self_iff.mpr rfl
  rw [kinds] at holds₁
  have inside : rootino < g₁.freeinode := by
    rw [next]
    decide
  have next₂ := iappend_freeinode linked
  have next₃ := iappend_freeinode linked'
  have holds₂ := holds₁.iappend (le_refl rootino) inside (dirent_ne_nil _ _) linked
  have holds₃ := holds₂.iappend (le_refl rootino) (by rw [next₂]; exact inside)
    (dirent_ne_nil _ _) linked'
  refine ⟨rfl, ?_, by rw [next₃, next₂, next]; rfl, nofun⟩
  apply holds₃.congr
  intro inum lower upper
  have root : inum = rootino := by
    rw [next₃, next₂, next] at upper
    simp only [start, rootino] at upper ⊢
    omega
  subst root
  simp [dataOf, rootData, entries]

theorem addFile_freeinode {root : Nat} {file : File} (result : addFile root g file = some g') :
    g'.freeinode = g.freeinode + 1 := by
  obtain ⟨-, result⟩ := ite_none_left_eq_some.mp result
  simp only [bind_eq_bind, bind_eq_some_iff, Prod.exists] at result
  obtain ⟨bytes, -, inum, g₁, allocated, g₂, linked, copied⟩ := result
  simp only [ialloc, bind_eq_bind, bind_eq_some_iff, some.injEq] at allocated
  obtain ⟨image, -, allocated⟩ := allocated
  cases allocated
  rw [copyFile_freeinode copied, iappend_freeinode linked]

/-- Inodes are numbered without a look at `NINODES`. -/
theorem main_freeinode (result : main files = some g') : g'.freeinode = files.length + 2 := by
  simp only [main, finish, bind_eq_bind, bind_eq_some_iff, Prod.exists, some.injEq] at result
  obtain ⟨root, g₁, rooted, g₂, added, -, -, -, -, -, -, rfl⟩ := result
  have first := (makeRoot_made rooted).2.freeinode
  rw [length_nil] at first
  have rest : g₂.freeinode = g₁.freeinode + files.length := by
    clear rooted first
    induction files generalizing g₁ with
    | nil =>
      cases added
      rfl
    | cons file rest ih =>
      simp only [foldlM_cons, bind_eq_bind, bind_eq_some_iff] at added
      obtain ⟨g, one, added⟩ := added
      rw [ih g added, addFile_freeinode one, length_cons]
      omega
  show g₂.freeinode = _
  omega

theorem main_made (few : files.length ≤ 198) (result : main files = some g') :
    ∃ g, Made g files ∧ finish g rootino = some g' := by
  simp only [main, bind_eq_bind, bind_eq_some_iff, Prod.exists] at result
  obtain ⟨root, g₁, rooted, g₂, added, finished⟩ := result
  obtain ⟨rfl, made⟩ := makeRoot_made rooted
  have made' := made.addFiles (by rw [length_nil]; omega) added
  exact ⟨g₂, made', finished⟩

end Laboratorio.Xv6.Mkfs
