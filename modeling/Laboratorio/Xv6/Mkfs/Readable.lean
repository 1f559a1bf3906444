import Laboratorio.Xv6.Inode.Directory
import Laboratorio.Xv6.Mkfs.Image

/-! # The kernel reads what `mkfs` wrote

The two programs share the format of the disk only.  For every file of the command line, the
kernel's `dirlookup` in the root directory finds its inode, and `readi` returns its bytes
(`kernel_reads_files`).  The lookup ends at the entry of the file, so a block that the root
directory lacks at its end is not looked at.  If it lacks none, all calls on inodes keep the block
maps consistent (`sessions_on_image`).
-/

namespace Laboratorio.Xv6.Mkfs

open Laboratorio.Lib Inodes Function List Nat

variable {inum : Nat} {ip : Inode} {name : List UInt8} {file : File}

variable {g : Globals} {files : List File} {fs : FileSystem} {root : Inode} {bytes : List UInt8}

/-! ## The entries of the root directory -/

/-- The numbers and names in the root directory, in order. -/
def rows (files : List File) : List (Nat × List UInt8) :=
  (rootino, dot) :: (rootino, dotdot) :: files.mapIdx fun i file => (i + 2, file.shortName)

def rowBytes (row : Nat × List UInt8) : List UInt8 := dirent row.1 row.2

theorem entries_eq_flatMap (inum : Nat) (files : List File) :
    entries inum files =
      (files.mapIdx fun i file => (i + inum, file.shortName)).flatMap rowBytes := by
  induction files generalizing inum with
  | nil => rfl
  | cons file rest ih =>
    have shift : ∀ i, i + 1 + inum = i + (inum + 1) := by omega
    simp [entries, rowBytes, ih, shift]

theorem rootData_eq_flatMap (files : List File) :
    rootData files = (rows files).flatMap rowBytes := by
  simp [rootData, rows, rowBytes, entries_eq_flatMap, rootino]

/-- A row of a table whose rows all have the same width. -/
theorem flatMap_row {α β : Type} {f : α → List β} {width : Nat}
    (widths : ∀ a, (f a).length = width) {list : List α} {k : Nat} {a : α}
    (entry : list[k]? = some a) : ((list.flatMap f).drop (k * width)).take width = f a := by
  induction list generalizing k with
  | nil => simp at entry
  | cons first rest ih =>
    cases k with
    | zero =>
      simp only [getElem?_cons_zero, Option.some.injEq] at entry
      subst entry
      rw [flatMap_cons, zero_mul, drop_zero, ← widths first, take_left]
    | succ k =>
      have skip : (k + 1) * width = (f first).length + k * width := by
        rw [widths, succ_mul, add_comm]
      rw [flatMap_cons, skip, ← drop_drop, drop_left]
      exact ih entry

theorem ofBytes_dirent (small : inum < 2 ^ 16) (name : List UInt8) :
    Dirent.ofBytes (dirent inum name) =
      ⟨inum, name.take dirsiz ++ List.replicate (dirsiz - (name.take dirsiz).length) 0⟩ := by
  have low : (UInt16.ofNat inum).toNat = inum := UInt16.toNat_ofNat_of_lt' small
  have value : (UInt8.ofNat inum).toNat + (UInt8.ofNat (inum / 256)).toNat * 256 = inum := by
    simp only [UInt8.toNat_ofNat']
    omega
  simp only [Dirent.ofBytes, dirent, low, getD_cons_zero, getD_cons_succ, value,
    drop_succ_cons, drop_zero]

/-! ## The mounted bytes -/

theorem Finished.blockAddr (finished : Finished g fs root)
    (owns : Owns (view g) (view g).dinodes [])
    (entry : (view g).dinodes inum = some ip) (bn : Nat) :
    blockAddr fs.blocks ip bn = blockAddr (view g).blocks ip bn := by
  simp only [Inodes.blockAddr]
  split
  · exact finished.addrAt owns entry _
  · rfl

/-- The contents of an inode are mapped, and mounting does not change them. -/
theorem Finished.byteAt (finished : Finished g fs root) (owns : Owns (view g) (view g).dinodes [])
    {type : FileType} (stores : Stores (view g) inum type bytes ip) {j : Nat} (inside : j < ip.size) :
    Inodes.blockAddr fs.blocks ip (j / bsize) ≠ 0 ∧
      byteAt fs.blocks ip j = byteAt (view g).blocks ip j := by
  have below : j / bsize < blocksFor ip.size :=
    div_lt_of_lt_mul (Nat.lt_of_lt_of_le inside (le_blocksFor_mul ip.size))
  have mapped := ((extent_iff stores.entry _).mp stores.extent _).mp below
  obtain ⟨slot, place, -⟩ := (blockAddr_ne_zero stores.entry _).mp mapped
  have addr : Inodes.blockAddr (view g).blocks ip (j / bsize) =
      Inodes.addrOf (view g).blocks (view g).dinodes (inum, slot) := by
    rw [addrOf_some stores.entry]
    simp [Inodes.blockAddr, place]
  have data : nmeta ≤ Inodes.blockAddr (view g).blocks ip (j / bsize) := by
    rw [addr] at mapped ⊢
    exact (held_bounds owns mapped).1
  have same := finished.blockAddr owns stores.entry (j / bsize)
  refine ⟨by rw [same]; exact mapped, ?_⟩
  simp [Inodes.byteAt, same, finished.blocks _ data]

theorem Finished.contents (finished : Finished g fs root) (owns : Owns (view g) (view g).dinodes [])
    {type : FileType} (stores : Stores (view g) inum type bytes ip) :
    contents fs.blocks ip = bytes := by
  rw [← stores.bytes]
  apply map_congr_left
  intro j member
  exact (finished.byteAt owns stores (mem_range.mp member)).2

/-! ## Looking a name up -/

theorem blockAddr_roundUp (blocks : Nat → Block) (bn : Nat) :
    Inodes.blockAddr blocks (roundUp root) bn = Inodes.blockAddr blocks root bn := by
  simp [Inodes.blockAddr, addrAt_roundUp]

theorem byteAt_roundUp (blocks : Nat → Block) (j : Nat) :
    Inodes.byteAt blocks (roundUp root) j = Inodes.byteAt blocks root j := by
  simp [Inodes.byteAt, blockAddr_roundUp]

/-- The name in an entry, filled with zeros. -/
def padded (name : List UInt8) : List UInt8 :=
  name.take dirsiz ++ List.replicate (dirsiz - (name.take dirsiz).length) 0

theorem namecmp_padded {entry : List UInt8} (nameString : 0 ∉ name) (entryString : 0 ∉ entry) :
    namecmp name (padded entry) = 0 ↔ name.take dirsiz = entry.take dirsiz := by
  have cut : 0 ∉ entry.take dirsiz := fun inside => entryString (mem_of_mem_take inside)
  rw [namecmp, padded, strncmp_eq_zero nameString cut, take_take, min_self]

theorem Finished.direntAt (finished : Finished g fs root) (owns : Owns (view g) (view g).dinodes [])
    (stores : Stores (view g) rootino .dir (rootData files) root) {k : Nat}
    (entry : (rows files)[k]? = some (inum, name)) (small : inum < 2 ^ 16) :
    (k + 1) * direntSize ≤ root.size ∧
      direntAt fs.blocks (roundUp root) k = ⟨inum, padded name⟩ := by
  have count : (rows files).length = files.length + 2 := by
    simp [rows]
  have bound : k < files.length + 2 := by
    rw [← count]
    exact (List.getElem?_eq_some_iff.mp entry).1
  have inside : (k + 1) * direntSize ≤ root.size := by
    rw [stores.size, rootData_length]
    simp only [direntSize, dirsiz]
    omega
  refine ⟨inside, ?_⟩
  have widths : ∀ row, (rowBytes row).length = direntSize := fun row => dirent_length row.1 row.2
  have row := flatMap_row widths entry
  rw [← rootData_eq_flatMap, ← finished.contents owns stores,
    ← bytes_eq_slice fs.blocks root (by rw [Nat.succ_mul] at inside; exact inside)] at row
  simp [Inodes.direntAt, byteAt_roundUp, row, rowBytes, ofBytes_dirent small, padded]

/-- The file name of a row is a C string. -/
theorem File.shortName_nonzero (file : File) : 0 ∉ file.shortName := by
  have nonzero := file.name_nonzero
  unfold shortName
  split
  case h_1 rest equal =>
    rw [equal] at nonzero
    exact fun inside => nonzero (mem_cons_of_mem _ inside)
  case h_2 => exact nonzero

/-- The name of a file in the root directory. -/
def File.entryName (file : File) : List UInt8 := file.shortName.take dirsiz

theorem rows_file {i : Nat} (member : files[i]? = some file) :
    (rows files)[i + 2]? = some (i + 2, file.shortName) := by
  simp [rows, member]

theorem firstEntry (finished : Finished g fs root) (made : Made g files)
    (stores : Stores (view g) rootino .dir (rootData files) root)
    (distinct : (files.map File.entryName).Nodup)
    (notDot : ∀ file ∈ files, file.entryName ≠ dot ∧ file.entryName ≠ dotdot) {i : Nat}
    (member : files[i]? = some file) (nameString : 0 ∉ name)
    (named : name.take dirsiz = file.entryName) :
    FirstEntry fs.blocks (roundUp root) name (i + 2) ∧
      (direntAt fs.blocks (roundUp root) (i + 2)).inum = i + 2 := by
  have owns := made.holds.owns
  have limit := made.holds.ok.inodes
  rw [made.freeinode] at limit
  have bound : i < files.length := (List.getElem?_eq_some_iff.mp member).1
  have small : i + 2 < 2 ^ 16 := by
    simp only [ninodes] at limit
    omega
  obtain ⟨inside, entry⟩ := finished.direntAt owns stores (rows_file member) small
  have rounded : root.size ≤ (roundUp root).size := by
    simp only [roundUp, bsize, nindirect]
    omega
  refine ⟨⟨le_trans inside rounded, ?_, ?_, ?_, ?_⟩, by rw [entry]⟩
  · intro j below
    exact (finished.byteAt owns stores (lt_of_lt_of_le below inside)).1
  · rw [entry]
    exact succ_ne_zero _
  · rw [entry, namecmp_padded nameString file.shortName_nonzero]
    exact named
  · intro earlier before
    right
    obtain ⟨dotName, dotdotName⟩ := notDot file (mem_of_getElem? member)
    rcases earlier with _ | _ | other
    · obtain ⟨-, first⟩ := finished.direntAt owns stores (k := 0) rfl (by decide)
      rw [first, ne_eq, namecmp_padded nameString (by decide), named]
      exact dotName
    · obtain ⟨-, second⟩ := finished.direntAt owns stores (k := 1) rfl (by decide)
      rw [second, ne_eq, namecmp_padded nameString (by decide), named]
      exact dotdotName
    · have otherBound : other < files.length := by omega
      have otherMember : files[other]? = some files[other] := getElem?_eq_getElem otherBound
      obtain ⟨-, otherEntry⟩ := finished.direntAt owns stores (rows_file otherMember) (by omega)
      rw [otherEntry, ne_eq, namecmp_padded nameString (files[other].shortName_nonzero), named]
      intro equal
      have same : (files.map File.entryName)[i]? = (files.map File.entryName)[other]? := by
        rw [getElem?_map, getElem?_map, member, otherMember]
        exact congrArg some equal
      have position := (getElem?_inj (by rw [length_map]; exact bound) distinct).mp same
      omega

/-! ## Reading a file -/

/-- The kernel finds a name in a directory, locks the inode and reads it to its end. -/
def ReadsFile (fs : FileSystem) (dp : Inode) (name bytes : List UInt8) : Prop :=
  ∃ inum off found locked ip, dirlookup fs dp name = .ok (some (inum, off), found, dp) ∧
    ilock found inum = .ok locked ∧ (locked.icache inum).copy = some ip ∧ ip.type = .file ∧
    ip.size = bytes.length ∧ readi locked ip 0 ip.size = .ok (some bytes, locked, ip)

theorem iget_idle (idle : ∀ inum, (fs.icache inum).ref = 0) (inum : Nat) :
    iget fs inum = .ok (fs.setEntry inum { ref := 1, locked := false, copy := none }) := by
  have unused : entriesInUse fs = 0 := by
    rw [entriesInUse, countP_eq_zero]
    intro other _
    rw [idle other]
    decide
  have free : ¬ 0 < (fs.icache inum).ref := by
    rw [idle inum]
    decide
  have room : entriesInUse fs < ninode := by
    rw [unused]
    decide
  simp [iget, if_neg free, if_pos room]

theorem ilock_fresh (entry : fs.dinodes inum = some ip) :
    ilock (fs.setEntry inum { ref := 1, locked := false, copy := none }) inum =
      .ok (fs.setEntry inum { ref := 1, locked := true, copy := some ip }) := by
  simp [ilock, FileSystem.setEntry, entry]

theorem readsFile (finished : Finished g fs root) (made : Made g files)
    (stores : Stores (view g) rootino .dir (rootData files) root)
    (distinct : (files.map File.entryName).Nodup)
    (notDot : ∀ file ∈ files, file.entryName ≠ dot ∧ file.entryName ≠ dotdot)
    (member : file ∈ files) (fits : file.Fits) (nameString : 0 ∉ name)
    (named : name.take dirsiz = file.entryName) :
    ReadsFile fs (roundUp root) name (file.contents.getD []) := by
  obtain ⟨i, position⟩ := mem_iff_getElem?.mp member
  have bound : i < files.length := (List.getElem?_eq_some_iff.mp position).1
  obtain ⟨first, number⟩ := firstEntry finished made stores distinct notDot position nameString
    named
  have directory : (roundUp root).type = .dir := stores.type
  have small : (roundUp root).size < 2 ^ 32 := by
    have limit := made.holds.ok.inodes
    rw [made.freeinode] at limit
    simp only [roundUp, stores.size, rootData_length, bsize, nindirect]
    simp only [ninodes] at limit
    omega
  have got := iget_idle finished.idle (i + 2)
  have found := dirlookup_found directory small first (by rw [number]; exact got)
  rw [number] at found
  obtain ⟨ip, fileStores⟩ := made.holds.file (i + 2) (by omega) (by rw [made.freeinode]; omega)
  have notRoot : i + 2 ≠ rootino := by
    simp only [rootino]
    omega
  have data : dataOf files (i + 2) = file.contents.getD [] := by
    rw [dataOf_file files notRoot, Nat.add_sub_cancel, position, Option.bind_some]
  have type : ip.type = .file := by
    rw [fileStores.type, kindOf, if_neg notRoot]
  rw [data] at fileStores
  have entry : fs.dinodes (i + 2) = some ip := by
    rw [finished.dinodes]
    exact fileStores.entry
  have size : ip.size = (file.contents.getD []).length := fileStores.size
  have notDevice : ip.type ≠ .dev := by
    rw [type]
    rintro ⟨⟩
  have sizeSmall : ip.size < 2 ^ 32 := by
    rw [size]
    exact lt_of_le_of_lt fits.size (by decide)
  have locked := ilock_fresh entry
  refine ⟨i + 2, (i + 2) * direntSize, _, _, ip, found, locked, ?_, type, size, ?_⟩
  · simp [FileSystem.setEntry]
  · -- the cache entry does not matter to the blocks
    have mapped : ∀ j < ip.size, Inodes.blockAddr
        (fs.setEntry (i + 2) { ref := 1, locked := true, copy := some ip }).blocks ip (j / bsize) ≠
          0 :=
      fun j inside => (finished.byteAt made.holds.owns fileStores inside).1
    rw [readi_contents notDevice sizeSmall mapped,
      ← finished.contents made.holds.owns fileStores]
    rfl

theorem kernel_reads_files {files : List File} (few : files.length ≤ 198)
    (fits : ∀ file ∈ files, file.Fits) (distinct : (files.map File.entryName).Nodup)
    (notDot : ∀ file ∈ files, file.entryName ≠ dot ∧ file.entryName ≠ dotdot)
    (room : nmeta + total files ≤ fssize) :
    ∃ g fs root, main files = some g ∧ mount g.image = some fs ∧
      fs.dinodes rootino = some root ∧
      ∀ file ∈ files, ∀ name, 0 ∉ name → name.take dirsiz = file.entryName →
        ReadsFile fs root name (file.contents.getD []) := by
  obtain ⟨g', result⟩ := main_succeeds few fits room
  obtain ⟨g, made, finished⟩ := main_made few result
  obtain ⟨fs, root, mounted, stores, done, -⟩ := mount_finish made finished
  refine ⟨g', fs, roundUp root, result, mounted, ?_, ?_⟩
  · rw [done.dinodes, update_self]
  · intro file member name nameString named
    exact readsFile done made stores distinct notDot member (fits file member) nameString named

/-- Two files on the command line: `_a`, with three bytes, and `b`, which is empty. -/
def twoFiles : List File :=
  [⟨[95, 97], some [1, 2, 3], by decide⟩, ⟨[98], some [], by decide⟩]

theorem twoFiles_fit : ∀ file ∈ twoFiles, file.Fits := by
  intro file member
  simp only [twoFiles, mem_cons, not_mem_nil, or_false] at member
  rcases member with rfl | rfl
  · exact ⟨by decide, rfl, by decide⟩
  · exact ⟨by decide, rfl, by decide⟩

theorem twoFiles_room : nmeta + total twoFiles ≤ fssize := by decide

theorem two_files_read : ∃ g fs root, main twoFiles = some g ∧ mount g.image = some fs ∧
    fs.dinodes rootino = some root ∧ ReadsFile fs root [97] [1, 2, 3] ∧
    ReadsFile fs root [98] [] := by
  obtain ⟨g, fs, root, result, mounted, entry, reads⟩ :=
    kernel_reads_files (show twoFiles.length ≤ 198 by decide) twoFiles_fit (by decide) (by decide)
      twoFiles_room
  have first := reads twoFiles[0] (getElem_mem _) [97] (by decide) (by decide)
  have second := reads twoFiles[1] (getElem_mem _) [98] (by decide) (by decide)
  exact ⟨g, fs, root, result, mounted, entry, first, second⟩

/-! ## Calls on the inodes -/

/-- The kernel mounts a file system whose block maps all its calls keep consistent. -/
theorem sessions_on_image {g' : Globals} (few : files.length ≤ 198)
    (partlyFilled : (files.length + 2) % 32 ≠ 0) (result : main files = some g') :
    ∃ fs, mount g'.image = some fs ∧ ∀ ops session, run ⟨fs, []⟩ ops = some session →
      Consistent session.fs ∧ MetadataMarked session.fs := by
  obtain ⟨g, made, finished⟩ := main_made few result
  obtain ⟨fs, root, mounted, stores, done, -⟩ := mount_finish made finished
  have inv := done.sessionInv made stores (mt (root_size_mod stores).mp partlyFilled)
  exact ⟨fs, mounted, fun ops session ran => (inv.run ran).consistent⟩

/-- Changes the second byte of the file `_a`, whose inode is the first after the root. -/
def overwrite : List Op :=
  [.iget 2, .ilock 2, .writei 2 1 [7], .iunlock 2]

theorem byte_of_file_overwritten : ∃ g fs session, main twoFiles = some g ∧
    mount g.image = some fs ∧ run ⟨fs, []⟩ overwrite = some session ∧ Consistent session.fs := by
  have few : twoFiles.length ≤ 198 := by decide
  obtain ⟨g', result⟩ := main_succeeds few twoFiles_fit twoFiles_room
  obtain ⟨fs, mounted, kept⟩ := sessions_on_image few (by decide) result
  obtain ⟨g, made, finished⟩ := main_made few result
  obtain ⟨fs', root, mounted', -, done, -⟩ := mount_finish made finished
  cases mounted.symm.trans mounted'
  obtain ⟨ip, stores⟩ := made.holds.file 2 (by decide) (by rw [made.freeinode]; decide)
  have entry : fs.dinodes 2 = some ip := by
    rw [done.dinodes]
    exact stores.entry
  have type : ip.type = .file := stores.type
  have size : ip.size = 3 := stores.size
  have first : ip.addrs 0 ≠ 0 :=
    ((extent_iff stores.entry _).mp stores.extent 0).mp (by rw [size]; decide)
  have mapped (fs : FileSystem) : bmap fs ip 0 = .ok (ip.addrs 0, fs, ip) := if_neg first
  obtain ⟨session, ran⟩ : ∃ session, run ⟨fs, []⟩ overwrite = some session := by
    simp [run, overwrite, step, onTable, iget_idle done.idle, FileSystem.setEntry, ilock, entry,
      onInode, writei, type, size, writeLoop, mapped, bsize, nindirect, ndirect, maxFile, bind,
      Except.bind, Except.map, FileSystem.setBlock]
  exact ⟨g', fs, session, result, mounted, ran, (kept _ _ ran).1⟩

end Laboratorio.Xv6.Mkfs
