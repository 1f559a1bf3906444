import Mathlib.Data.Nat.Bitwise
import Laboratorio.Xv6.Mkfs.Space

/-! # The finished image as the kernel mounts it

`mount` is what the kernel reads from the image: the superblock, and with it the inode table, the
bitmap and the blocks.  The image is consistent exactly if there are at most 198 files and their
entries do not fill the last block of the root directory (`image_consistent`).
When they do fill it, `main` rounds the size of the directory up to a block that was never
allocated, and the 199th file gets an inode that the superblock does not count.
-/

namespace Laboratorio.Xv6.Mkfs

open Laboratorio.Lib Inodes Function

/-! ## What the kernel reads -/

def Superblock.ofWords (words : List UInt32) : Superblock where
  size := words.getD 0 0
  nblocks := words.getD 1 0
  ninodes := words.getD 2 0
  nlog := words.getD 3 0
  logstart := words.getD 4 0
  inodestart := words.getD 5 0
  bmapstart := words.getD 6 0

def readsb (image : Image) : Superblock :=
  .ofWords (Words.getAll (image.sectors 1) 0 7)

/-- `(bp->data[bi/8] & m) != 0` for `m = 1 << (bi % 8)`. -/
def bitSet (buf : Block) (bi : Nat) : Bool :=
  if bound : bi / 8 < 4 * nindirect then
    (buf ⟨bi / 8, bound⟩ &&& UInt8.ofNat (1 <<< (bi % 8))) != 0
  else false

/-- The file system on an image.  The data area is what the superblock counts as data blocks. -/
def mount (image : Image) : Option FileSystem :=
  let sb := readsb image
  if data : 0 < sb.size.toNat - sb.nblocks.toNat then
    some
      { sb :=
          { size := sb.size.toNat
            ninodes := sb.ninodes.toNat
            dataStart := sb.size.toNat - sb.nblocks.toNat
            dataStart_pos := data
            size_lt := sb.size.toNat_lt }
        devsw := fun _ => ⟨none, none⟩
        bitmap := fun b =>
          bitSet (image.sectors (b / (bsize * 8) + sb.bmapstart.toNat)) (b % (bsize * 8))
        blocks := image.sectors
        dinodes := fun inum =>
          if inum < sb.ninodes.toNat then (dinodeIn (image.sectors (iblock sb inum)) inum).load
          else none
        icache := fun _ => ⟨0, false, none⟩ }
  else none

/-! ## The bitmap -/

theorem toNat_bit {i : Nat} (bound : i < 8) : (UInt8.ofNat (1 <<< i)).toNat = 2 ^ i := by
  rw [Nat.one_shiftLeft, UInt8.toNat_ofNat', Nat.mod_eq_of_lt]
  exact Nat.pow_lt_pow_right (by decide) bound

theorem and_bit_ne_zero (byte : UInt8) {i : Nat} (bound : i < 8) :
    ((byte &&& UInt8.ofNat (1 <<< i)) != 0) = byte.toNat.testBit i := by
  have value : (byte &&& UInt8.ofNat (1 <<< i)).toNat = (byte.toNat.testBit i).toNat * 2 ^ i := by
    rw [UInt8.toNat_and, toNat_bit bound, Nat.and_two_pow]
  cases bit : byte.toNat.testBit i with
  | false =>
    rw [bit, Bool.toNat_false, Nat.zero_mul] at value
    have zero : byte &&& UInt8.ofNat (1 <<< i) = 0 := UInt8.toNat_inj.mp value
    rw [zero]
    rfl
  | true =>
    rw [bit, Bool.toNat_true, Nat.one_mul] at value
    have nonzero : byte &&& UInt8.ofNat (1 <<< i) ≠ 0 := by
      intro zero
      rw [zero] at value
      exact absurd value.symm (Nat.two_pow_pos i).ne'
    exact bne_iff_ne.mpr nonzero

theorem bitSet_setBit (buf : Block) {i j : Nat} (bound : i < bsize * 8) :
    bitSet (setBit buf j) i = true ↔ i = j ∨ bitSet buf i = true := by
  have index : i / 8 < 4 * nindirect := by
    simp only [bsize] at bound
    omega
  have bit : i % 8 < 8 := Nat.mod_lt i (by decide)
  simp only [bitSet, dif_pos index, setBit, and_bit_ne_zero _ bit]
  by_cases byte : i / 8 = j / 8
  · have same : j % 8 = i % 8 ↔ i = j := by omega
    rw [if_pos byte, UInt8.toNat_or, toNat_bit (Nat.mod_lt j (by decide)), Nat.testBit_or,
      Nat.testBit_two_pow, Bool.or_eq_true, decide_eq_true_eq, same, Or.comm]
  · rw [if_neg byte]
    have different : i ≠ j := fun equal => byte (by rw [equal])
    simp [different]

theorem bitSet_balloc {used i : Nat} (bound : i < bsize * 8) :
    bitSet ((List.range used).foldl setBit zeroes) i = true ↔ i < used := by
  induction used with
  | zero =>
    simp [bitSet, zeroes]
  | succ used ih =>
    rw [List.range_succ, List.foldl_append, List.foldl_cons, List.foldl_nil,
      bitSet_setBit _ bound, ih]
    omega

/-! ## The last steps of `main` -/

variable {g g' : Globals} {files : List File} {inum : Nat}

theorem readsb_eq {image : Image} (super : image.sectors 1 = Words.putAll zeroes 0 sb.words) :
    readsb image = sb := by
  have read : Words.getAll (Words.putAll zeroes 0 sb.words) 0 7 = sb.words :=
    Words.getAll_putAll zeroes sb.words (by decide)
  rw [readsb, super]
  rfl

theorem iblock_lt_bmapstart (bound : inum < ninodes) : iblock sb inum < sb.bmapstart.toNat := by
  have start : sb.inodestart.toNat = 2 + nlog := by decide
  have bitmap : sb.bmapstart.toNat = 2 + nlog + ninodeblocks := by decide
  simp only [iblock, bitmap]
  simp only [ipb, bsize, nindirect, dinodeWords, ndirect, ninodeblocks] at bound ⊢
  omega

/-- The rounded inode of the root directory. -/
def roundUp (root : Inode) : Inode :=
  { root with size := (root.size / bsize + 1) * bsize }

/-- What the kernel finds on the image, in terms of the globals before the last steps. -/
structure Finished (g : Globals) (fs : FileSystem) (root : Inode) : Prop where
  sb : fs.sb = (view g).sb
  bitmap : ∀ b < bsize * 8, fs.bitmap b = decide (b < g.freeblock)
  blocks : ∀ b, nmeta ≤ b → fs.blocks b = (view g).blocks b
  dinodes : fs.dinodes = update (view g).dinodes rootino (some (roundUp root))
  idle : ∀ inum, (fs.icache inum).ref = 0

theorem dinodes_mount (ok : Ok g) (inum : Nat) :
    (if inum < ninodes then inodeAt g.image inum else none) = (view g).dinodes inum := by
  have limit := ok.inodes
  by_cases allocated : 1 ≤ inum ∧ inum < g.freeinode
  · have bound : inum < ninodes := by omega
    simp [view, if_pos allocated, if_pos bound]
  · simp only [view]
    split
    case isFalse => rfl
    case isTrue bound => exact ok.free inum (by omega) bound

theorem mount_finish (made : Made g files) (finished : finish g rootino = some g') :
    ∃ fs root, mount g'.image = some fs ∧ Stores (view g) rootino .dir (rootData files) root ∧
      Finished g fs root ∧ g'.freeinode = g.freeinode := by
  have ok := made.holds.ok
  have inside : rootino < g.freeinode := by
    rw [made.freeinode]
    simp only [rootino]
    omega
  obtain ⟨root, stores⟩ := made.holds.file rootino (Nat.le_refl _) inside
  simp only [finish, Option.bind_eq_bind, Option.bind_eq_some_iff, Option.some.injEq] at finished
  obtain ⟨din, read, image, written, image', marked, rfl⟩ := finished
  obtain ⟨bounds, load⟩ := rinode_view stores.entry read
  obtain ⟨known, inode⟩ := Dinode.load_eq_some load
  have size : din.size.toNat = root.size := by
    rw [inode]
    rfl
  have small : (UInt32.ofNat ((root.size / bsize + 1) * bsize)).toNat =
      (root.size / bsize + 1) * bsize := by
    apply UInt32.toNat_ofNat_of_lt'
    have limit := ok.inodes
    have length := stores.size
    simp only [dataOf, if_true, rootData_length] at length
    rw [made.freeinode] at limit
    simp only [ninodes, bsize, nindirect, UInt32.size] at limit ⊢
    omega
  have resized : { din with size := UInt32.ofNat ((root.size / bsize + 1) * bsize) }.load =
      some (roundUp root) := by
    have fields : roundUp root =
        { din.inode root.type with size := (root.size / bsize + 1) * bsize } := by
      rw [← inode]
      rfl
    rw [fields]
    simp only [Dinode.load, known, Option.map_some, Dinode.inode, small]
  rw [size] at written
  have stored := view_winode ok bounds resized written
  have ok₁ := ok.winode bounds.1 bounds.2 written
  simp only [balloc, Option.ite_none_right_eq_some, Option.some.injEq] at marked
  obtain ⟨-, rfl⟩ := marked
  have bitmapBlock : sb.bmapstart.toNat = nmeta - 1 := by decide
  have others : ∀ b, b ≠ sb.bmapstart.toNat → (wsect image sb.bmapstart.toNat
      ((List.range g.freeblock).foldl setBit zeroes)).sectors b = image.sectors b :=
    fun b other => update_of_ne other ..
  have super : readsb (wsect image sb.bmapstart.toNat
      ((List.range g.freeblock).foldl setBit zeroes)) = sb :=
    readsb_eq ((others 1 (by decide)).trans ok₁.super)
  have data : 0 < sb.size.toNat - sb.nblocks.toNat := by decide
  simp only [mount, super]
  refine ⟨_, root, rfl, stores, ⟨?_, ?_, ?_, ?_, fun _ => rfl⟩, trivial⟩
  · rfl
  · intro b bound
    have first : b / (bsize * 8) = 0 := Nat.div_eq_of_lt bound
    simp only [first, Nat.zero_add, wsect, update_self, Nat.mod_eq_of_lt bound]
    rw [Bool.eq_iff_iff, bitSet_balloc bound, decide_eq_true_eq]
  · intro b data
    have other : b ≠ sb.bmapstart.toNat := by
      have : 0 < nmeta := by decide
      omega
    have kept := congrArg (fun fs => fs.blocks b) stored
    simp only [iupdate, view, if_neg (Nat.not_lt.mpr data)] at kept
    simp [view, if_neg (Nat.not_lt.mpr data), others b other, kept]
  · have table := congrArg FileSystem.dinodes stored
    simp only [iupdate] at table
    rw [← table]
    funext inum
    rw [← dinodes_mount ok₁]
    have count : sb.ninodes.toNat = ninodes := by decide
    simp only [count]
    split
    case isFalse => rfl
    case isTrue bound =>
      have other := (iblock_lt_bmapstart bound).ne
      simp [inodeAt, others _ other]

section Mounted

variable {fs : FileSystem} {root : Inode}

theorem Finished.addrAt (finished : Finished g fs root) (owns : Owns (view g) (view g).dinodes [])
    {ip : Inode} (entry : (view g).dinodes inum = some ip) (slot : Slot) :
    addrAt fs.blocks ip slot = addrAt (view g).blocks ip slot := by
  cases slot with
  | direct i => rfl
  | indirect j =>
    simp only [Inodes.addrAt]
    split
    case isTrue => rfl
    case isFalse held =>
      have pointer : Inodes.addrOf (view g).blocks (view g).dinodes
          (inum, .direct (Fin.last ndirect)) = ip.addrs (Fin.last ndirect) :=
        addrOf_direct entry _
      rw [← pointer] at held
      have data := (held_bounds owns held).1
      rw [pointer] at data
      rw [finished.blocks _ data]

theorem addrAt_roundUp (blocks : Nat → Block) (slot : Slot) :
    addrAt blocks (roundUp root) slot = addrAt blocks root slot := by
  cases slot <;> rfl

theorem Finished.addrOf (finished : Finished g fs root) (owns : Owns (view g) (view g).dinodes [])
    (rooted : (view g).dinodes rootino = some root) :
    addrOf fs.blocks fs.dinodes = addrOf (view g).blocks (view g).dinodes := by
  funext ⟨inum, slot⟩
  by_cases here : inum = rootino
  · subst here
    have entry : fs.dinodes rootino = some (roundUp root) := by
      rw [finished.dinodes, update_self]
    rw [addrOf_some entry, addrOf_some rooted, addrAt_roundUp, finished.addrAt owns rooted]
  · have entry : fs.dinodes inum = (view g).dinodes inum := by
      rw [finished.dinodes, update_of_ne here]
    simp only [Inodes.addrOf, entry]
    cases known : (view g).dinodes inum with
    | none => rfl
    | some ip => exact finished.addrAt owns known slot

theorem Finished.owns (finished : Finished g fs root) (owns : Owns (view g) (view g).dinodes [])
    (rooted : (view g).dinodes rootino = some root) : Owns fs fs.dinodes [] := by
  have bitmap : ∀ b < fssize, fs.bitmap b = (view g).bitmap b := by
    intro b bound
    have inBlock : fssize ≤ bsize * 8 := by decide
    exact finished.bitmap b (Nat.lt_of_lt_of_le bound inBlock)
  show Tracks _ _ _ _ _
  rw [finished.addrOf owns rooted, finished.sb]
  refine ⟨owns.low_pos, owns.area, owns.distinct, nofun, .nil, nofun, ?_, ?_⟩
  · intro b lower upper
    rw [bitmap b upper]
    exact owns.exact b lower upper
  · intro b low
    have small : b < fssize := Nat.lt_trans (show b < nmeta from low) (by decide)
    rw [bitmap b small]
    exact owns.reserved b low

/-- Rounding up allocates no block: the size has to end inside one. -/
theorem blocksFor_roundUp (inside : root.size % bsize ≠ 0) :
    blocksFor (roundUp root).size = blocksFor root.size := by
  simp only [blocksFor, roundUp]
  simp only [bsize, nindirect] at inside ⊢
  omega

/-- A size that ends with a block is rounded up to one that was never allocated. -/
theorem Finished.hole (finished : Finished g fs root) (made : Made g files)
    (stores : Stores (view g) rootino .dir (rootData files) root) (full : root.size % bsize = 0) :
    fs.dinodes rootino = some (roundUp root) ∧ root.size / bsize < blocksFor (roundUp root).size ∧
      blockAddr fs.blocks (roundUp root) (root.size / bsize) = 0 := by
  have entry : fs.dinodes rootino = some (roundUp root) := by
    rw [finished.dinodes, update_self]
  have last : blocksFor root.size = root.size / bsize := by
    simp only [blocksFor, bsize, nindirect] at full ⊢
    omega
  refine ⟨entry, ?_, ?_⟩
  · simp only [blocksFor, roundUp, bsize, nindirect]
    omega
  · by_contra held
    rw [← ne_eq, blockAddr_ne_zero entry, finished.addrOf made.holds.owns stores.entry] at held
    have below := (stores.extent (root.size / bsize)).mpr held
    omega

theorem Finished.extent (made : Made g files) (finished : Finished g fs root)
    (stores : Stores (view g) rootino .dir (rootData files) root) (inside : root.size % bsize ≠ 0)
    {ip : Inode} (entry : fs.dinodes inum = some ip) :
    Extent (Inodes.addrOf fs.blocks fs.dinodes) inum (blocksFor ip.size) := by
  rw [finished.addrOf made.holds.owns stores.entry]
  rw [finished.dinodes] at entry
  by_cases here : inum = rootino
  · subst here
    cases entry
    rw [blocksFor_roundUp inside]
    exact stores.extent
  · rw [update_of_ne here] at entry
    have bounds : 1 ≤ inum ∧ inum < g.freeinode := by
      by_contra outside
      simp only [view, if_neg outside] at entry
      cases entry
    obtain ⟨known, otherStores⟩ := made.holds.file inum bounds.1 bounds.2
    have same := otherStores.entry
    rw [entry] at same
    cases same
    exact otherStores.extent

theorem Finished.sessionInv (made : Made g files) (finished : Finished g fs root)
    (stores : Stores (view g) rootino .dir (rootData files) root)
    (inside : root.size % bsize ≠ 0) : SessionInv ⟨fs, []⟩ where
  owns := finished.owns made.holds.owns stores.entry
  extent _ _ entry _ := finished.extent made stores inside entry
  locks := nofun
  agrees inum ip used := by
    have idle := finished.idle inum
    simp only [idle, Nat.lt_irrefl] at used

/-- The bits past the last block of the disk are not set either. -/
theorem Finished.bitmap_iff (finished : Finished g fs root) (made : Made g files)
    (rooted : (view g).dinodes rootino = some root) {b : Nat} (bound : b < bsize * 8) :
    fs.bitmap b = true ↔
      b < nmeta ∨ ∃ inum ip slot, fs.dinodes inum = some ip ∧
        Inodes.addrAt fs.blocks ip slot = b := by
  have owns := finished.owns made.holds.owns rooted
  have start : fs.sb.dataStart = nmeta := by rw [finished.sb]; rfl
  have size : fs.sb.size = fssize := by rw [finished.sb]; rfl
  by_cases low : b < nmeta
  · have marked := owns.reserved b (by rw [start]; exact low)
    simp [marked, low]
  · have nonzero : b ≠ 0 := by
      rintro rfl
      exact low (by decide)
    rw [← exists_place nonzero]
    by_cases small : b < fssize
    · rw [owns.exact b (by rw [start]; omega) (by rw [size]; exact small)]
      simp [low]
    · have clear : ¬ b < g.freeblock := by
        have := made.holds.ok.upper
        omega
      have nobody : ¬ ∃ place, Inodes.addrOf fs.blocks fs.dinodes place = b := by
        rintro ⟨place, rfl⟩
        have := (owns.area place nonzero).2
        omega
      simp [finished.bitmap b bound, clear, low, nobody]

end Mounted

/-! ## Consistency -/

/-- The image as mounted, when `main` has allocated the inodes below `freeinode`. -/
structure ConsistentImage (freeinode : Nat) (fs : FileSystem) : Prop where
  super : fs.sb.ninodes = ninodes ∧ fs.sb.size = fssize
  allocated : ∀ inum, 1 ≤ inum → inum < freeinode →
    inum < fs.sb.ninodes ∧ (fs.dinodes inum).isSome = true
  noHoles : ∀ inum ip, fs.dinodes inum = some ip → ∀ bn, bn < blocksFor ip.size →
    blockAddr fs.blocks ip bn ≠ 0
  distinct : ∀ inum ip slot inum' ip' slot', fs.dinodes inum = some ip →
    fs.dinodes inum' = some ip' → addrAt fs.blocks ip slot ≠ 0 →
    addrAt fs.blocks ip slot = addrAt fs.blocks ip' slot' → inum = inum' ∧ slot = slot'
  inDataArea : ∀ inum ip slot, fs.dinodes inum = some ip → addrAt fs.blocks ip slot ≠ 0 →
    nmeta ≤ addrAt fs.blocks ip slot ∧ addrAt fs.blocks ip slot < fs.sb.size
  bitmapExact : ∀ b, b < bsize * 8 → (fs.bitmap b = true ↔
    b < nmeta ∨ ∃ inum ip slot, fs.dinodes inum = some ip ∧ addrAt fs.blocks ip slot = b)

theorem root_size_mod {root : Inode}
    (stores : Stores (view g) rootino .dir (rootData files) root) :
    root.size % bsize = 0 ↔ (files.length + 2) % 32 = 0 := by
  rw [stores.size, rootData_length]
  simp only [bsize, nindirect]
  omega

theorem Finished.consistent {fs : FileSystem} {root : Inode} (done : Finished g fs root)
    (made : Made g files) (stores : Stores (view g) rootino .dir (rootData files) root)
    (inside : root.size % bsize ≠ 0) : ConsistentImage g.freeinode fs := by
  obtain ⟨consistent, -⟩ := (done.sessionInv made stores inside).consistent
  have start : fs.sb.dataStart = nmeta := by rw [done.sb]; rfl
  refine ⟨by rw [done.sb]; exact ⟨rfl, rfl⟩, ?_, ?_, consistent.distinct, ?_, ?_⟩
  · intro inum lower upper
    have limit := made.holds.ok.inodes
    obtain ⟨ip, otherStores⟩ := made.holds.file inum lower upper
    refine ⟨?_, ?_⟩
    · rw [done.sb]
      exact Nat.lt_of_lt_of_le upper limit
    · rw [done.dinodes]
      by_cases here : inum = rootino
      · rw [here]
        rfl
      · rw [update_of_ne here, otherStores.entry]
        rfl
  · intro inum ip entry bn below
    have extent := done.extent made stores inside entry
    exact ((extent_iff entry _).mp extent bn).mp below
  · rw [← start]
    exact consistent.inDataArea
  · intro b bound
    exact done.bitmap_iff made stores.entry bound

/-- An image that `mkfs` makes is consistent exactly if the inodes of the files are below `NINODES`
and the last block of the root directory is not full. -/
theorem image_consistent {files : List File} {g : Globals} (result : main files = some g) :
    (∃ fs, mount g.image = some fs ∧ ConsistentImage g.freeinode fs) ↔
      files.length ≤ 198 ∧ (files.length + 2) % 32 ≠ 0 := by
  constructor
  · rintro ⟨fs, mounted, consistent⟩
    have few : files.length ≤ 198 := by
      by_contra many
      have last : ninodes < g.freeinode := by
        rw [main_freeinode result]
        simp only [ninodes]
        omega
      have counted := (consistent.allocated ninodes (by decide) last).1
      rw [consistent.super.1] at counted
      exact absurd counted (Nat.lt_irrefl _)
    refine ⟨few, fun full => ?_⟩
    obtain ⟨before, made, finished⟩ := main_made few result
    obtain ⟨fs', root, mounted', stores, done, -⟩ := mount_finish made finished
    cases mounted.symm.trans mounted'
    obtain ⟨entry, below, hole⟩ := done.hole made stores ((root_size_mod stores).mpr full)
    exact consistent.noHoles rootino _ entry _ below hole
  · rintro ⟨few, partlyFilled⟩
    obtain ⟨before, made, finished⟩ := main_made few result
    obtain ⟨fs, root, mounted, stores, done, freeinode⟩ := mount_finish made finished
    rw [freeinode]
    exact ⟨fs, mounted, done.consistent made stores (mt (root_size_mod stores).mp partlyFilled)⟩

/-- An empty file, `x`. -/
def emptyFile : File := ⟨[120], some [], by decide⟩

theorem emptyFile_fits : emptyFile.Fits := ⟨by decide, rfl, Nat.zero_le _⟩

theorem total_emptyFiles (n : Nat) :
    total (List.replicate n emptyFile) = blocksUsed (16 * (n + 2)) := by
  have empty : blocksUsed (emptyFile.contents.getD []).length = 0 := rfl
  simp [total, rootData_length, empty]

theorem emptyFiles_made {n : Nat} (few : n ≤ 198)
    (room : nmeta + blocksUsed (16 * (n + 2)) ≤ fssize) :
    ∃ g, main (List.replicate n emptyFile) = some g := by
  apply main_succeeds
  · rw [List.length_replicate]
    exact few
  · intro file member
    rw [List.eq_of_mem_replicate member]
    exact emptyFile_fits
  · rw [total_emptyFiles]
    exact room

theorem forty_files_consistent : ∃ g fs, main (List.replicate 40 emptyFile) = some g ∧
    mount g.image = some fs ∧ ConsistentImage g.freeinode fs := by
  obtain ⟨g, result⟩ := emptyFiles_made (show 40 ≤ 198 by decide) (by decide)
  obtain ⟨fs, mounted, consistent⟩ := (image_consistent result).mpr (by decide)
  exact ⟨g, fs, result, mounted, consistent⟩

/-- The 32 entries of the root directory fill its block, and its size is rounded up to two. -/
theorem full_root_block_leaves_hole : ∃ g fs root, main (List.replicate 30 emptyFile) = some g ∧
    mount g.image = some fs ∧ fs.dinodes rootino = some root ∧ 1 < blocksFor root.size ∧
    blockAddr fs.blocks root 1 = 0 := by
  obtain ⟨g', result⟩ := emptyFiles_made (show 30 ≤ 198 by decide) (by decide)
  have few : (List.replicate 30 emptyFile).length ≤ 198 := by
    decide
  obtain ⟨g, made, finished⟩ := main_made few result
  obtain ⟨fs, root, mounted, stores, done, -⟩ := mount_finish made finished
  have size : root.size = 512 := by
    rw [stores.size, rootData_length, List.length_replicate]
  obtain ⟨entry, below, hole⟩ := done.hole made stores (by rw [size]; decide)
  rw [size] at below hole
  exact ⟨g', fs, roundUp root, result, mounted, entry, below, hole⟩

end Laboratorio.Xv6.Mkfs
