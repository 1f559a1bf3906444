import Laboratorio.Xv6.Inode.Contents

/-! # An inode is an array of bytes

`writei` and `readi` on the inode of a regular file or a directory, without the premise
that the call returns.  A call that needs new blocks asks `balloc` for at most
`blocksNeeded` of them (`writeLoop_succeeds`, by induction on the rounds of the loop), so it
returns as soon as that many are free.

* `byte_array` — refused calls change nothing; a write overwrites the contents of its inode
  and of no other; a read returns the bytes of the contents.
-/

namespace Laboratorio.Xv6.Inodes

open Laboratorio.Lib Function List Fin

variable {fs : FileSystem} {off : Nat} {src : List UInt8} {ip : Inode}

/-! ## Free blocks -/

def freeBlocks (fs : FileSystem) : Nat :=
  (List.range fs.sb.size).countP fun b => !fs.bitmap b

/-- The blocks to allocate until `target` blocks are mapped, `count` of which are mapped
already: the data blocks, and the indirect block when it is missing. -/
def blocksNeeded (ip : Inode) (count target : Nat) : Nat :=
  target - count + if ndirect < target ∧ ip.addrs (Fin.last ndirect) = 0 then 1 else 0

theorem countP_update {bitmap : Nat → Bool} {size b : Nat} (bound : b < size)
    (free : bitmap b = false) :
    (List.range size).countP (fun other => !update bitmap b true other) + 1 =
      (List.range size).countP fun other => !bitmap other := by
  induction size with
  | zero => omega
  | succ size ih =>
    rw [List.range_succ, List.countP_append, List.countP_append]
    by_cases last : b = size
    · subst last
      have others : (range b).countP (fun other => !update bitmap b true other) =
          (range b).countP fun other => !bitmap other := by
        apply countP_congr
        intro other mem
        have below : other ≠ b := Nat.ne_of_lt (mem_range.mp mem)
        rw [update_of_ne below]
      rw [others]
      simp [free]
    · have different : size ≠ b := fun equal => last equal.symm
      simp only [countP_singleton, update_of_ne different]
      omega

theorem balloc_succeeds (some : 0 < freeBlocks fs) :
    ∃ b fs', balloc fs = .ok (b, fs') ∧ freeBlocks fs' + 1 = freeBlocks fs := by
  obtain ⟨b, member, free⟩ := countP_pos_iff.mp some
  cases search : (range fs.sb.size).find? fun b => !fs.bitmap b with
  | none => exact absurd free (find?_eq_none.mp search b member)
  | some found =>
    have isFree : fs.bitmap found = false := by simpa using find?_some search
    refine ⟨found, _, by simp only [balloc, search]; rfl, ?_⟩
    exact countP_update (mem_range.mp (mem_of_find?_eq_some search)) isFree

theorem freeBlocks_setBlock (fs : FileSystem) (b : Nat) (block : Block) :
    freeBlocks (fs.setBlock b block) = freeBlocks fs := rfl

theorem ensureAddr_succeeds {i : Fin (ndirect + 1)} (enough : ip.addrs i = 0 → 0 < freeBlocks fs) :
    ∃ addr fs' ip', ensureAddr fs ip i = .ok (addr, fs', ip') ∧
      freeBlocks fs' + (if ip.addrs i = 0 then 1 else 0) = freeBlocks fs ∧
      ip' = ip.setAddr i addr := by
  by_cases empty : ip.addrs i = 0
  · obtain ⟨b, fs', allocated, free⟩ := balloc_succeeds (enough empty)
    refine ⟨b, fs', ip.setAddr i b, ?_, ?_, rfl⟩
    · simp [ensureAddr, if_pos empty, allocated, bind, Except.bind]
    · rw [if_pos empty, free]
  · refine ⟨ip.addrs i, fs, ip, by simp [ensureAddr, if_neg empty], by simp [empty], ?_⟩
    simp [Inode.setAddr]

theorem ensureWord_succeeds (ind j : Nat) (enough : 0 < freeBlocks fs) :
    ∃ addr fs', ensureWord fs ind j = .ok (addr, fs') ∧ freeBlocks fs ≤ freeBlocks fs' + 1 := by
  by_cases empty : Words.get (fs.blocks ind) j = 0
  · obtain ⟨b, fs', allocated, free⟩ := balloc_succeeds enough
    refine ⟨b, fs'.setBlock ind (Words.put (fs.blocks ind) j (UInt32.ofNat b)), ?_, ?_⟩
    · simp [ensureWord, if_pos empty, allocated, bind, Except.bind]
    · rw [freeBlocks_setBlock]
      omega
  · exact ⟨_, fs, by simp only [ensureWord, if_neg empty]; rfl, by omega⟩

section Growing

variable {base : Nat → Option Inode} {inum : Nat} {fs : FileSystem} {ip : Inode}

/-- `bmap` at or below the extent returns, and leaves enough blocks for the rest. -/
theorem bmap_succeeds {bn count target : Nat}
    (maps : Maps base inum fs ip count) (within : bn ≤ count) (below : bn < target) (fits : target ≤ maxFile)
    (enough : blocksNeeded ip count target ≤ freeBlocks fs) :
    ∃ addr fs' ip', bmap fs ip bn = .ok (addr, fs', ip') ∧
      blocksNeeded ip' (max count (bn + 1)) target ≤ freeBlocks fs' := by
  by_cases mapped : bn < count
  · have address := ((extent_iff (update_self ..) count).mp maps.extent bn).mp mapped
    refine ⟨_, fs, ip, bmap_of_mapped address, ?_⟩
    rwa [Nat.max_eq_left (by omega)]
  · have atEnd : max count (bn + 1) = count + 1 := by omega
    have positive : 0 < freeBlocks fs := by
      simp only [blocksNeeded] at enough
      omega
    by_cases direct : bn < ndirect
    · obtain ⟨addr, fs', ip', ok, free, isSet⟩ :=
        ensureAddr_succeeds (i := ⟨bn, by omega⟩) (fun _ => positive)
      refine ⟨addr, fs', ip', by rw [bmap, dif_pos direct, ok], ?_⟩
      have pointer : ip'.addrs (last ndirect) = ip.addrs (last ndirect) := by
        have other : last ndirect ≠ ⟨bn, by omega⟩ := ne_of_gt direct
        rw [isSet]
        exact update_of_ne other ..
      simp only [blocksNeeded, pointer] at enough ⊢
      split at free <;> omega
    · have indirect : bn - ndirect < nindirect := by
        unfold maxFile at fits
        omega
      have high : ndirect < target := by omega
      -- the pointer takes a block of its own when it is missing
      obtain ⟨ind, mid, midIp, pointerOk, pointerFree, isSet⟩ :=
        ensureAddr_succeeds (i := last ndirect) (fun _ => positive)
      have reserve : 0 < freeBlocks mid := by
        simp only [blocksNeeded] at enough
        by_cases missing : ip.addrs (last ndirect) = 0
        · rw [if_pos ⟨high, missing⟩] at enough
          rw [if_pos missing] at pointerFree
          omega
        · rw [if_neg missing] at pointerFree
          omega
      obtain ⟨addr, fs', wordOk, wordFree⟩ := ensureWord_succeeds ind (bn - ndirect) reserve
      refine ⟨addr, fs', midIp, ?_, ?_⟩
      · simp [bmap, dif_neg direct, if_pos indirect, pointerOk, wordOk, bind, Except.bind]
      · have present : midIp.addrs (last ndirect) ≠ 0 := by
          rw [isSet, Inode.setAddr]
          simpa using (ensureAddr_spec maps.owns pointerOk).nonzero
        simp only [blocksNeeded, present, and_false, if_false] at enough ⊢
        by_cases missing : ip.addrs (last ndirect) = 0
        · rw [if_pos ⟨high, missing⟩] at enough
          rw [if_pos missing] at pointerFree
          omega
        · rw [if_neg missing] at pointerFree
          omega

theorem writeLoop_succeeds (fuel : Nat) {count : Nat}
    (maps : Maps base inum fs ip count) (within : off ≤ count * bsize) (fits : off + src.length ≤ maxFile * bsize)
    (enough : blocksNeeded ip count (blocksFor (off + src.length)) ≤ freeBlocks fs) :
    ∃ fs' ip', writeLoop fuel fs ip off src = .ok (fs', ip') := by
  induction fuel generalizing off src fs ip count with
  | zero => exact ⟨fs, ip, rfl⟩
  | succ fuel ih =>
    by_cases none : src = []
    · exact ⟨fs, ip, by simp [writeLoop, if_pos none]⟩
    · have positive : 0 < src.length := length_pos_iff.mpr none
      have atOrBelow := div_le_of_le_mul within
      have reached : off / bsize < blocksFor (off + src.length) := by
        simp only [blocksFor, bsize, nindirect]
        omega
      obtain ⟨addr, mid, midIp, ok, rest⟩ :=
        bmap_succeeds maps atOrBelow reached (blocksFor_le fits) enough
      generalize length : min src.length (bsize - off % bsize) = m
      have next := (maps.round atOrBelow ok
        (patch (mid.blocks addr) (off % bsize) (src.take m))).2
      have dropped : (src.drop m).length = src.length - m := length_drop ..
      have total : off + m + (src.drop m).length = off + src.length := by omega
      have fitsRest : off + m + (src.drop m).length ≤ maxFile * bsize := by omega
      obtain ⟨fs', ip', looped⟩ := ih next (round_reach count (by omega)) fitsRest
        (by rw [total]; exact rest)
      refine ⟨fs', ip', ?_⟩
      simp only [writeLoop, if_neg none, ok, length]
      exact looped

end Growing

/-! ## Calls on an inode in memory -/

section Calls

variable {fs : FileSystem} {inum : Nat} {ip dip : Inode}

theorem size_le_of_extent {table : Nat → Option Inode} {size : Nat}
    (extent : Extent (addrOf fs.blocks table) inum (blocksFor size)) :
    size ≤ maxFile * bsize := by
  have covered := le_blocksFor_mul size
  have few : blocksFor size ≤ maxFile := by
    by_contra more
    obtain ⟨slot, place, _⟩ := (extent maxFile).mp (by omega)
    simp [slotOf, maxFile] at place
  exact Nat.le_trans covered (Nat.mul_le_mul_right _ few)

/-- The cases in which `writei` returns -1. -/
theorem writei_refused (notDevice : ip.type ≠ .dev)
    (refused : ip.size < off ∨ 2 ^ 32 ≤ off + src.length ∨ maxFile * bsize < off + src.length) :
    writei fs inum ip off src = .ok (none, fs, ip) := by
  rw [writei, if_neg notDevice]
  by_cases first : ip.size < off ∨ 2 ^ 32 ≤ off + src.length
  · rw [if_pos first]
  · rw [if_neg first, if_pos]
    omega

theorem writei_succeeds (maps : Maps fs.dinodes inum fs ip (blocksFor ip.size))
    (notDevice : ip.type ≠ .dev) (inside : off ≤ ip.size)
    (small : off + src.length < 2 ^ 32) (fits : off + src.length ≤ maxFile * bsize)
    (enough : blocksNeeded ip (blocksFor ip.size) (blocksFor (off + src.length)) ≤ freeBlocks fs) :
    ∃ fs' ip', writei fs inum ip off src = .ok (some src.length, fs', ip') := by
  have covered := le_blocksFor_mul ip.size
  obtain ⟨looped, loopedIp, ok⟩ := writeLoop_succeeds src.length maps (by omega) fits enough
  have accepted : ¬ (ip.size < off ∨ 2 ^ 32 ≤ off + src.length) := by omega
  simp only [writei, if_neg notDevice, if_neg accepted, if_neg (Nat.not_lt.mpr fits), ok, bind,
    Except.bind]
  split
  · exact ⟨_, _, rfl⟩
  · exact ⟨_, _, rfl⟩

/-- `readi` cuts the range at the end of the file. -/
theorem readi_slice (notDevice : ip.type ≠ .dev) (small : ip.size < 2 ^ 32)
    (mapped : ∀ j < ip.size, blockAddr fs.blocks ip (j / bsize) ≠ 0) {n : Nat}
    (inside : off ≤ ip.size) (accepted : off + n < 2 ^ 32) :
    readi fs ip off n = .ok (some (((contents fs.blocks ip).drop off).take n), fs, ip) := by
  generalize length : min n (ip.size - off) = m
  have cut : (if ip.size < off + n then ip.size - off else n) = m := by
    split <;> omega
  have cutAgain : (if ip.size < off + m then ip.size - off else m) = m := by
    split <;> omega
  have same : readi fs ip off n = readi fs ip off m := by
    have first : ¬ (ip.size < off ∨ 2 ^ 32 ≤ off + n) := by omega
    have second : ¬ (ip.size < off ∨ 2 ^ 32 ≤ off + m) := by omega
    simp only [readi, if_neg notDevice, if_neg first, if_neg second, cut, cutAgain]
  have read := readi_bytes notDevice (show off + m ≤ ip.size by omega) small
    (fun j bound => mapped (off + j) (by omega))
  have shorter : ((contents fs.blocks ip).drop off).take n =
      ((contents fs.blocks ip).drop off).take m := by
    have available : ((contents fs.blocks ip).drop off).length = ip.size - off := by
      rw [length_drop, contents_length]
    rw [take_eq_take_min, available, length]
  rw [same, read, bytes_eq_slice fs.blocks ip (by omega), shorter]

end Calls

/-! ## The byte array -/

theorem not_device {type : FileType} (fileOrDir : type = .file ∨ type = .dir) : type ≠ .dev := by
  rcases fileOrDir with isFile | isDir
  · rw [isFile]
    decide
  · rw [isDir]
    decide

theorem Maps.mapped {fs : FileSystem} {inum : Nat}
    (maps : Maps fs.dinodes inum fs ip (blocksFor ip.size)) : ∀ j < ip.size, blockAddr fs.blocks ip (j / bsize) ≠ 0 := by
  intro j below
  have covered := le_blocksFor_mul ip.size
  have noHole := (extent_iff (update_self ..) _).mp maps.extent (j / bsize)
  exact noHole.mp (div_lt_of_lt_mul (by omega))

/-- With the bitmap bits of the blocks below the data area set, as `mkfs` sets them, an inode
in memory that agrees with the inode table behaves as the array of its bytes. -/
theorem byte_array {fs : FileSystem} (consistent : Consistent fs) (marked : MetadataMarked fs)
    {inum : Nat} {ip dip : Inode} (entry : fs.dinodes inum = some dip) (agrees : ip.Agrees dip)
    (type : ip.type = .file ∨ ip.type = .dir) :
    (∀ off src, ip.size < off ∨ 2 ^ 32 ≤ off + src.length ∨ maxFile * bsize < off + src.length →
      writei fs inum ip off src = .ok (none, fs, ip)) ∧
    (∀ off src, off ≤ ip.size → off + src.length < 2 ^ 32 →
      off + src.length ≤ maxFile * bsize →
      blocksNeeded ip (blocksFor ip.size) (blocksFor (off + src.length)) ≤ freeBlocks fs →
      ∃ fs' ip' dip', writei fs inum ip off src = .ok (some src.length, fs', ip') ∧
        contents fs'.blocks ip' = overwrite (contents fs.blocks ip) off src ∧
        fs'.dinodes = update fs.dinodes inum (some dip') ∧ ip'.Agrees dip' ∧
        ∀ other otherIp, other ≠ inum → fs.dinodes other = some otherIp →
          otherIp.type = .file ∨ otherIp.type = .dir →
          contents fs'.blocks otherIp = contents fs.blocks otherIp) ∧
    ∀ off n, off ≤ ip.size → off + n < 2 ^ 32 →
      ∃ bytes, readi fs ip off n = .ok (some bytes, fs, ip) ∧
        bytes.length = min n (ip.size - off) ∧
        bytes = ((contents fs.blocks ip).drop off).take n := by
  have notDevice := not_device type
  have inv := consistent.sessionInv marked
  have opened := inv.opened entry agrees
  have maps := opened.maps notDevice
  refine ⟨fun off src refused => writei_refused notDevice refused, ?_, ?_⟩
  · intro off src inside small fits enough
    obtain ⟨fs', ip', ok⟩ := writei_succeeds maps notDevice inside small fits enough
    obtain ⟨bytes, size, _⟩ := writei_written maps notDevice ok
    obtain ⟨dip', stored⟩ := writei_stored opened ok
    refine ⟨fs', ip', dip', ok, bytes.overwrites size inside, stored.dinodes, stored.agrees, ?_⟩
    intro other otherIp different otherEntry otherType
    exact bytes.others_contents different otherEntry
      (inv.extent other otherIp otherEntry (not_device otherType))
  · intro off n inside accepted
    have bound := size_le_of_extent maps.extent
    have small : ip.size < 2 ^ 32 := Nat.lt_of_le_of_lt bound (by decide)
    refine ⟨_, readi_slice notDevice small maps.mapped inside accepted, ?_, rfl⟩
    rw [length_take, length_drop, contents_length]

theorem byte_written_to_empty_file :
    ∃ fs' ip', writei (freshDisk (· < Mkfs.nmeta)) 1 (.fresh .file) 0 [7] =
      .ok (some 1, fs', ip') ∧ contents fs'.blocks ip' = [7] := by
  obtain ⟨_, writes, _⟩ := byte_array freshDisk_marked_consistent
    (fun b below => decide_eq_true below)
    (show (freshDisk (· < Mkfs.nmeta)).dinodes 1 = _ from rfl)
    (.refl (.fresh .file)) (.inl rfl)
  obtain ⟨fs', ip', _, ok, bytes, _⟩ := writes 0 [7] (Nat.le_refl 0) (by decide) (by decide)
    (by decide +kernel)
  exact ⟨fs', ip', ok, bytes⟩

/-- Without the marks on the first blocks `balloc` hands out block 0, and the byte written is
not the one read. -/
theorem unmarked_metadata_loses_byte : Consistent (freshDisk fun _ => false) ∧
    ∃ fs' ip', writei (freshDisk fun _ => false) 1 (.fresh .file) 0 [7] = .ok (some 1, fs', ip') ∧
      ∃ fs'' ip'', readi fs' ip' 0 1 = .ok (some [0], fs'', ip'') := by
  have ran : (match writei (freshDisk fun _ => false) 1 (.fresh .file) 0 [7] with
    | .ok (count, fs', ip') =>
      match readi fs' ip' 0 1 with
      | .ok (bytes, _, _) => some (count, bytes)
      | .error _ => none
    | .error _ => none) = some (some 1, some [0]) := by decide +kernel
  refine ⟨freshDisk_consistent fun _ _ => rfl, ?_⟩
  split at ran
  · rename_i count fs' ip' written
    split at ran
    · rename_i bytes fs'' ip'' read
      cases ran
      exact ⟨fs', ip', written, fs'', ip'', read⟩
    · cases ran
  · cases ran

end Laboratorio.Xv6.Inodes
