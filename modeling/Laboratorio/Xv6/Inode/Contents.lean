import Laboratorio.Xv6.Inode.Consistency

/-! # The bytes of an inode

`byteAt` is the byte of an inode at an offset, found through its block map.  A read inside the
mapped blocks returns these bytes (`readi_bytes`); a write replaces those it covers and leaves the
other mapped bytes, of this inode and of every other, as they were (`writeLoop_bytes`).
-/

namespace Laboratorio.Xv6.Inodes

open Laboratorio.Lib Function List Nat

variable {ip otherIp : Inode} {off n bn addr other count : Nat} {fs : FileSystem} {slot : Slot}
  {src bytes : List UInt8} {base : Nat → Option Inode}

def byteAt (blocks : Nat → Block) (ip : Inode) (j : Nat) : UInt8 :=
  blocks (blockAddr blocks ip (j / bsize)) ⟨j % bsize, Nat.mod_lt j (by decide)⟩

def contents (blocks : Nat → Block) (ip : Inode) : List UInt8 :=
  (List.range ip.size).map (byteAt blocks ip)

@[simp]
theorem contents_length (blocks : Nat → Block) (ip : Inode) :
    (contents blocks ip).length = ip.size := by
  simp [contents]

theorem Inode.Agrees.contents {dip : Inode} (agrees : ip.Agrees dip) (blocks : Nat → Block) :
    contents blocks ip = contents blocks dip := by
  obtain ⟨-, -, size, addrs⟩ := agrees
  have slots : ∀ slot, addrAt blocks ip slot = addrAt blocks dip slot := by
    intro slot
    cases slot with
    | direct i => simp [addrAt, addrs]
    | indirect j => simp [addrAt, addrs]
  have blockAddrs : ∀ bn, blockAddr blocks ip bn = blockAddr blocks dip bn := by
    intro bn
    simp only [blockAddr]
    split
    · exact slots _
    · rfl
  rw [Inodes.contents, size]
  apply map_congr_left
  intro j _
  simp [byteAt, blockAddrs]

theorem bytes_eq_slice (blocks : Nat → Block) (ip : Inode) (inside : off + n ≤ ip.size) :
    ((List.range n).map fun j => byteAt blocks ip (off + j)) =
      ((contents blocks ip).drop off).take n := by
  apply ext_getElem?
  intro j
  by_cases bound : j < n
  · have position : off + j < ip.size := by omega
    simp [getElem?_take, if_pos bound, contents, getElem?_range bound, getElem?_range position]
  · rw [getElem?_eq_none, getElem?_eq_none]
    · simp only [length_take]
      omega
    · rw [length_map, length_range]
      omega

/-! ## Reading -/

theorem bmap_of_mapped (mapped : blockAddr fs.blocks ip bn ≠ 0) :
    bmap fs ip bn = .ok (blockAddr fs.blocks ip bn, fs, ip) := by
  by_cases direct : bn < ndirect
  · have addr : blockAddr fs.blocks ip bn = ip.addrs ⟨bn, by omega⟩ := by
      simp [blockAddr, slotOf, dif_pos direct, addrAt]
    rw [addr] at mapped ⊢
    simp [bmap, dif_pos direct, ensureAddr, if_neg mapped]
  · by_cases indirect : bn - ndirect < nindirect
    · have addr : blockAddr fs.blocks ip bn =
          if ip.addrs (Fin.last ndirect) = 0 then 0
          else (Words.get (fs.blocks (ip.addrs (Fin.last ndirect))) (bn - ndirect)).toNat := by
        simp [blockAddr, slotOf, dif_neg direct, dif_pos indirect, addrAt]
      rw [addr] at mapped ⊢
      split at mapped
      case isTrue => exact absurd rfl mapped
      case isFalse pointer =>
        have word : Words.get (fs.blocks (ip.addrs (Fin.last ndirect))) (bn - ndirect) ≠ 0 := by
          intro zero
          rw [zero] at mapped
          exact mapped rfl
        simp [bmap, dif_neg direct, if_pos indirect, ensureAddr, if_neg pointer, ensureWord, if_neg word, bind, Except.bind]
    · have unmapped : blockAddr fs.blocks ip bn = 0 := by
        simp [blockAddr, slotOf, dif_neg direct, dif_neg indirect]
      exact absurd unmapped mapped

theorem slice_eq_bytes (blocks : Nat → Block) (ip : Inode) {m : Nat}
    (within : off % bsize + m ≤ bsize) :
    slice (blocks (blockAddr blocks ip (off / bsize))) (off % bsize) m =
      (List.range m).map fun j => byteAt blocks ip (off + j) := by
  apply map_congr_left
  intro j member
  have below := mem_range.mp member
  have sameBlock : (off + j) / bsize = off / bsize := by
    simp only [bsize, nindirect] at within ⊢
    omega
  have position : (off + j) % bsize = off % bsize + j := by
    simp only [bsize, nindirect] at within ⊢
    omega
  have bound : off % bsize + j < 4 * nindirect := by
    simp only [bsize] at within ⊢
    omega
  simp [byteAt, sameBlock, position, dif_pos bound]

theorem readLoop_bytes {fuel : Nat} (enough : n ≤ fuel)
    (mapped : ∀ j < n, blockAddr fs.blocks ip ((off + j) / bsize) ≠ 0) :
    readLoop fuel fs ip off n =
      .ok ((List.range n).map fun j => byteAt fs.blocks ip (off + j), fs, ip) := by
  induction fuel generalizing off n with
  | zero =>
    have none : n = 0 := by omega
    subst none
    rfl
  | succ fuel ih =>
    by_cases none : n = 0
    · subst none
      rfl
    · have first := bmap_of_mapped (mapped 0 (by omega))
      rw [Nat.add_zero] at first
      have positive : 0 < bsize - off % bsize := Nat.sub_pos_of_lt (Nat.mod_lt off (by decide))
      generalize length : min n (bsize - off % bsize) = m
      have mapped' : ∀ j < n - m, blockAddr fs.blocks ip ((off + m + j) / bsize) ≠ 0 := by
        intro j below
        rw [Nat.add_assoc]
        exact mapped (m + j) (by omega)
      have rest := ih (by omega) mapped'
      have joined : (List.range n).map (fun j => byteAt fs.blocks ip (off + j)) =
          (List.range m).map (fun j => byteAt fs.blocks ip (off + j)) ++
            (List.range (n - m)).map fun j => byteAt fs.blocks ip (off + m + j) := by
        have split : n = m + (n - m) := by omega
        conv_lhs => rw [split, List.range_add, List.map_append, List.map_map]
        simp [comp_def, Nat.add_assoc]
      simp [readLoop, if_neg none, first, bind, Except.bind, length, rest, joined, slice_eq_bytes fs.blocks ip (show off % bsize + m ≤ bsize by omega)]

theorem readi_bytes (notDevice : ip.type ≠ .dev)
    (inside : off + n ≤ ip.size) (small : ip.size < 2 ^ 32)
    (mapped : ∀ j < n, blockAddr fs.blocks ip ((off + j) / bsize) ≠ 0) :
    readi fs ip off n =
      .ok (some ((List.range n).map fun j => byteAt fs.blocks ip (off + j)), fs, ip) := by
  have inFile : ¬ (ip.size < off ∨ 2 ^ 32 ≤ off + n) := by omega
  have whole : ¬ ip.size < off + n := by omega
  simp only [readi, if_neg notDevice, if_neg inFile, if_neg whole,
    readLoop_bytes (Nat.le_refl n) mapped, bind, Except.bind]

theorem readi_contents (notDevice : ip.type ≠ .dev) (small : ip.size < 2 ^ 32)
    (mapped : ∀ j < ip.size, blockAddr fs.blocks ip (j / bsize) ≠ 0) :
    readi fs ip 0 ip.size = .ok (some (contents fs.blocks ip), fs, ip) := by
  rw [readi_bytes notDevice (by omega) small fun j bound => by
    rw [Nat.zero_add]
    exact mapped j bound]
  simp [contents]

/-! ## Writing -/

section Growing

variable {base : Nat → Option Inode} {inum : Nat} {fs fs' : FileSystem} {ip ip' : Inode}

theorem blockAddr_eq (base : Nat → Option Inode) (inum : Nat)
    (place : slotOf bn = some slot) (blocks : Nat → Block) :
    blockAddr blocks ip bn = addrOf blocks (update base inum (some ip)) (inum, slot) := by
  rw [addrOf_some (update_self ..)]
  simp [blockAddr, place]

section

variable (owns : Owns fs (update base inum (some ip)) []) {b : Nat}
include owns

theorem ensureAddr_blocks {i : Fin (ndirect + 1)}
    (ok : ensureAddr fs ip i = .ok (addr, fs', ip')) {place : Nat × Slot}
    (held : addrOf fs.blocks (update base inum (some ip)) place = b) :
    fs'.blocks b = fs.blocks b := by
  unfold ensureAddr at ok
  split at ok
  · obtain ⟨⟨new, allocated⟩, alloc, ok⟩ := of_bind_ok ok
    simp only [Except.ok.injEq, Prod.mk.injEq] at ok
    obtain ⟨-, rfl, -⟩ := ok
    obtain ⟨-, -, -, taken, -, zeroed⟩ := balloc_spec owns alloc
    rw [zeroed, update_of_ne (held ▸ taken.loose_free new List.mem_cons_self place)]
  · simp only [Except.ok.injEq, Prod.mk.injEq] at ok
    rw [ok.2.1]

theorem ensureWord_blocks {ind : Nat} {j : Fin nindirect}
    (pointer : ip.addrs (Fin.last ndirect) = ind) (ok : ensureWord fs ind j = .ok (addr, fs'))
    (data : slot ≠ .direct (Fin.last ndirect))
    (held : addrOf fs.blocks (update base inum (some ip)) (other, slot) = b) (nonzero : b ≠ 0) :
    fs'.blocks b = fs.blocks b := by
  unfold ensureWord at ok
  simp only at ok
  split at ok
  · obtain ⟨⟨new, allocated⟩, alloc, ok⟩ := of_bind_ok ok
    cases ok
    obtain ⟨-, -, -, taken, -, zeroed⟩ := balloc_spec owns alloc
    have notIndirect : b ≠ ind := by
      intro equal
      have same := owns.distinct (other, slot) (inum, .direct (Fin.last ndirect))
        (held ▸ nonzero) (by rw [held, addrOf_direct (update_self ..), pointer, equal])
      simp only [Prod.mk.injEq] at same
      exact data same.2
    simp only [FileSystem.setBlock]
    rw [update_of_ne notIndirect, zeroed,
      update_of_ne (held ▸ taken.loose_free new List.mem_cons_self _)]
  · simp only [Except.ok.injEq, Prod.mk.injEq] at ok
    rw [ok.2]

/-- `bmap` leaves the data blocks that are mapped already as they are. -/
theorem bmap_blocks
    (ok : bmap fs ip bn = .ok (addr, fs', ip')) (data : slot ≠ .direct (Fin.last ndirect))
    (held : addrOf fs.blocks (update base inum (some ip)) (other, slot) = b) (nonzero : b ≠ 0) :
    fs'.blocks b = fs.blocks b := by
  unfold bmap at ok
  split at ok
  · exact ensureAddr_blocks owns ok held
  · split at ok
    · rename_i indirect
      obtain ⟨⟨ind, middle, middleIp⟩, pointerOk, ok⟩ := of_bind_ok ok
      obtain ⟨⟨found, final⟩, wordOk, ok⟩ := of_bind_ok ok
      simp only [Except.ok.injEq, Prod.mk.injEq] at ok
      obtain ⟨rfl, rfl, rfl⟩ := ok
      have pointer := ensureAddr_spec owns pointerOk
      -- the place keeps its address while the pointer is filled
      have kept : addrOf middle.blocks (update base inum (some middleIp)) (other, slot) = b := by
        rw [pointer.addrs, update_of_ne, held]
        intro equal
        simp only [Prod.mk.injEq] at equal
        exact data equal.2
      rw [ensureWord_blocks (j := ⟨bn - ndirect, indirect⟩) pointer.grown.owns pointer.direct
        wordOk data kept nonzero]
      exact ensureAddr_blocks owns pointerOk held
    · cases ok

end

/-- What a write does to the bytes: `count` is the number of blocks mapped before it. -/
structure Written (base : Nat → Option Inode) (inum : Nat) (fs : FileSystem) (ip : Inode)
    (count off : Nat) (src : List UInt8) (fs' : FileSystem) (ip' : Inode) : Prop where
  new : ∀ j, off ≤ j → j < off + src.length → byteAt fs'.blocks ip' j = src.getD (j - off) 0
  old : ∀ j, j < count * bsize → j < off ∨ off + src.length ≤ j →
    byteAt fs'.blocks ip' j = byteAt fs.blocks ip j
  others : ∀ other otherIp j, other ≠ inum → base other = some otherIp →
    blockAddr fs.blocks otherIp (j / bsize) ≠ 0 →
      blockAddr fs'.blocks otherIp (j / bsize) = blockAddr fs.blocks otherIp (j / bsize) ∧
        byteAt fs'.blocks otherIp j = byteAt fs.blocks otherIp j

/-- The address of a mapped data block of any inode of the table. -/
theorem blockAddr_place {table : Nat → Option Inode}
    (entry : table other = some otherIp) (blocks : Nat → Block)
    (mapped : blockAddr blocks otherIp bn ≠ 0) :
    ∃ slot, slotOf bn = some slot ∧
      blockAddr blocks otherIp bn = addrOf blocks table (other, slot) := by
  cases place : slotOf bn with
  | none =>
    simp only [blockAddr, place] at mapped
    exact absurd rfl mapped
  | some slot => exact ⟨slot, rfl, by simp [blockAddr, place, addrOf_some entry]⟩

theorem round_bytes {mid : FileSystem} {midIp : Inode} (maps : Maps base inum fs ip count)
    (within : off / bsize ≤ count) (fits : off % bsize + bytes.length ≤ bsize)
    (ok : bmap fs ip (off / bsize) = .ok (addr, mid, midIp)) :
    Written base inum fs ip count off bytes
      (mid.setBlock addr (patch (mid.blocks addr) (off % bsize) bytes)) midIp := by
  have mapped := bmap_mapped maps.owns ok
  obtain ⟨grown, -, ⟨slot, place, holds⟩, nonzero, unchanged⟩ := bmap_spec maps within ok
  have sameAddr := addrOf_setData grown.owns place holds nonzero
    (patch (mid.blocks addr) (off % bsize) bytes)
  generalize final : mid.setBlock addr (patch (mid.blocks addr) (off % bsize) bytes) = last
  rw [final] at sameAddr
  have here : last.blocks addr = patch (mid.blocks addr) (off % bsize) bytes := by
    rw [← final]
    exact update_self ..
  have atBlock : blockAddr last.blocks midIp (off / bsize) = addr := by
    rw [blockAddr_eq base inum place, sameAddr, holds]
  -- a mapped data block at another place keeps its address and its bytes
  have elsewhere : ∀ {other s b}, s ≠ .direct (Fin.last ndirect) → (other, s) ≠ (inum, slot) →
      addrOf fs.blocks (update base inum (some ip)) (other, s) = b → b ≠ 0 →
      addrOf last.blocks (update base inum (some midIp)) (other, s) = b →
      last.blocks b = fs.blocks b := by
    intro other s b data different held nonzero same
    have away : b ≠ addr := by
      intro equal
      rw [sameAddr] at same
      exact different (grown.owns.distinct (other, s) (inum, slot) (by rw [same]; exact nonzero)
        (by rw [same, equal, holds]))
    have untouched : last.blocks b = mid.blocks b := by
      rw [← final]
      exact update_of_ne away ..
    rw [untouched]
    exact bmap_blocks maps.owns ok data held nonzero
  refine ⟨?_, ?_, ?_⟩
  · intro j lower upper
    have sameBlock : j / bsize = off / bsize := by
      simp only [bsize, nindirect] at fits ⊢
      omega
    have position : j % bsize = off % bsize + (j - off) := by
      simp only [bsize, nindirect] at fits ⊢
      omega
    have inside : off % bsize ≤ j % bsize ∧ j % bsize < off % bsize + bytes.length := by omega
    simp only [byteAt, sameBlock, atBlock, here, patch, if_pos inside]
    congr 1
    omega
  · intro j below outside
    have inExtent : j / bsize < count := div_lt_of_lt_mul below
    by_cases same : j / bsize = off / bsize
    · -- the block was mapped before, so `bmap` changed nothing
      obtain ⟨rfl, rfl⟩ := unchanged (by omega)
      have before : blockAddr mid.blocks midIp (off / bsize) = addr := by
        rw [blockAddr_eq base inum place, holds]
      have apart : ¬ (off % bsize ≤ j % bsize ∧ j % bsize < off % bsize + bytes.length) := by
        simp only [bsize, nindirect] at same fits ⊢
        omega
      simp [byteAt, same, atBlock, before, here, patch, if_neg apart]
    · obtain ⟨s, found, held⟩ := (maps.extent (j / bsize)).mp inExtent
      have kept : addrOf last.blocks (update base inum (some midIp)) (inum, s) =
          addrOf fs.blocks (update base inum (some ip)) (inum, s) := by
        rw [sameAddr]
        exact mapped.elsewhere (j / bsize) s same found
      have data : s ≠ .direct (Fin.last ndirect) := fun equal =>
        slotOf_ne_last (j / bsize) (equal ▸ found)
      have different : (inum, s) ≠ (inum, slot) := by
        intro equal
        simp only [Prod.mk.injEq, true_and] at equal
        exact same (slotOf_injective found (equal ▸ place))
      have block := elsewhere data different rfl held kept
      simp only [byteAt]
      rw [blockAddr_eq base inum found, kept, block,
        blockAddr_eq base inum found]
  · intro other otherIp j different entry held
    have before : update base inum (some ip) other = some otherIp := by
      rw [update_of_ne different, entry]
    have after : update base inum (some midIp) other = some otherIp := by
      rw [update_of_ne different, entry]
    obtain ⟨s, found, address⟩ := blockAddr_place before fs.blocks held
    have kept : addrOf last.blocks (update base inum (some midIp)) (other, s) =
        addrOf fs.blocks (update base inum (some ip)) (other, s) := by
      rw [sameAddr]
      exact grown.others other s different
    have data : s ≠ .direct (Fin.last ndirect) := fun equal =>
      slotOf_ne_last (j / bsize) (equal ▸ found)
    have block := elsewhere data (fun equal => different (Prod.mk.inj equal).1) address.symm held
      (kept.trans address.symm)
    have address' : blockAddr last.blocks otherIp (j / bsize) =
        blockAddr fs.blocks otherIp (j / bsize) := by
      rw [address, ← kept, addrOf_some after]
      simp [blockAddr, found]
    refine ⟨address', ?_⟩
    simp only [byteAt]
    rw [address', block]

theorem writeLoop_bytes {fuel : Nat} (maps : Maps base inum fs ip count)
    (within : off ≤ count * bsize) (enough : src.length ≤ fuel)
    (ok : writeLoop fuel fs ip off src = .ok (fs', ip')) :
    Written base inum fs ip count off src fs' ip' := by
  induction fuel generalizing off src fs ip count with
  | zero =>
    cases ok
    exact ⟨fun j lower upper => by omega, fun j _ _ => rfl, fun _ _ j _ _ _ => ⟨rfl, rfl⟩⟩
  | succ fuel ih =>
    unfold writeLoop at ok
    split at ok
    · rename_i none
      cases ok
      subst none
      refine ⟨?_, fun j _ _ => rfl, fun _ _ j _ _ _ => ⟨rfl, rfl⟩⟩
      intro j lower upper
      rw [length_nil] at upper
      omega
    · rename_i nonempty
      obtain ⟨⟨addr, mid, midIp⟩, mapOk, ok⟩ := of_bind_ok ok
      have room : 0 < bsize - off % bsize := Nat.sub_pos_of_lt (mod_lt off (by decide))
      generalize length : min src.length (bsize - off % bsize) = m at ok
      have taken : (src.take m).length = m := by
        rw [length_take]
        omega
      have dropped : (src.drop m).length = src.length - m := length_drop ..
      have first : Written base inum fs ip count off (src.take m) _ _ :=
        round_bytes maps (div_le_of_le_mul within) (by omega) mapOk
      have reach := round_reach count (show m ≤ bsize - off % bsize by omega)
      have rest := ih (maps.round (div_le_of_le_mul within) mapOk _).2 reach (by omega) ok
      have wider : count * bsize ≤ max count (off / bsize + 1) * bsize :=
        mul_le_mul_right _ (le_max_left ..)
      refine ⟨?_, ?_, ?_⟩
      · intro j lower upper
        by_cases early : j < off + m
        · rw [rest.old j (by omega) (.inl early), first.new j lower (by omega)]
          have within : j - off < m := by omega
          simp [getElem?_take_of_lt within]
        · rw [rest.new j (by omega) (by omega)]
          simp only [getD_eq_getElem?_getD, getElem?_drop]
          congr 2
          omega
      · intro j below outside
        rw [rest.old j (by omega) (by omega), first.old j below (by omega)]
      · intro other otherIp j different entry held
        obtain ⟨address, byte⟩ := first.others other otherIp j different entry held
        obtain ⟨address', byte'⟩ := rest.others other otherIp j different entry
          (by rw [address]; exact held)
        exact ⟨address'.trans address, byte'.trans byte⟩

end Growing

/-! ## `writei` -/

section Whole

variable {fs fs' : FileSystem} {inum : Nat} {ip ip' : Inode}

/-- What `writei` does on an inode in memory, with the table `base` it is written back to. -/
theorem writei_written (maps : Maps base inum fs ip (blocksFor ip.size))
    (notDevice : ip.type ≠ .dev) (ok : writei fs inum ip off src = .ok (some n, fs', ip')) :
    Written base inum fs ip (blocksFor ip.size) off src fs' ip' ∧
      ip'.size = (if src = [] then ip.size else max ip.size (off + src.length)) ∧
      ip'.type = ip.type := by
  unfold writei at ok
  rw [if_neg notDevice] at ok
  split at ok
  · cases ok
  · rename_i inFile
    split at ok
    · cases ok
    · have covered := le_blocksFor_mul ip.size
      obtain ⟨⟨looped, loopedIp⟩, loopOk, ok⟩ := of_bind_ok ok
      have written := writeLoop_bytes maps (by omega) (le_refl _) loopOk
      obtain ⟨grown, -, -⟩ := writeLoop_spec maps (by omega) (le_refl _) loopOk
      have size : loopedIp.size = ip.size := by rw [grown.inode]
      have type : loopedIp.type = ip.type := by rw [grown.inode]
      simp only at ok
      split at ok
      · rename_i grows
        cases ok
        refine ⟨⟨written.new, written.old, written.others⟩, ?_, type⟩
        rw [if_neg grows.1]
        simp only
        omega
      · rename_i keeps
        cases ok
        refine ⟨written, ?_, type⟩
        rw [size]
        split
        · rfl
        · rename_i nonempty
          simp only [not_and] at keeps
          have := keeps nonempty
          omega

/-- A call that is not refused writes everything. -/
theorem writei_count (notDevice : ip.type ≠ .dev)
    {count : Option Nat} (inside : off ≤ ip.size) (small : off + src.length < 2 ^ 32)
    (fits : off + src.length ≤ maxFile * bsize)
    (ok : writei fs inum ip off src = .ok (count, fs', ip')) : count = some src.length := by
  have accepted : ¬ (ip.size < off ∨ 2 ^ 32 ≤ off + src.length) := by omega
  rw [writei, if_neg notDevice, if_neg accepted, if_neg (Nat.not_lt.mpr fits)] at ok
  obtain ⟨⟨looped, loopedIp⟩, _, ok⟩ := of_bind_ok ok
  simp only at ok
  split at ok
  · simp only [Except.ok.injEq, Prod.mk.injEq] at ok
    exact ok.1.symm
  · simp only [Except.ok.injEq, Prod.mk.injEq] at ok
    exact ok.1.symm

/-- The bytes from `off` on replaced by `src`, with the list extended when `src` reaches
behind its end. -/
def overwrite (bytes : List UInt8) (off : Nat) (src : List UInt8) : List UInt8 :=
  bytes.take off ++ src ++ bytes.drop (off + src.length)

theorem length_overwrite (src : List UInt8) (inside : off ≤ bytes.length) :
    (overwrite bytes off src).length = max bytes.length (off + src.length) := by
  simp only [overwrite, length_append, length_take, length_drop]
  omega

theorem overwrite_at_end (bytes src : List UInt8) :
    overwrite bytes bytes.length src = bytes ++ src := by
  simp [overwrite]

/-- A write inside a file or at its end overwrites its contents. -/
theorem Written.overwrites (written : Written base inum fs ip (blocksFor ip.size) off src fs' ip')
    (size : ip'.size = if src = [] then ip.size else max ip.size (off + src.length))
    (inside : off ≤ ip.size) :
    contents fs'.blocks ip' = overwrite (contents fs.blocks ip) off src := by
  have covered := le_blocksFor_mul ip.size
  have length : ip'.size = max ip.size (off + src.length) := by
    split at size
    · rename_i none
      rw [none, length_nil]
      omega
    · exact size
  have room : off ≤ (contents fs.blocks ip).length := by
    rw [contents_length]
    exact inside
  apply ext_getElem
  · rw [contents_length, length_overwrite src room, contents_length, length]
  · intro j first second
    have bound : j < max ip.size (off + src.length) := by
      rw [← length]
      simpa using first
    have new : (contents fs'.blocks ip')[j] = byteAt fs'.blocks ip' j := by
      simp [contents]
    rw [new]
    simp only [overwrite]
    by_cases before : j < off
    · rw [getElem_append_left (by simp; omega), getElem_append_left (by simp; omega),
        getElem_take]
      simp only [contents, getElem_map, getElem_range]
      exact written.old j (by omega) (.inl before)
    · by_cases replaced : j < off + src.length
      · have position : j - off < src.length := by omega
        rw [getElem_append_left (by simp; omega), getElem_append_right (by simp; omega)]
        simp only [length_take, contents_length, min_eq_left inside]
        rw [written.new j (by omega) replaced, getD_eq_getElem?_getD,
          getElem?_eq_getElem position, Option.getD_some]
      · rw [getElem_append_right (by simp; omega), getElem_drop]
        simp only [contents, getElem_map, getElem_range, length_append,
          length_take, length_map, length_range, min_eq_left inside]
        have same : off + src.length + (j - (off + src.length)) = j := by omega
        rw [same]
        exact written.old j (by omega) (.inr (by omega))

/-- A write at the end of a file appends to its contents. -/
theorem Written.appends (written : Written base inum fs ip (blocksFor ip.size) off src fs' ip')
    (size : ip'.size = if src = [] then ip.size else max ip.size (off + src.length))
    (atEnd : off = ip.size) : contents fs'.blocks ip' = contents fs.blocks ip ++ src := by
  have overwritten := written.overwrites size (le_of_eq atEnd)
  rwa [atEnd, ← contents_length fs.blocks ip, overwrite_at_end] at overwritten

theorem Written.others_contents (written : Written base inum fs ip count off src fs' ip')
    (different : other ≠ inum) (otherEntry : base other = some otherIp)
    (otherExtent : Extent (addrOf fs.blocks base) other (blocksFor otherIp.size)) :
    contents fs'.blocks otherIp = contents fs.blocks otherIp := by
  apply map_congr_left
  intro j member
  have below := mem_range.mp member
  have covered := le_blocksFor_mul otherIp.size
  apply (written.others other otherIp j different otherEntry ?_).2
  exact ((extent_iff otherEntry _).mp otherExtent (j / bsize)).mp (div_lt_of_lt_mul (by omega))

end Whole

end Laboratorio.Xv6.Inodes
