import Laboratorio.Lib.Alloc
import Laboratorio.Xv6.Inode.Model

/-! # What `bmap` and the loops over it do to the block map

Every address that the inode table and its indirect blocks hold is a place in the
sense of `Lib.Tracks`; `addrOf` is the address at a place.  Each function has one
lemma that says what it does to `addrOf`, to the bitmap and to the extent of an inode
(the number of leading blocks it maps).

The inode that a call works on is in memory and may be ahead of the inode table, so
the lemmas are about the table with that inode written back.

* `bmap_spec` — `bmap` at or below the extent maps that block, and changes nothing
  below it.
* `readLoop_unchanged` — a read inside the extent changes nothing.
* `writeLoop_spec` — a write that starts inside the extent extends it as far as it
  writes.
-/

namespace Laboratorio.Xv6.Inodes

open Laboratorio.Lib Function Fin List

variable {b bn addr count off : Nat} {slot : Slot} {fs fs' middle : FileSystem} {ip ip' : Inode}
  {i : Fin (ndirect + 1)} {j : Fin nindirect}

/-! ## The places that hold addresses -/

/-- A place of an inode: an element of `addrs`, or a word of its indirect block. -/
inductive Slot
  | direct (i : Fin (ndirect + 1))
  | indirect (j : Fin nindirect)
  deriving DecidableEq

/-- The address at a place of an inode; 0 where it holds none. -/
def addrAt (blocks : Nat → Block) (ip : Inode) : Slot → Nat
  | .direct i => ip.addrs i
  | .indirect j =>
    let ind := ip.addrs (Fin.last ndirect)
    if ind = 0 then 0 else (Words.get (blocks ind) j).toNat

/-- The address at a place of the inode table. -/
def addrOf (blocks : Nat → Block) (table : Nat → Option Inode) : Nat × Slot → Nat
  | (inum, slot) =>
    match table inum with
    | some ip => addrAt blocks ip slot
    | none => 0

/-- The place of the block with index `bn`. -/
def slotOf (bn : Nat) : Option Slot :=
  if direct : bn < ndirect then some (.direct ⟨bn, Nat.lt_succ_of_lt direct⟩)
  else if indirect : bn - ndirect < nindirect then some (.indirect ⟨bn - ndirect, indirect⟩)
  else none

/-- The address that an inode maps a block index to; 0 when it maps none. -/
def blockAddr (blocks : Nat → Block) (ip : Inode) (bn : Nat) : Nat :=
  match slotOf bn with
  | some slot => addrAt blocks ip slot
  | none => 0

/-- `ceil(size / BSIZE)` -/
def blocksFor (size : Nat) : Nat :=
  (size + (bsize - 1)) / bsize

/-- The bitmap tracks the addresses of a table and some loose blocks. -/
abbrev Owns (fs : FileSystem) (table : Nat → Option Inode) (loose : List Nat) : Prop :=
  Tracks fs.sb.dataStart fs.sb.size fs.bitmap (addrOf fs.blocks table) loose

/-- The inode maps the blocks below `count` and no others. -/
def Extent (addr : Nat × Slot → Nat) (inum count : Nat) : Prop :=
  ∀ bn, bn < count ↔ ∃ slot, slotOf bn = some slot ∧ addr (inum, slot) ≠ 0

section Places

variable {blocks : Nat → Block} {table : Nat → Option Inode} {inum : Nat} {ip : Inode}

theorem addrOf_some (entry : table inum = some ip) (slot : Slot) :
    addrOf blocks table (inum, slot) = addrAt blocks ip slot := by
  simp [addrOf, entry]

theorem exists_place (nonzero : b ≠ 0) :
    (∃ place, addrOf blocks table place = b) ↔
      ∃ inum ip slot, table inum = some ip ∧ addrAt blocks ip slot = b := by
  constructor
  · intro ⟨⟨inum, slot⟩, holds⟩
    cases entry : table inum with
    | none => exact absurd (by simpa only [addrOf, entry] using holds.symm) nonzero
    | some ip => exact ⟨inum, ip, slot, entry, (addrOf_some entry slot).symm.trans holds⟩
  · intro ⟨inum, ip, slot, entry, holds⟩
    exact ⟨(inum, slot), (addrOf_some entry slot).trans holds⟩

theorem addrOf_direct (entry : table inum = some ip) (i : Fin (ndirect + 1)) :
    addrOf blocks table (inum, .direct i) = ip.addrs i :=
  addrOf_some entry _

theorem blockAddr_ne_zero (entry : table inum = some ip) (bn : Nat) :
    blockAddr blocks ip bn ≠ 0 ↔
      ∃ slot, slotOf bn = some slot ∧ addrOf blocks table (inum, slot) ≠ 0 := by
  unfold blockAddr
  cases slotOf bn with
  | none => simp
  | some slot => simp [addrOf_some entry]

theorem extent_iff (entry : table inum = some ip) (count : Nat) :
    Extent (addrOf blocks table) inum count ↔ ∀ bn, bn < count ↔ blockAddr blocks ip bn ≠ 0 := by
  simp [Extent, blockAddr_ne_zero entry]

theorem slotOf_injective {other : Nat} (first : slotOf bn = some slot)
    (second : slotOf other = some slot) : bn = other := by
  unfold slotOf at first second
  split at first
  · split at second
    · rw [← second] at first
      simpa using first
    · split at second
      · rw [← second] at first
        simp at first
      · cases second
  · split at first
    · split at second
      · rw [← second] at first
        simp at first
      · split at second
        · rw [← second] at first
          simp only [Option.some.injEq, Slot.indirect.injEq, mk.injEq] at first
          omega
        · cases second
    · cases first

/-- No block index has its address in the pointer to the indirect block. -/
theorem slotOf_ne_last (bn : Nat) : slotOf bn ≠ some (.direct (Fin.last ndirect)) := by
  intro equal
  unfold slotOf at equal
  split at equal
  · rename_i direct
    simp only [Option.some.injEq, Slot.direct.injEq] at equal
    have := congrArg val equal
    simp only [val_last] at this
    omega
  · split at equal <;> cases equal

/-- A block that is no indirect block can change its contents. -/
theorem addrOf_update_block
    (notIndirect : ∀ inum, addrOf blocks table (inum, .direct (Fin.last ndirect)) = b → b = 0)
    (block : Block) : addrOf (update blocks b block) table = addrOf blocks table := by
  funext ⟨inum, slot⟩
  simp only [addrOf]
  cases entry : table inum with
  | none => rfl
  | some ip =>
    cases slot with
    | direct i => rfl
    | indirect j =>
      simp only [addrAt]
      split
      · rfl
      · rename_i nonzero
        have different : ip.addrs (last ndirect) ≠ b := fun equal =>
          nonzero (equal.trans (notIndirect inum (by rw [addrOf_direct entry, equal])))
        rw [update_of_ne different]

/-- A new element of `addrs`; a new indirect block holds no addresses yet. -/
theorem addrOf_setAddr (entry : table inum = some ip) (empty : ip.addrs i = 0)
    (zeroed : i = Fin.last ndirect → ∀ j, j < nindirect → Words.get (blocks b) j = 0) :
    addrOf blocks (update table inum (some (ip.setAddr i b))) =
      update (addrOf blocks table) (inum, .direct i) b := by
  funext ⟨other, slot⟩
  by_cases same : other = inum
  · subst same
    rw [addrOf_some (update_self ..)]
    cases slot with
    | direct k =>
      by_cases sameIndex : k = i
      · subst sameIndex
        simp [addrAt, Inode.setAddr]
      · rw [update_of_ne (by simpa using sameIndex), addrOf_direct entry]
        simp [addrAt, Inode.setAddr, sameIndex]
    | indirect j =>
      rw [update_of_ne (by simp), addrOf_some entry]
      by_cases last : i = last ndirect
      · subst last
        simp [addrAt, Inode.setAddr, empty, zeroed rfl j j.isLt]
      · simp [addrAt, Inode.setAddr, update_of_ne (Ne.symm last)]
  · rw [update_of_ne (by simp [same])]
    simp [addrOf, update_of_ne same]

/-- A new word in the indirect block of an inode. -/
theorem addrOf_put (entry : table inum = some ip) {ind : Nat} {word : UInt32}
    (pointer : ip.addrs (Fin.last ndirect) = ind) (nonzero : ind ≠ 0)
    (alone : ∀ other, addrOf blocks table (other, .direct (Fin.last ndirect)) = ind → other = inum) :
    addrOf (update blocks ind (Words.put (blocks ind) j word)) table =
      update (addrOf blocks table) (inum, .indirect j) word.toNat := by
  funext ⟨other, slot⟩
  by_cases same : other = inum
  · subst same
    rw [addrOf_some entry]
    cases slot with
    | direct k => rw [update_of_ne (by simp), addrOf_direct entry]; rfl
    | indirect k =>
      simp only [addrAt, pointer, if_neg nonzero, update_self]
      by_cases sameIndex : k = j
      · subst sameIndex
        rw [update_self, Words.get_put_self _ _ k.isLt]
      · rw [update_of_ne (by simpa using sameIndex), addrOf_some entry,
          Words.get_put_of_ne _ _ (by simpa [Fin.ext_iff] using sameIndex)]
        simp [addrAt, pointer, if_neg nonzero]
  · rw [update_of_ne (by simp [same])]
    simp only [addrOf]
    cases otherEntry : table other with
    | none => rfl
    | some otherIp =>
      cases slot with
      | direct k => rfl
      | indirect k =>
        simp only [addrAt]
        split
        · rfl
        · have different : otherIp.addrs (last ndirect) ≠ ind := fun equal =>
            same (alone other (by rw [addrOf_direct otherEntry, equal]))
          rw [update_of_ne different]

theorem addrOf_update {entry : Option Inode}
    (same : ∀ slot, addrOf blocks (update table inum entry) (inum, slot) =
      addrOf blocks table (inum, slot)) :
    addrOf blocks (update table inum entry) = addrOf blocks table := by
  funext ⟨other, slot⟩
  by_cases here : other = inum
  · rw [here, same]
  · simp [addrOf, update_of_ne here]

theorem addrOf_congr {first second : Inode} (addrs : first.addrs = second.addrs) :
    addrOf blocks (update table inum (some first)) =
      addrOf blocks (update table inum (some second)) := by
  have twice : update (update table inum (some second)) inum (some first) =
      update table inum (some first) :=
    update_idem ..
  rw [← twice]
  refine addrOf_update fun slot => ?_
  rw [addrOf_some (update_self ..), addrOf_some (update_self ..)]
  cases slot with
  | direct i => simp [addrAt, addrs]
  | indirect j => simp [addrAt, addrs]

end Places

/-! ## `balloc` and `bmap` -/

/-- Peels one computation off a `do` block that succeeded. -/
theorem of_bind_ok {ε α β : Type} {x : Except ε α} {f : α → Except ε β} {result : β}
    (ok : (x >>= f) = .ok result) : ∃ value, x = .ok value ∧ f value = .ok result := by
  cases x with
  | error e => cases ok
  | ok value => exact ⟨value, rfl, ok⟩

/-- Only the bitmap and the blocks changed. -/
structure SameTables (fs fs' : FileSystem) : Prop where
  sb : fs'.sb = fs.sb
  dinodes : fs'.dinodes = fs.dinodes
  icache : fs'.icache = fs.icache

theorem SameTables.refl (fs : FileSystem) : SameTables fs fs := ⟨rfl, rfl, rfl⟩

theorem SameTables.trans (first : SameTables fs middle)
    (second : SameTables middle fs') : SameTables fs fs' :=
  ⟨second.sb.trans first.sb, second.dinodes.trans first.dinodes, second.icache.trans first.icache⟩

theorem SameTables.setBlock (same : SameTables fs fs') (b : Nat)
    (block : Block) : SameTables fs (fs'.setBlock b block) :=
  ⟨same.sb, same.dinodes, same.icache⟩

theorem balloc_spec {table : Nat → Option Inode} {loose : List Nat}
    (owns : Owns fs table loose) (ok : balloc fs = .ok (b, fs')) :
    SameTables fs fs' ∧ b ≠ 0 ∧ b < 2 ^ 32 ∧
      Tracks fs'.sb.dataStart fs'.sb.size fs'.bitmap (addrOf fs.blocks table) (b :: loose) ∧
      addrOf fs'.blocks table = addrOf fs.blocks table ∧
      fs'.blocks = update fs.blocks b (fun _ => 0) := by
  unfold balloc at ok
  split at ok
  · rename_i found search
    simp only [Except.ok.injEq, Prod.mk.injEq] at ok
    obtain ⟨rfl, rfl⟩ := ok
    have free : fs.bitmap found = false := by simpa using find?_some search
    have bound : found < fs.sb.size := mem_range.mp (mem_of_find?_eq_some search)
    obtain ⟨above, _, notHeld⟩ := owns.unused free bound
    have positive := owns.low_pos
    refine ⟨⟨rfl, rfl, rfl⟩, by omega, Nat.lt_trans bound fs.sb.size_lt, owns.take free bound,
      ?_, rfl⟩
    exact addrOf_update_block (fun inum holds => absurd holds (notHeld _)) _
  · cases ok

theorem get_zero (j : Nat) : Words.get (fun _ => 0 : Block) j = 0 := by
  simp [Words.get]

section Growing

variable {base : Nat → Option Inode} {inum : Nat}

/-- The file system may have handed out blocks to the inode: nothing else changed. -/
structure Grown (base : Nat → Option Inode) (inum : Nat) (fs : FileSystem) (ip : Inode)
    (fs' : FileSystem) (ip' : Inode) : Prop where
  tables : SameTables fs fs'
  inode : ip' = { ip with addrs := ip'.addrs }
  owns : Owns fs' (update base inum (some ip')) []
  others : ∀ other slot, other ≠ inum →
    addrOf fs'.blocks (update base inum (some ip')) (other, slot) =
      addrOf fs.blocks (update base inum (some ip)) (other, slot)

theorem Grown.refl
    (owns : Owns fs (update base inum (some ip)) []) : Grown base inum fs ip fs ip :=
  ⟨.refl fs, rfl, owns, fun _ _ _ => rfl⟩

theorem Grown.trans {middleIp : Inode} (first : Grown base inum fs ip middle middleIp)
    (second : Grown base inum middle middleIp fs' ip') : Grown base inum fs ip fs' ip' where
  tables := first.tables.trans second.tables
  inode := by rw [second.inode, first.inode]
  owns := second.owns
  others other slot different :=
    (second.others other slot different).trans (first.others other slot different)

/-- The inode in memory maps the blocks below `count` and no others. -/
structure Maps (base : Nat → Option Inode) (inum : Nat) (fs : FileSystem) (ip : Inode)
    (count : Nat) : Prop where
  owns : Owns fs (update base inum (some ip)) []
  extent : Extent (addrOf fs.blocks (update base inum (some ip))) inum count

/-- One place of the inode is filled, if it was empty. -/
structure Filled (base : Nat → Option Inode) (inum : Nat) (fs : FileSystem) (ip : Inode)
    (slot : Slot) (addr : Nat) (fs' : FileSystem) (ip' : Inode) : Prop where
  grown : Grown base inum fs ip fs' ip'
  nonzero : addr ≠ 0
  addrs : addrOf fs'.blocks (update base inum (some ip')) =
    update (addrOf fs.blocks (update base inum (some ip))) (inum, slot) addr
  unchanged : addrAt fs.blocks ip slot ≠ 0 → fs' = fs ∧ ip' = ip

theorem Filled.direct
    (filled : Filled base inum fs ip (.direct i) addr fs' ip') : ip'.addrs i = addr := by
  have := congrFun filled.addrs (inum, .direct i)
  rwa [addrOf_direct (update_self ..), update_self] at this

section

variable (owns : Owns fs (update base inum (some ip)) [])
include owns

theorem Filled.of_nonzero (nonzero : addrAt fs.blocks ip slot ≠ 0) :
    Filled base inum fs ip slot (addrAt fs.blocks ip slot) fs ip where
  grown := .refl owns
  nonzero := nonzero
  addrs := by
    rw [eq_comm, update_eq_self_iff, addrOf_some (update_self ..)]
  unchanged _ := ⟨rfl, rfl⟩

theorem ensureAddr_spec (ok : ensureAddr fs ip i = .ok (addr, fs', ip')) :
    Filled base inum fs ip (.direct i) addr fs' ip' := by
  unfold ensureAddr at ok
  split at ok
  · rename_i empty
    obtain ⟨⟨b, allocated⟩, alloc, ok⟩ := of_bind_ok ok
    simp only [Except.ok.injEq, Prod.mk.injEq] at ok
    obtain ⟨rfl, rfl, rfl⟩ := ok
    obtain ⟨tables, nonzero, _, taken, sameAddr, zeroed⟩ := balloc_spec owns alloc
    have entry : update base inum (some ip) inum = some ip := update_self ..
    have stored : addrOf allocated.blocks (update base inum (some (ip.setAddr i b))) =
        update (addrOf fs.blocks (update base inum (some ip)))
          (inum, .direct i) b := by
      rw [← sameAddr, ← addrOf_setAddr entry empty, update_idem]
      intro _ j _
      rw [zeroed, update_self]
      exact get_zero j
    refine ⟨⟨tables, rfl, ?_, ?_⟩, nonzero, stored, fun holds => absurd empty holds⟩
    · show Tracks _ _ _ _ _
      rw [stored]
      exact taken.store (by rw [addrOf_direct entry, empty])
    · intro other slot different
      rw [stored, update_of_ne (by simp [different])]
  · rename_i holds
    cases ok
    exact .of_nonzero owns holds

theorem ensureWord_spec {ind : Nat} (pointer : ip.addrs (Fin.last ndirect) = ind)
    (nonzero : ind ≠ 0) (ok : ensureWord fs ind j = .ok (addr, fs')) :
    Filled base inum fs ip (.indirect j) addr fs' ip := by
  have entry : update base inum (some ip) inum = some ip := update_self ..
  have word : addrAt fs.blocks ip (.indirect j) = (Words.get (fs.blocks ind) j).toNat := by
    simp [addrAt, pointer, if_neg nonzero]
  unfold ensureWord at ok
  simp only at ok
  split at ok
  · rename_i empty
    obtain ⟨⟨b, allocated⟩, alloc, ok⟩ := of_bind_ok ok
    cases ok
    obtain ⟨tables, fresh, small, taken, sameAddr, zeroed⟩ := balloc_spec owns alloc
    have holder : addrOf fs.blocks (update base inum (some ip))
        (inum, .direct (last ndirect)) = ind := by
      rw [addrOf_direct entry, pointer]
    -- the new block is not the indirect block, which therefore kept its contents
    have different : ind ≠ b := fun equal =>
      taken.loose_free b mem_cons_self _ (holder.trans equal)
    have kept : allocated.blocks ind = fs.blocks ind := by
      rw [zeroed, update_of_ne different]
    have alone : ∀ other, addrOf allocated.blocks (update base inum (some ip))
        (other, .direct (last ndirect)) = ind → other = inum := by
      rw [sameAddr]
      intro other holds
      have equal := taken.distinct (other, .direct (last ndirect))
        (inum, .direct (last ndirect)) (by rw [holds]; exact nonzero) (holds.trans holder.symm)
      simpa using equal
    have stored : addrOf (update allocated.blocks ind
          (Words.put (fs.blocks ind) j (UInt32.ofNat b))) (update base inum (some ip)) =
        update (addrOf fs.blocks (update base inum (some ip)))
          (inum, .indirect j) b := by
      rw [← kept, addrOf_put entry pointer nonzero alone, sameAddr,
        UInt32.toNat_ofNat_of_lt' small]
    have vacant : addrAt fs.blocks ip (.indirect j) = 0 := by rw [word, empty]; rfl
    refine ⟨⟨tables.setBlock .., rfl, ?_, ?_⟩, fresh, stored, fun holds => absurd vacant holds⟩
    · show Tracks _ _ _ (addrOf (update allocated.blocks ind _) _) _
      rw [stored]
      exact taken.store (by rw [addrOf_some entry, vacant])
    · intro other slot otherInode
      show addrOf (update allocated.blocks ind _) _ _ = _
      rw [stored, update_of_ne (by simp [otherInode])]
  · rename_i holds
    cases ok
    rw [← word]
    refine .of_nonzero owns ?_
    rw [word]
    exact fun zero => holds (UInt32.toNat_inj.mp zero)

end

/-- What `bmap` does for a block index. -/
structure BlockMapped (base : Nat → Option Inode) (inum : Nat) (fs : FileSystem) (ip : Inode)
    (bn addr : Nat) (fs' : FileSystem) (ip' : Inode) : Prop where
  grown : Grown base inum fs ip fs' ip'
  nonzero : addr ≠ 0
  at_slot : ∃ slot, slotOf bn = some slot ∧
    addrOf fs'.blocks (update base inum (some ip')) (inum, slot) = addr ∧
    (addrAt fs.blocks ip slot ≠ 0 → fs' = fs ∧ ip' = ip)
  elsewhere : ∀ other slot, other ≠ bn → slotOf other = some slot →
    addrOf fs'.blocks (update base inum (some ip')) (inum, slot) =
      addrOf fs.blocks (update base inum (some ip)) (inum, slot)

theorem bmap_mapped (owns : Owns fs (update base inum (some ip)) [])
    (ok : bmap fs ip bn = .ok (addr, fs', ip')) : BlockMapped base inum fs ip bn addr fs' ip' := by
  unfold bmap at ok
  split at ok
  · rename_i direct
    have filled := ensureAddr_spec owns ok
    have slot : slotOf bn = some (.direct ⟨bn, by omega⟩) := dif_pos direct
    refine ⟨filled.grown, filled.nonzero, ⟨_, slot, ?_, filled.unchanged⟩, ?_⟩
    · rw [filled.addrs, update_self]
    · intro other otherSlot different found
      have otherPlace : otherSlot ≠ .direct ⟨bn, by omega⟩ := fun equal =>
        different (slotOf_injective found (equal ▸ slot))
      rw [filled.addrs, update_of_ne (by simpa using otherPlace)]
  · rename_i notDirect
    split at ok
    · rename_i indirect
      obtain ⟨⟨ind, middle, middleIp⟩, pointerOk, ok⟩ := of_bind_ok ok
      obtain ⟨⟨found, final⟩, wordOk, ok⟩ := of_bind_ok ok
      obtain ⟨rfl, rfl, rfl⟩ := ok
      have pointer := ensureAddr_spec owns pointerOk
      have word := ensureWord_spec (j := ⟨bn - ndirect, indirect⟩) pointer.grown.owns
        pointer.direct pointer.nonzero wordOk
      have slot : slotOf bn = some (.indirect ⟨bn - ndirect, indirect⟩) := by
        rw [slotOf, dif_neg notDirect, dif_pos indirect]
      refine ⟨pointer.grown.trans word.grown, word.nonzero, ⟨_, slot, ?_, ?_⟩, ?_⟩
      · rw [word.addrs, update_self]
      · intro mapped
        -- a mapped block of the indirect range has its indirect block
        have pointerNonzero : addrAt fs.blocks ip (.direct (last ndirect)) ≠ 0 := by
          intro zero
          simp only [addrAt] at zero mapped
          rw [if_pos zero] at mapped
          exact mapped rfl
        obtain ⟨rfl, rfl⟩ := pointer.unchanged pointerNonzero
        exact word.unchanged mapped
      · intro other otherSlot different found
        have otherPlace : otherSlot ≠ .indirect ⟨bn - ndirect, indirect⟩ := fun equal =>
          different (slotOf_injective found (equal ▸ slot))
        have notPointer : otherSlot ≠ .direct (last ndirect) := fun equal =>
          slotOf_ne_last other (equal ▸ found)
        rw [word.addrs, update_of_ne (by simpa using otherPlace), pointer.addrs,
          update_of_ne (by simpa using notPointer)]
    · cases ok

theorem bmap_spec (maps : Maps base inum fs ip count)
    (within : bn ≤ count) (ok : bmap fs ip bn = .ok (addr, fs', ip')) :
    Grown base inum fs ip fs' ip' ∧ Maps base inum fs' ip' (max count (bn + 1)) ∧
      (∃ slot, slotOf bn = some slot ∧
        addrOf fs'.blocks (update base inum (some ip')) (inum, slot) = addr) ∧
      addr ≠ 0 ∧ (bn < count → fs' = fs ∧ ip' = ip) := by
  have mapped := bmap_mapped maps.owns ok
  obtain ⟨slot, place, holds, unchanged⟩ := mapped.at_slot
  refine ⟨mapped.grown, ⟨mapped.grown.owns, ?_⟩, ⟨slot, place, holds⟩, mapped.nonzero, ?_⟩
  · intro other
    by_cases same : other = bn
    · subst same
      refine ⟨fun _ => ⟨slot, place, holds ▸ mapped.nonzero⟩, fun _ => by omega⟩
    · have below : other < max count (bn + 1) ↔ other < count := by omega
      rw [below, maps.extent other]
      constructor
      · rintro ⟨otherSlot, found, nonzero⟩
        exact ⟨otherSlot, found, (mapped.elsewhere other otherSlot same found).symm ▸ nonzero⟩
      · rintro ⟨otherSlot, found, nonzero⟩
        exact ⟨otherSlot, found, mapped.elsewhere other otherSlot same found ▸ nonzero⟩
  · intro below
    obtain ⟨mappedSlot, found, nonzero⟩ := (maps.extent bn).mp below
    obtain rfl : mappedSlot = slot := Option.some.inj (found.symm.trans place)
    rw [addrOf_some (update_self ..)] at nonzero
    exact unchanged nonzero

/-! ## The loops of `readi` and `writei` -/

theorem div_le_of_le_mul (within : off ≤ count * bsize) : off / bsize ≤ count :=
  Nat.div_le_of_le_mul (by rw [Nat.mul_comm]; exact within)

theorem div_lt_of_lt_mul (within : off < count * bsize) : off / bsize < count :=
  Nat.div_lt_of_lt_mul (by rw [Nat.mul_comm]; exact within)

theorem le_blocksFor_mul (size : Nat) : size ≤ blocksFor size * bsize := by
  simp only [blocksFor, bsize, nindirect]
  omega

theorem blocksFor_mono {small large : Nat} (le : small ≤ large) : blocksFor small ≤ blocksFor large :=
  Nat.div_le_div_right (by omega)

theorem blocksFor_le {size : Nat} (within : size ≤ count * bsize) : blocksFor size ≤ count := by
  simp only [blocksFor, bsize, nindirect] at within ⊢
  omega

/-- A read inside the extent finds all its blocks. -/
theorem readLoop_unchanged {fuel n : Nat} {bytes : List UInt8} (maps : Maps base inum fs ip count)
    (within : off + n ≤ count * bsize)
    (ok : readLoop fuel fs ip off n = .ok (bytes, fs', ip')) : fs' = fs ∧ ip' = ip := by
  induction fuel generalizing off n bytes fs' ip' with
  | zero =>
    simp only [readLoop, Except.ok.injEq, Prod.mk.injEq] at ok
    exact ⟨ok.2.1.symm, ok.2.2.symm⟩
  | succ fuel ih =>
    unfold readLoop at ok
    split at ok
    · simp only [Except.ok.injEq, Prod.mk.injEq] at ok
      exact ⟨ok.2.1.symm, ok.2.2.symm⟩
    · rename_i some
      obtain ⟨⟨addr, mapped, mappedIp⟩, mapOk, ok⟩ := of_bind_ok ok
      obtain ⟨⟨rest, final, finalIp⟩, loopOk, ok⟩ := of_bind_ok ok
      cases ok
      have inside : off / bsize < count := div_lt_of_lt_mul (by omega)
      obtain ⟨rfl, rfl⟩ := (bmap_spec maps (Nat.le_of_lt inside) mapOk).2.2.2.2 inside
      exact ih (by omega) loopOk

/-- The data of a mapped block is not an indirect block's. -/
theorem addrOf_setData (owns : Owns fs (update base inum (some ip)) [])
    (place : slotOf bn = some slot)
    (holds : addrOf fs.blocks (update base inum (some ip)) (inum, slot) = addr)
    (nonzero : addr ≠ 0) (block : Block) :
    addrOf (fs.setBlock addr block).blocks (update base inum (some ip)) =
      addrOf fs.blocks (update base inum (some ip)) := by
  refine addrOf_update_block (fun other pointer => ?_) block
  have equal := owns.distinct (inum, slot) (other, .direct (last ndirect))
    (holds ▸ nonzero) (holds.trans pointer.symm)
  simp only [Prod.mk.injEq] at equal
  exact absurd (equal.2 ▸ place) (slotOf_ne_last bn)

theorem Maps.round (maps : Maps base inum fs ip count) (within : bn ≤ count)
    (ok : bmap fs ip bn = .ok (addr, fs', ip')) (block : Block) :
    Grown base inum fs ip (fs'.setBlock addr block) ip' ∧
      Maps base inum (fs'.setBlock addr block) ip' (max count (bn + 1)) := by
  obtain ⟨grown, next, ⟨slot, place, holds⟩, nonzero, -⟩ := bmap_spec maps within ok
  have sameAddr := addrOf_setData grown.owns place holds nonzero block
  -- the write keeps every address, so the invariant carries over
  have owns : Owns (fs'.setBlock addr block) (update base inum (some ip')) [] := by
    show Tracks _ _ _ _ _
    rw [sameAddr]
    exact grown.owns
  refine ⟨⟨grown.tables.setBlock .., grown.inode, owns, ?_⟩, owns, ?_⟩
  · rw [sameAddr]
    exact grown.others
  · rw [sameAddr]
    exact next.extent

theorem round_reach (count : Nat) {m : Nat} (small : m ≤ bsize - off % bsize) :
    off + m ≤ max count (off / bsize + 1) * bsize := by
  have bound : (off / bsize + 1) * bsize ≤ max count (off / bsize + 1) * bsize :=
    Nat.mul_le_mul_right _ (Nat.le_max_right ..)
  simp only [bsize, nindirect] at bound small ⊢
  omega

theorem writeLoop_spec {fuel : Nat} {src : List UInt8} (maps : Maps base inum fs ip count)
    (within : off ≤ count * bsize) (enough : src.length ≤ fuel)
    (ok : writeLoop fuel fs ip off src = .ok (fs', ip')) :
    Grown base inum fs ip fs' ip' ∧
      Maps base inum fs' ip' (max count (blocksFor (off + src.length))) ∧
      (off + src.length ≤ count * bsize → ip' = ip) := by
  induction fuel generalizing off src fs ip count with
  | zero =>
    cases ok
    have none : src.length = 0 := by omega
    refine ⟨.refl maps.owns, ?_, fun _ => rfl⟩
    rw [none, Nat.add_zero, Nat.max_eq_left (blocksFor_le within)]
    exact maps
  | succ fuel ih =>
    unfold writeLoop at ok
    split at ok
    · rename_i none
      cases ok
      refine ⟨.refl maps.owns, ?_, fun _ => rfl⟩
      rw [none, List.length_nil, Nat.add_zero, Nat.max_eq_left (blocksFor_le within)]
      exact maps
    · rename_i nonempty
      obtain ⟨⟨addr, mapped, mappedIp⟩, mapOk, ok⟩ := of_bind_ok ok
      have positive : 0 < src.length := List.length_pos_iff.mpr nonempty
      have room : 0 < bsize - off % bsize := Nat.sub_pos_of_lt (Nat.mod_lt off (by decide))
      generalize length : min src.length (bsize - off % bsize) = m at ok
      have dropped : (src.drop m).length = src.length - m := List.length_drop ..
      obtain ⟨grown, next⟩ := maps.round (div_le_of_le_mul within) mapOk
        (patch (mapped.blocks addr) (off % bsize) (src.take m))
      obtain ⟨restGrown, restMaps, restUnchanged⟩ :=
        ih next (round_reach count (by omega)) (by omega) ok
      have total : off + m + (src.drop m).length = off + src.length := by omega
      rw [total] at restMaps restUnchanged
      refine ⟨grown.trans restGrown, ?_, ?_⟩
      · have reached : off / bsize + 1 ≤ blocksFor (off + src.length) := by
          simp only [blocksFor, bsize, nindirect]
          omega
        rwa [Nat.max_assoc, Nat.max_eq_right reached] at restMaps
      · intro inside
        have below : off / bsize < count := div_lt_of_lt_mul (by omega)
        obtain ⟨rfl, rfl⟩ := (bmap_spec maps (Nat.le_of_lt below) mapOk).2.2.2.2 below
        exact restUnchanged (Nat.le_trans inside (Nat.mul_le_mul_right _ (Nat.le_max_left ..)))

end Growing

end Laboratorio.Xv6.Inodes
