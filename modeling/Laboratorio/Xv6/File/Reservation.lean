import Laboratorio.Xv6.File.Model
import Laboratorio.Xv6.Inode.Contents
import Mathlib.Data.Finset.Card

/-! # The blocks that one chunk of `filewrite` logs

Between `begin_op` and `end_op` a chunk logs the data blocks it touches, one bitmap block for
every block it allocates, the indirect block, and the inode's block.  The functions with `Log`
in their name list what their namesakes pass to `log_write`, in order, up to a panic.

The bound rests on three things: a chunk touches at most four blocks, the first of four is
mapped when the file has no holes, and the indirect block is allocated at most once.
-/

namespace Laboratorio.Xv6.Inodes

open Laboratorio.Lib Function Fin List Nat

variable {fs fs' : FileSystem} {ip ip' : Inode} {addr bn off : Nat} {src : List UInt8}
  {i : Fin (ndirect + 1)} {logged : List Nat}

/-! ## What is logged -/

/-- `bmapstart` and `inodestart` of the superblock. -/
structure Layout where
  bmapstart : Nat
  inodestart : Nat

/-- `BBLOCK`; a bitmap block has `BPB` bits. -/
def Layout.bblock (disk : Layout) (b : Nat) : Nat :=
  b / (bsize * 8) + disk.bmapstart

/-- `IBLOCK`; a block has `IPB` inodes of 64 bytes. -/
def Layout.iblock (disk : Layout) (inum : Nat) : Nat :=
  inum / (bsize / 64) + disk.inodestart

section Logs

variable (disk : Layout)

/-- The block of the bit, and the block that `bzero` clears. -/
def ballocLog (fs : FileSystem) : List Nat :=
  match balloc fs with
  | .ok (b, _) => [disk.bblock b, b]
  | .error _ => []

def ensureAddrLog (fs : FileSystem) (ip : Inode) (i : Fin (ndirect + 1)) : List Nat :=
  if ip.addrs i = 0 then ballocLog disk fs else []

def ensureWordLog (fs : FileSystem) (ind j : Nat) : List Nat :=
  if Words.get (fs.blocks ind) j = 0 then
    match balloc fs with
    | .ok (b, _) => [disk.bblock b, b, ind]
    | .error _ => []
  else []

def bmapLog (fs : FileSystem) (ip : Inode) (bn : Nat) : List Nat :=
  if direct : bn < ndirect then ensureAddrLog disk fs ip ⟨bn, Nat.lt_succ_of_lt direct⟩
  else if bn - ndirect < nindirect then
    ensureAddrLog disk fs ip (Fin.last ndirect) ++
      match ensureAddr fs ip (Fin.last ndirect) with
      | .ok (ind, fs, _) => ensureWordLog disk fs ind (bn - ndirect)
      | .error _ => []
  else []

def writeLoopLog : Nat → FileSystem → Inode → Nat → List UInt8 → List Nat
  | 0, _, _, _, _ => []
  | fuel + 1, fs, ip, off, src =>
    if src = [] then []
    else
      bmapLog disk fs ip (off / bsize) ++
        match bmap fs ip (off / bsize) with
        | .ok (addr, fs, ip) =>
          let m := min src.length (bsize - off % bsize)
          let fs := fs.setBlock addr (patch (fs.blocks addr) (off % bsize) (src.take m))
          addr :: writeLoopLog fuel fs ip (off + m) (src.drop m)
        | .error _ => []

def writeiLog (fs : FileSystem) (inum : Nat) (ip : Inode) (off : Nat) (src : List UInt8) :
    List Nat :=
  if ip.type = .dev then []
  else if ip.size < off ∨ 2 ^ 32 ≤ off + src.length then []
  else if maxFile * bsize < off + src.length then []
  else
    writeLoopLog disk src.length fs ip off src ++
      match writeLoop src.length fs ip off src with
      | .ok (_, ip) => if src ≠ [] ∧ ip.size < off + src.length then [disk.iblock inum] else []
      | .error _ => []

end Logs

/-! ## What a round adds -/

/-- 1 while the inode has no indirect block: allocating it costs a bitmap block. -/
def pointerless (ip : Inode) : Nat :=
  if ip.addrs (Fin.last ndirect) = 0 then 1 else 0

/-- All blocks but the indirect one are among a few.  The indirect block is the one that the
inode has, if it has one. -/
def Few (ip : Inode) (logged : List Nat) (few : Nat) : Prop :=
  ∃ (ind : Nat) (others : List Nat),
    (ip.addrs (Fin.last ndirect) ≠ 0 → ind = ip.addrs (Fin.last ndirect)) ∧
    (∀ b ∈ logged, b = ind ∨ b ∈ others) ∧ others.length ≤ few + pointerless ip

theorem Few.nil (ip : Inode) (few : Nat) : Few ip [] few :=
  ⟨ip.addrs (last ndirect), [], fun _ => rfl, fun _ member => absurd member not_mem_nil,
    zero_le _⟩

/-- Besides its result and the indirect block `bmap` logs one bitmap block, and another one when
it allocates the indirect block. -/
structure Costs (fs : FileSystem) (ip : Inode) (addr : Nat) (fs' : FileSystem) (ip' : Inode)
    (logged : List Nat) : Prop where
  boot : fs'.bitmap 0 = true
  kept : ip.addrs (Fin.last ndirect) ≠ 0 →
    ip'.addrs (Fin.last ndirect) = ip.addrs (Fin.last ndirect)
  logs : ∃ others : List Nat, others.length + pointerless ip' ≤ 1 + pointerless ip ∧
    ∀ b ∈ logged, b = addr ∨ b ∈ others ∨
      ip'.addrs (Fin.last ndirect) ≠ 0 ∧ b = ip'.addrs (Fin.last ndirect)

theorem Few.round {rest : List Nat} {few : Nat} (costs : Costs fs ip addr fs' ip' logged)
    (later : Few ip' rest few) : Few ip (logged ++ addr :: rest) (2 + few) := by
  obtain ⟨others, paid, logs⟩ := costs.logs
  obtain ⟨ind, more, same, covered, bound⟩ := later
  refine ⟨ind, addr :: (others ++ more), ?_, ?_, ?_⟩
  · intro pointer
    have kept := costs.kept pointer
    rw [same (kept ▸ pointer), kept]
  · intro b member
    rw [mem_cons, mem_append]
    obtain first | rfl | second := by simpa only [mem_append, mem_cons] using member
    · obtain rfl | other | ⟨pointer, rfl⟩ := logs b first
      · exact .inr (.inl rfl)
      · exact .inr (.inr (.inl other))
      · exact .inl (same pointer).symm
    · exact .inr (.inl rfl)
    · exact (covered b second).imp id fun other => .inr (.inr other)
  · simp only [length_cons, length_append]
    omega

/-! ## What is not logged stays as it is -/

theorem ensureAddr_cases (ok : ensureAddr fs ip i = .ok (addr, fs', ip')) :
    ip.addrs i ≠ 0 ∧ addr = ip.addrs i ∧ fs' = fs ∧ ip' = ip ∨
      ip.addrs i = 0 ∧ balloc fs = .ok (addr, fs') ∧ ip' = ip.setAddr i addr := by
  unfold ensureAddr at ok
  split at ok
  case isTrue zero =>
    obtain ⟨⟨b, mid⟩, allocated, rest⟩ := of_bind_ok ok
    cases rest
    exact .inr ⟨zero, allocated, rfl⟩
  case isFalse nonzero =>
    cases ok
    exact .inl ⟨nonzero, rfl, rfl, rfl⟩

/-- The two file systems differ only in blocks that are logged. -/
structure Outside (disk : Layout) (logged : List Nat) (fs fs' : FileSystem) : Prop where
  blocks : ∀ b, b ∉ logged → fs'.blocks b = fs.blocks b
  bitmap : ∀ b, disk.bblock b ∉ logged → fs'.bitmap b = fs.bitmap b
  dinodes : ∀ inum, disk.iblock inum ∉ logged → fs'.dinodes inum = fs.dinodes inum

section Outside

variable {disk : Layout}

theorem Outside.refl (logged : List Nat) : Outside disk logged fs fs :=
  ⟨fun _ _ => rfl, fun _ _ => rfl, fun _ _ => rfl⟩

theorem Outside.trans {first second : List Nat} {mid : FileSystem}
    (one : Outside disk first fs mid) (two : Outside disk second mid fs') :
    Outside disk (first ++ second) fs fs' := by
  refine ⟨fun b away => ?_, fun b away => ?_, fun inum away => ?_⟩ <;>
    rw [mem_append, not_or] at away
  · rw [two.blocks b away.2, one.blocks b away.1]
  · rw [two.bitmap b away.2, one.bitmap b away.1]
  · rw [two.dinodes inum away.2, one.dinodes inum away.1]

theorem outside_setBlock (b : Nat) (block : Block) : Outside disk [b] fs (fs.setBlock b block) :=
  ⟨fun _ away => update_of_ne (ne_of_not_mem_cons away) .., fun _ _ => rfl, fun _ _ => rfl⟩

theorem balloc_outside {b : Nat} (ok : balloc fs = .ok (b, fs')) :
    Outside disk [disk.bblock b, b] fs fs' := by
  unfold balloc at ok
  split at ok
  case h_1 =>
    cases ok
    have marked : Outside disk [disk.bblock b] fs { fs with bitmap := update fs.bitmap b true } := by
      refine ⟨fun _ _ => rfl, fun other away => update_of_ne ?_ .., fun _ _ => rfl⟩
      rintro rfl
      exact away (mem_singleton_self _)
    exact marked.trans (outside_setBlock b _)
  case h_2 => cases ok

theorem ensureAddr_outside (ok : ensureAddr fs ip i = .ok (addr, fs', ip')) :
    Outside disk (ensureAddrLog disk fs ip i) fs fs' := by
  obtain ⟨nonzero, rfl, rfl, rfl⟩ | ⟨zero, allocated, rfl⟩ := ensureAddr_cases ok
  · exact .refl _
  · rw [ensureAddrLog, if_pos zero, ballocLog, allocated]
    exact balloc_outside allocated

theorem ensureWord_outside {ind j : Nat} (ok : ensureWord fs ind j = .ok (addr, fs')) :
    Outside disk (ensureWordLog disk fs ind j) fs fs' := by
  simp only [ensureWord] at ok
  split at ok
  case isTrue zero =>
    obtain ⟨⟨word, mid⟩, allocated, rest⟩ := of_bind_ok ok
    cases rest
    rw [ensureWordLog, if_pos zero, allocated]
    exact (balloc_outside allocated).trans (outside_setBlock ind _)
  case isFalse =>
    cases ok
    exact .refl _

theorem bmap_outside (ok : bmap fs ip bn = .ok (addr, fs', ip')) :
    Outside disk (bmapLog disk fs ip bn) fs fs' := by
  unfold bmap at ok
  unfold bmapLog
  split at ok
  case isTrue direct =>
    rw [dif_pos direct]
    exact ensureAddr_outside ok
  case isFalse notDirect =>
    rw [dif_neg notDirect]
    split at ok
    case isTrue indirect =>
      obtain ⟨⟨ind, mid, midIp⟩, pointed, rest⟩ := of_bind_ok ok
      obtain ⟨⟨word, last⟩, ensured, rest⟩ := of_bind_ok rest
      cases rest
      rw [if_pos indirect, pointed]
      exact (ensureAddr_outside pointed).trans (ensureWord_outside ensured)
    case isFalse => cases ok

theorem writeLoop_outside {fuel : Nat} (ok : writeLoop fuel fs ip off src = .ok (fs', ip')) :
    Outside disk (writeLoopLog disk fuel fs ip off src) fs fs' := by
  induction fuel generalizing fs ip off src with
  | zero =>
    cases ok
    exact .refl _
  | succ fuel ih =>
    rw [writeLoop] at ok
    rw [writeLoopLog]
    split at ok
    case isTrue =>
      cases ok
      exact .refl _
    case isFalse nonempty =>
      obtain ⟨⟨addr, mid, midIp⟩, mapped, rest⟩ := of_bind_ok ok
      rw [if_neg nonempty, mapped]
      exact (bmap_outside mapped).trans ((outside_setBlock addr _).trans (ih rest))

/-- `writei` leaves every block alone that it does not log. -/
theorem writei_outside {inum : Nat} {count : Option Nat}
    (ok : writei fs inum ip off src = .ok (count, fs', ip')) :
    Outside disk (writeiLog disk fs inum ip off src) fs fs' := by
  unfold writei at ok
  unfold writeiLog
  split at ok
  case isTrue =>
    cases ok
    exact .refl _
  case isFalse notDevice =>
    rw [if_neg notDevice]
    split at ok
    case isTrue =>
      cases ok
      exact .refl _
    case isFalse accepted =>
      rw [if_neg accepted]
      split at ok
      case isTrue =>
        cases ok
        exact .refl _
      case isFalse fits =>
        rw [if_neg fits]
        obtain ⟨⟨mid, midIp⟩, looped, rest⟩ := of_bind_ok ok
        rw [looped]
        refine (writeLoop_outside looped).trans ?_
        dsimp only at rest ⊢
        split at rest
        case isTrue grows =>
          cases rest
          rw [if_pos grows]
          refine ⟨fun _ _ => rfl, fun _ _ => rfl, fun other away => update_of_ne ?_ ..⟩
          rintro rfl
          exact away (mem_singleton_self _)
        case isFalse =>
          cases rest
          exact .refl _

end Outside

/-! ## `bmap` -/

theorem balloc_boot {b : Nat} (boot : fs.bitmap 0 = true) (ok : balloc fs = .ok (b, fs')) :
    b ≠ 0 ∧ fs'.bitmap 0 = true := by
  unfold balloc at ok
  split at ok
  case h_1 found search =>
    cases ok
    have free : fs.bitmap b = false := by simpa using find?_some search
    have nonzero : b ≠ 0 := by
      rintro rfl
      rw [boot] at free
      cases free
    exact ⟨nonzero, (update_of_ne (Ne.symm nonzero) ..).trans boot⟩
  case h_2 => cases ok

theorem ensureAddr_panics (disk : Layout) {reason : Panic}
    (panics : ensureAddr fs ip i = .error reason) : ensureAddrLog disk fs ip i = [] := by
  unfold ensureAddr at panics
  unfold ensureAddrLog ballocLog
  split
  case isTrue zero =>
    rw [if_pos zero] at panics
    cases allocated : balloc fs with
    | error reason => rfl
    | ok result =>
      rw [allocated] at panics
      cases panics
  case isFalse => rfl

theorem ensureWord_costs (disk : Layout) {ind j : Nat} (boot : fs.bitmap 0 = true)
    (ok : ensureWord fs ind j = .ok (addr, fs')) :
    fs'.bitmap 0 = true ∧ ∃ bitmap, ∀ b ∈ ensureWordLog disk fs ind j,
      b = addr ∨ b = bitmap ∨ b = ind := by
  simp only [ensureWord] at ok
  unfold ensureWordLog
  split at ok
  case isTrue zero =>
    obtain ⟨⟨word, mid⟩, allocated, rest⟩ := of_bind_ok ok
    cases rest
    refine ⟨(balloc_boot boot allocated).2, disk.bblock word, fun b member => ?_⟩
    rw [if_pos zero, allocated] at member
    obtain rfl | rfl | rfl : b = disk.bblock word ∨ b = word ∨ b = ind := by simpa using member
    · exact .inr (.inl rfl)
    · exact .inl rfl
    · exact .inr (.inr rfl)
  case isFalse nonzero =>
    cases ok
    rw [if_neg nonzero]
    exact ⟨boot, 0, fun b member => absurd member not_mem_nil⟩

theorem bmap_costs (disk : Layout) (boot : fs.bitmap 0 = true)
    (ok : bmap fs ip bn = .ok (addr, fs', ip')) :
    Costs fs ip addr fs' ip' (bmapLog disk fs ip bn) := by
  unfold bmap at ok
  unfold bmapLog
  split at ok
  case isTrue direct =>
    rw [dif_pos direct]
    obtain ⟨nonzero, rfl, rfl, rfl⟩ | ⟨zero, allocated, rfl⟩ := ensureAddr_cases ok
    · rw [ensureAddrLog, if_neg nonzero]
      exact ⟨boot, fun _ => rfl, [], by simp, by simp⟩
    · have last : (ip.setAddr ⟨bn, by omega⟩ addr).addrs (last ndirect) =
          ip.addrs (last ndirect) :=
        update_of_ne (Fin.ne_of_gt direct) ..
      rw [ensureAddrLog, if_pos zero, ballocLog, allocated]
      refine ⟨(balloc_boot boot allocated).2, fun _ => last, [disk.bblock addr], ?_, by simp⟩
      rw [pointerless, last, pointerless]
      simp
  case isFalse notDirect =>
    rw [dif_neg notDirect]
    split at ok
    case isTrue indirect =>
      obtain ⟨⟨ind, mid, midIp⟩, pointed, rest⟩ := of_bind_ok ok
      obtain ⟨⟨word, last⟩, ensured, rest⟩ := of_bind_ok rest
      cases rest
      rw [if_pos indirect, pointed]
      obtain ⟨nonzero, rfl, rfl, rfl⟩ | ⟨zero, allocated, rfl⟩ := ensureAddr_cases pointed
      · obtain ⟨boot', bitmap, logs⟩ := ensureWord_costs disk boot ensured
        rw [ensureAddrLog, if_neg nonzero]
        refine ⟨boot', fun _ => rfl, [bitmap], by simp, fun b member => ?_⟩
        exact (logs b member).imp id (.imp (by simp) fun isInd => ⟨nonzero, isInd⟩)
      · obtain ⟨nonzero, boot'⟩ := balloc_boot boot allocated
        obtain ⟨boot', bitmap, logs⟩ := ensureWord_costs disk boot' ensured
        have isInd : (ip.setAddr (last ndirect) ind).addrs (last ndirect) = ind := by
          simp [Inode.setAddr]
        rw [ensureAddrLog, if_pos zero, ballocLog, allocated]
        refine ⟨boot', fun pointer => absurd zero pointer, [disk.bblock ind, bitmap], ?_, ?_⟩
        · rw [pointerless, isInd, if_neg nonzero, pointerless, if_pos zero]
          rfl
        · intro b member
          have := logs b
          simp only [cons_append, mem_cons] at member ⊢
          tauto
    case isFalse => cases ok

/-- `bmap` panics without a log, or with the indirect block just allocated. -/
theorem bmap_panics (disk : Layout) {reason : Panic} (panics : bmap fs ip bn = .error reason) :
    Few ip (bmapLog disk fs ip bn) 0 := by
  unfold bmapLog
  split
  case isTrue direct =>
    rw [bmap, dif_pos direct] at panics
    rw [ensureAddr_panics disk panics]
    exact .nil ip 0
  case isFalse notDirect =>
    split
    case isTrue indirect =>
      rw [bmap, dif_neg notDirect, if_pos indirect] at panics
      cases pointed : ensureAddr fs ip (last ndirect) with
      | error reason =>
        rw [ensureAddr_panics disk pointed]
        exact .nil ip 0
      | ok result =>
        obtain ⟨ind, mid, midIp⟩ := result
        have noWord : ensureWordLog disk mid ind (bn - ndirect) = [] := by
          rw [pointed] at panics
          simp only [ensureWord, bind, Except.bind] at panics
          unfold ensureWordLog
          split
          case isTrue zero =>
            rw [if_pos zero] at panics
            cases allocated : balloc mid with
            | error reason => rfl
            | ok result =>
              rw [allocated] at panics
              cases panics
          case isFalse => rfl
        simp only [noWord, ensureAddrLog]
        obtain ⟨nonzero, -⟩ | ⟨zero, allocated, -⟩ := ensureAddr_cases pointed
        · rw [if_neg nonzero]
          exact .nil ip 0
        · rw [if_pos zero, ballocLog, allocated]
          refine ⟨ind, [disk.bblock ind], fun pointer => absurd zero pointer, ?_, ?_⟩
          · simp
          · rw [pointerless, if_pos zero]
            rfl
    case isFalse => exact .nil ip 0

theorem bmapLog_of_mapped (disk : Layout) (mapped : blockAddr fs.blocks ip bn ≠ 0) :
    bmapLog disk fs ip bn = [] := by
  unfold blockAddr slotOf at mapped
  unfold bmapLog
  split
  case isTrue direct =>
    rw [dif_pos direct] at mapped
    exact if_neg mapped
  case isFalse notDirect =>
    split
    case isTrue indirect =>
      rw [dif_neg notDirect, dif_pos indirect] at mapped
      simp only [addrAt] at mapped
      split at mapped
      case isTrue => exact absurd rfl mapped
      case isFalse pointer =>
        have word : Words.get (fs.blocks (ip.addrs (last ndirect))) (bn - ndirect) ≠ 0 := by
          intro zero
          rw [zero] at mapped
          exact mapped rfl
        simp [ensureAddrLog, ensureAddr, if_neg pointer, ensureWordLog, if_neg word]
    case isFalse => rfl

/-! ## The loop -/

theorem writeLoopLog_few (disk : Layout) (rounds : Nat) : ∀ {fuel fs ip off src},
    fs.bitmap 0 = true → (src ≠ [] → off + src.length ≤ (off / bsize + rounds) * bsize) →
    Few ip (writeLoopLog disk fuel fs ip off src) (2 * rounds) := by
  induction rounds with
  | zero =>
    intro fuel fs ip off src _ within
    have none : src = [] := by
      by_contra some
      have bound := within some
      have nonempty := length_pos_iff.mpr some
      have whole := div_mul_le_self off bsize
      rw [add_zero] at bound
      omega
    subst none
    cases fuel <;> exact .nil ip 0
  | succ rounds later =>
    intro fuel fs ip off src boot within
    cases fuel with
    | zero => exact .nil ip _
    | succ fuel =>
      rw [writeLoopLog]
      split
      case isTrue => exact .nil ip _
      case isFalse some =>
        cases mapped : bmap fs ip (off / bsize) with
        | error reason =>
          obtain ⟨ind, others, same, covered, bound⟩ := bmap_panics disk mapped
          rw [append_nil]
          exact ⟨ind, others, same, covered, by omega⟩
        | ok result =>
          have costs := bmap_costs disk boot mapped
          rw [show 2 * (rounds + 1) = 2 + 2 * rounds by omega]
          refine Few.round costs (later costs.boot fun more => ?_)
          -- there is more to write, so this round has filled the block
          have full : bsize - off % bsize < src.length := by
            rw [ne_eq, drop_eq_nil_iff] at more
            omega
          have bound := within some
          rw [length_drop]
          simp only [bsize, nindirect] at *
          omega

/-! ## The chunk -/

/-- Every block of an inode below its size has an address.  The address 0 stands for a hole, so
the boot block must not be free. -/
structure WithoutHoles (fs : FileSystem) : Prop where
  boot : fs.bitmap 0 = true
  mapped : ∀ inum dip, fs.dinodes inum = some dip → dip.type ≠ .dev →
    ∀ bn, bn < blocksFor dip.size → blockAddr fs.blocks dip bn ≠ 0

theorem Few.card_le {few : Nat} (bound : Few ip logged few) : logged.toFinset.card ≤ few + 2 := by
  obtain ⟨ind, others, -, covered, short⟩ := bound
  have one : pointerless ip ≤ 1 := by
    unfold pointerless
    split <;> omega
  calc logged.toFinset.card
      ≤ (ind :: others).toFinset.card :=
        Finset.card_le_card fun b member => by
          rw [mem_toFinset] at member ⊢
          exact mem_cons.mpr (covered b member)
    _ ≤ (ind :: others).length := toFinset_card_le _
    _ ≤ few + 2 := by rw [length_cons]; omega

/-- The first block of a chunk that starts inside a block is mapped: only the three after it can
be new. -/
theorem writeLoopLog_card (disk : Layout) (boot : fs.bitmap 0 = true)
    (mapped : ∀ bn, bn < blocksFor ip.size → blockAddr fs.blocks ip bn ≠ 0) (inside : off ≤ ip.size)
    (short : src.length ≤ SharedFile.maxChunk) :
    (writeLoopLog disk src.length fs ip off src).toFinset.card ≤ 9 := by
  have chunk : src.length ≤ 3 * bsize := short
  by_cases aligned : off % bsize = 0
  · have few : Few ip (writeLoopLog disk src.length fs ip off src) 6 := by
      refine writeLoopLog_few disk 3 boot fun _ => ?_
      simp only [bsize, nindirect] at *
      omega
    exact le_succ_of_le few.card_le
  · cases full : src.length with
    | zero => exact zero_le _
    | succ fuel =>
      have first : blockAddr fs.blocks ip (off / bsize) ≠ 0 := by
        have covered := le_blocksFor_mul ip.size
        refine mapped _ ?_
        simp only [bsize, nindirect] at *
        omega
      have nonempty : src ≠ [] := by
        rintro rfl
        cases full
      rw [writeLoopLog, if_neg nonempty, bmapLog_of_mapped disk first, bmap_of_mapped first,
        nil_append, toFinset_cons]
      refine (Finset.card_insert_le _ _).trans (succ_le_succ (Few.card_le (?_ : Few ip _ 6)))
      refine writeLoopLog_few disk 3 (by exact boot) fun more => ?_
      rw [length_drop]
      simp only [bsize, nindirect] at *
      omega

/-- With no hole in the file, the blocks that a chunk logs fit what `begin_op` has reserved. -/
theorem chunk_fits_reservation (disk : Layout) {inum : Nat} {dip : Inode} (whole : WithoutHoles fs)
    (entry : fs.dinodes inum = some dip) (agrees : ip.Agrees dip) (off : Nat)
    (call : SharedFile.Call) :
    (writeiLog disk fs inum ip off call.chunk).toFinset.card ≤ maxOpBlocks := by
  unfold writeiLog
  split
  case isTrue => exact Nat.zero_le _
  case isFalse notDevice =>
    split
    case isTrue => exact Nat.zero_le _
    case isFalse accepted =>
      split
      case isTrue => exact Nat.zero_le _
      case isFalse =>
        have mapped : ∀ bn, bn < blocksFor ip.size → blockAddr fs.blocks ip bn ≠ 0 := by
          intro bn below
          have noHole := whole.mapped inum dip entry (agrees.1 ▸ notDevice) bn
            (agrees.2.2.1 ▸ below)
          unfold blockAddr addrAt at noHole ⊢
          rwa [agrees.2.2.2]
        have short : call.chunk.length ≤ SharedFile.maxChunk := by
          rw [SharedFile.Call.chunk, List.length_take, SharedFile.Call.n1]
          split <;> omega
        have inside : off ≤ ip.size := by omega
        have loop := writeLoopLog_card disk whole.boot mapped inside short
        rw [List.toFinset_append]
        refine (Finset.card_union_le _ _).trans (Nat.add_le_add loop (?_ : _ ≤ 1))
        split
        · split <;> simp
        · simp

/-- A chunk that fills two blocks of a new file and a part of the third. -/
theorem chunk_of_three_blocks_fits : (writeiLog ⟨58, 32⟩ (freshDisk (· < Mkfs.nmeta)) 1
    (.fresh .file) 0 (SharedFile.Call.chunk ⟨0, List.replicate 1200 7, 0⟩)).toFinset.card ≤
      maxOpBlocks := by
  have noHoles := freshDisk_marked_consistent.noHoles
  have whole : WithoutHoles (freshDisk (· < Mkfs.nmeta)) :=
    ⟨rfl, fun inum dip entry notDevice bn => (noHoles inum dip entry notDevice bn).mp⟩
  exact chunk_fits_reservation ⟨58, 32⟩ whole
    (show (freshDisk (· < Mkfs.nmeta)).dinodes 1 = _ from rfl) (.refl (.fresh .file)) 0
    ⟨0, List.replicate 1200 7, 0⟩

end Laboratorio.Xv6.Inodes
