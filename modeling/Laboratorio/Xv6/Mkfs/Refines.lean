import Laboratorio.Xv6.Inode.Contents
import Laboratorio.Xv6.Mkfs.Model

/-! # `mkfs` appends as the kernel writes

The globals of `mkfs` stand for a file system of the kernel (`view`): the blocks below
`freeblock` are the ones in use.  On it `iappend` is the kernel's `writei` at the end of the file
(`iappend_writei`), so what is known about `writei` holds for the image.
-/

namespace Laboratorio.Xv6.Mkfs

open Laboratorio.Lib Inodes Function UInt32 List Nat Dinode Option

variable {inum sec x : Nat} {image : Image} {din din' : Dinode} {type : FileType}
  {base : Nat → Option Inode} {ip : Inode}

/-! ## The inode table -/

theorem lowShort_shorts (low high : UInt16) : lowShort (shorts low high) = low := by
  have lowBound := low.toNat_lt
  apply UInt16.toNat_inj.mp
  simp only [lowShort, shorts, toNat_ofNat', UInt16.toNat_ofNat']
  omega

theorem highShort_shorts (low high : UInt16) : highShort (shorts low high) = high := by
  have lowBound := low.toNat_lt
  have highBound := high.toNat_lt
  apply UInt16.toNat_inj.mp
  simp only [highShort, shorts, toNat_ofNat', UInt16.toNat_ofNat']
  omega

theorem Dinode.ofWords_words (din : Dinode) : ofWords din.words = din := by
  have addrs : ∀ i : Fin (ndirect + 1), din.words.getD (3 + i) 0 = din.addrs i := by
    intro i
    have index : 3 + i.val = i.val + 1 + 1 + 1 := by omega
    simp only [words, index, List.getD_eq_getElem?_getD, List.getElem?_cons_succ,
      List.getElem?_ofFn, Fin.is_lt, dite_true, Option.getD_some]
  simp only [words] at addrs
  simp only [ofWords, words, List.getD_cons_zero, List.getD_cons_succ, lowShort_shorts,
    highShort_shorts, addrs]

@[simp]
theorem Dinode.words_length (din : Dinode) : din.words.length = dinodeWords := by
  simp [words, dinodeWords]

theorem dinodeIn_putAll_self (buf : Block) (inum : Nat) (din : Dinode) :
    dinodeIn (Words.putAll buf (dinodeWords * (inum % ipb)) din.words) inum = din := by
  have fits : dinodeWords * (inum % ipb) + din.words.length ≤ nindirect := by
    have below : inum % ipb < ipb := mod_lt _ (by decide)
    rw [words_length]
    simp only [ipb, bsize, dinodeWords, ndirect] at below ⊢
    omega
  have read := Words.getAll_putAll buf din.words fits
  rw [words_length] at read
  rw [dinodeIn, read, ofWords_words]

theorem dinodeIn_putAll_of_ne (buf : Block) {other : Nat} (din : Dinode)
    (different : other % ipb ≠ inum % ipb) :
    dinodeIn (Words.putAll buf (dinodeWords * (inum % ipb)) din.words) other =
      dinodeIn buf other := by
  rw [dinodeIn, Words.getAll_putAll_of_apart, ← dinodeIn]
  rw [words_length]
  simp only [dinodeWords, ndirect]
  omega

/-- `short` -/
def signed (short : UInt16) : Int := short.toBitVec.toInt

def typeOf (code : UInt16) : Option FileType :=
  if code = 1 then some .dir
  else if code = 2 then some .file
  else if code = 3 then some .dev
  else none

/-- What `ilock` copies from the disk. -/
def Dinode.inode (din : Dinode) (type : FileType) : Inode where
  type := type
  major := signed din.major
  minor := signed din.minor
  nlink := signed din.nlink
  size := din.size.toNat
  addrs i := (din.addrs i).toNat

def Dinode.load (din : Dinode) : Option Inode := (typeOf din.type).map din.inode

theorem typeOf_typeCode (type : FileType) : typeOf (typeCode type) = some type := by
  cases type <;> rfl

/-- The inode of a number on the image. -/
def inodeAt (image : Image) (inum : Nat) : Option Inode :=
  (dinodeIn (image.sectors (iblock sb inum)) inum).load

/-! ## The file system that the globals stand for -/

def view (g : Globals) : FileSystem where
  sb := mkfsSb
  devsw _ := ⟨none, none⟩
  bitmap b := decide (b < g.freeblock)
  blocks b := if b < nmeta then zeroes else g.image.sectors b
  dinodes inum := if 1 ≤ inum ∧ inum < g.freeinode then inodeAt g.image inum else none
  icache _ := ⟨0, false, none⟩

/-- What holds between two steps of the program. -/
structure Ok (g : Globals) : Prop where
  length : g.image.length = fssize
  lower : nmeta ≤ g.freeblock
  upper : g.freeblock ≤ fssize
  clean : ∀ b, g.freeblock ≤ b → g.image.sectors b = zeroes
  inodes : g.freeinode ≤ ninodes
  super : g.image.sectors 1 = Words.putAll zeroes 0 sb.words
  free : ∀ inum, inum = 0 ∨ g.freeinode ≤ inum → inum < ninodes → inodeAt g.image inum = none

theorem rsect_some {buf : Block} (ok : rsect image sec = some buf) :
    sec < image.length ∧ image.sectors sec = buf := by
  simpa only [rsect, ite_none_right_eq_some, some.injEq] using ok

theorem iblock_ne_one (inum : Nat) : iblock sb inum ≠ 1 := by
  have start : sb.inodestart.toNat = 2 + nlog := by decide
  simp only [iblock]
  generalize inum / ipb = block
  omega

theorem iblock_lt (bound : inum < ninodes) : iblock sb inum < nmeta := by
  have start : sb.inodestart.toNat = 2 + nlog := by decide
  simp only [iblock, start]
  simp only [ipb, bsize, nindirect, dinodeWords, ndirect, nmeta, ninodeblocks] at bound ⊢
  omega

variable {g g' : Globals} {i : Fin (ndirect + 1)}

theorem inodeAt_wsect (image : Image) (data : nmeta ≤ sec) (buf : Block)
    (bound : inum < ninodes) : inodeAt (wsect image sec buf) inum = inodeAt image inum := by
  have low := iblock_lt bound
  have other : iblock sb inum ≠ sec := by omega
  simp [inodeAt, wsect, update_of_ne other]

theorem view_wsect (ok : Ok g) (data : nmeta ≤ sec) (buf : Block) :
    view { g with image := wsect g.image sec buf } = (view g).setBlock sec buf := by
  have table : (view { g with image := wsect g.image sec buf }).dinodes = (view g).dinodes := by
    funext inum
    simp only [view]
    split
    case isTrue bounds =>
      exact inodeAt_wsect g.image data buf (lt_of_lt_of_le bounds.2 ok.inodes)
    case isFalse => rfl
  have blocks : (view { g with image := wsect g.image sec buf }).blocks =
      update (view g).blocks sec buf := by
    funext b
    by_cases here : b = sec
    · subst here
      simp [view, wsect, if_neg (not_lt.mpr data)]
    · simp [view, wsect, update_of_ne here]
  simp only [FileSystem.setBlock, ← blocks, ← table]
  rfl

/-- The kernel would take the same block. -/
theorem balloc_view (ok : Ok g) (room : g.freeblock < fssize) :
    Inodes.balloc (view g) =
      .ok (g.freeblock, view { g with freeblock := g.freeblock + 1 }) := by
  have first : (range (view g).sb.size).find? (fun b => !(view g).bitmap b) =
      some g.freeblock := by
    rw [find?_range_eq_some]
    simp only [view, Bool.not_eq_eq_eq_not, Bool.not_true, decide_eq_false_iff_not, not_lt,
      le_refl, true_and, mem_range]
    exact ⟨room, fun b below => by simpa using below⟩
  have bitmap : update (view g).bitmap g.freeblock true =
      (view { g with freeblock := g.freeblock + 1 }).bitmap := by
    funext b
    by_cases here : b = g.freeblock
    · subst here
      simp [view]
    · rw [update_of_ne here]
      simp only [view, decide_eq_decide]
      omega
  have blocks : update (view g).blocks g.freeblock (fun _ => 0) = (view g).blocks := by
    rw [update_eq_self_iff]
    simp only [view, if_neg (not_lt.mpr ok.lower), ok.clean g.freeblock (le_refl _)]
    rfl
  simp only [Inodes.balloc, first, bzero, FileSystem.setBlock, blocks, bitmap]
  rfl

/-! ## One block of a file -/

theorem toNat_freeblock (ok : Ok g) : (UInt32.ofNat g.freeblock).toNat = g.freeblock := by
  apply toNat_ofNat_of_lt'
  exact lt_of_le_of_lt ok.upper (by decide)

theorem Ok.take (ok : Ok g) (room : g.freeblock < fssize) :
    Ok { g with freeblock := g.freeblock + 1 } where
  length := ok.length
  lower := le_succ_of_le ok.lower
  upper := room
  clean b above := ok.clean b (le_of_succ_le above)
  inodes := ok.inodes
  super := ok.super
  free := ok.free

theorem Ok.wsect (ok : Ok g) (data : nmeta ≤ sec) (used : sec < g.freeblock) (buf : Block) :
    Ok { g with image := wsect g.image sec buf } where
  length := by
    have upper := ok.upper
    simp only [Mkfs.wsect, ok.length]
    omega
  lower := ok.lower
  upper := ok.upper
  clean b above := by
    have other : b ≠ sec := by
      simp only at above
      omega
    simp only [Mkfs.wsect, update_of_ne other]
    exact ok.clean b above
  inodes := ok.inodes
  super := by
    have other : 1 ≠ sec := by
      have : 1 < nmeta := by decide
      omega
    simp only [Mkfs.wsect, update_of_ne other]
    exact ok.super
  free inum unused bound := (inodeAt_wsect g.image data buf bound).trans (ok.free inum unused bound)

theorem Dinode.setAddr_inode (din : Dinode) (type : FileType) (i : Fin (ndirect + 1)) {b : Nat}
    (small : (UInt32.ofNat b).toNat = b) :
    { din with addrs := update din.addrs i (UInt32.ofNat b) }.inode type =
      (din.inode type).setAddr i b := by
  have addrs : (fun j => (update din.addrs i (ofNat b) j).toNat) =
      update (fun j => (din.addrs j).toNat) i b := by
    funext j
    by_cases here : j = i
    · subst here
      simp [small]
    · simp [update_of_ne here]
  simp [inode, Inode.setAddr, addrs]

theorem ensureAddr_view (ok : Ok g) (type : FileType) (result : ensureAddr g din i = (g', din'))
    (inside : (din'.addrs i).toNat < fssize) :
    Inodes.ensureAddr (view g) (din.inode type) i =
      .ok ((din'.addrs i).toNat, view g', din'.inode type) ∧ Ok g' := by
  unfold ensureAddr at result
  split at result
  case isTrue empty =>
    cases result
    have small := toNat_freeblock ok
    simp only [update_self, small] at inside ⊢
    have vacant : (din.inode type).addrs i = 0 := by
      simp only [Dinode.inode, empty]
      rfl
    refine ⟨?_, ok.take inside⟩
    simp [Inodes.ensureAddr, if_pos vacant, balloc_view ok inside, bind, Except.bind, din.setAddr_inode type i small]
  case isFalse holds =>
    cases result
    have held : (din.inode type).addrs i ≠ 0 := by
      intro zero
      exact holds (UInt32.toNat_inj.mp zero)
    refine ⟨?_, ok⟩
    simp only [Inodes.ensureAddr, if_neg held]
    rfl

/-- An address that is held somewhere is that of a data block in use. -/
theorem held_bounds {table : Nat → Option Inode} (owns : Owns (view g) table [])
    {place : Nat × Slot} (held : addrOf (view g).blocks table place ≠ 0) :
    nmeta ≤ addrOf (view g).blocks table place ∧
      addrOf (view g).blocks table place < g.freeblock :=
  ⟨(owns.area place held).1, of_decide_eq_true (owns.used_of_addr held)⟩

theorem blockOf_bmap (ok : Ok g) {fbn : Nat}
    (owns : Owns (view g) (update base inum (some (din.inode type))) [])
    (bound : fbn < maxFile) (result : blockOf g din fbn = some (x, g', din'))
    (inside : x < fssize) :
    bmap (view g) (din.inode type) fbn = .ok (x, view g', din'.inode type) ∧ Ok g' := by
  unfold blockOf at result
  split at result
  case isTrue direct =>
    cases taken : ensureAddr g din ⟨fbn, by omega⟩ with
    | mk g₁ din₁ =>
      simp only [taken] at result
      cases result
      simp only [bmap, dif_pos direct]
      exact ensureAddr_view ok type taken inside
  case isFalse notDirect =>
    have indirect : fbn - ndirect < nindirect := by
      simp only [maxFile] at bound
      omega
    cases taken : ensureAddr g din (Fin.last ndirect) with
    | mk g₁ din₁ =>
      simp only [taken, Option.bind_eq_bind, Option.bind_eq_some_iff] at result
      obtain ⟨buf, read, result⟩ := result
      generalize pointer : (din₁.addrs (Fin.last ndirect)).toNat = ind at read result
      obtain ⟨inFile, sector⟩ := rsect_some read
      have image : g₁.image = g.image := by
        unfold ensureAddr at taken
        split at taken <;> (cases taken; rfl)
      rw [image, ok.length] at inFile
      obtain ⟨ensured, ok₁⟩ := ensureAddr_view ok type taken (by rw [pointer]; exact inFile)
      rw [pointer] at ensured
      -- the indirect block is a data block, so the kernel sees the same words in it
      have filled := ensureAddr_spec owns ensured
      have holds : addrOf (view g₁).blocks (update base inum (some (din₁.inode type)))
          (inum, .direct (Fin.last ndirect)) = ind := by
        rw [filled.addrs, update_self]
      obtain ⟨lower, used⟩ := held_bounds filled.grown.owns
        (by rw [holds]; exact filled.nonzero)
      rw [holds] at lower used
      have block : (view g₁).blocks ind = buf := by
        simp only [view, if_neg (Nat.not_lt.mpr lower)]
        exact sector
      have walk : ∀ y fs, ensureWord (view g₁) ind (fbn - ndirect) = .ok (y, fs) →
          bmap (view g) (din.inode type) fbn = .ok (y, fs, din₁.inode type) := by
        intro y fs word
        simp [bmap, dif_neg notDirect, if_pos indirect, ensured, word, bind, Except.bind]
      split at result
      case isTrue empty =>
        cases result
        rw [Words.get_put_self _ _ indirect, toNat_freeblock ok₁] at inside ⊢
        have ok₂ := ok₁.take inside
        have written := view_wsect ok₂ lower
        refine ⟨?_, ok₂.wsect lower (Nat.lt_succ_of_lt used) _⟩
        apply walk
        simp only [ensureWord, block, if_pos empty, balloc_view ok₁ inside, bind, Except.bind]
        rw [← written]
      case isFalse full =>
        cases result
        refine ⟨?_, ok₁⟩
        apply walk
        simp [ensureWord, block, if_neg full]

/-- What a call leaves alone. -/
structure Frame (g : Globals) (din : Dinode) (g' : Globals) (din' : Dinode) : Prop where
  freeinode : g'.freeinode = g.freeinode
  type : din'.type = din.type
  length : g'.image.length = g.image.length

theorem ensureAddr_frame (result : ensureAddr g din i = (g', din')) : Frame g din g' din' := by
  unfold ensureAddr at result
  split at result <;> (cases result; exact ⟨rfl, rfl, rfl⟩)

theorem blockOf_frame {fbn : Nat}
    (result : blockOf g din fbn = some (x, g', din')) : Frame g din g' din' := by
  unfold blockOf at result
  split at result
  case isTrue direct =>
    cases taken : ensureAddr g din ⟨fbn, by omega⟩ with
    | mk g₁ din₁ =>
      simp only [taken] at result
      cases result
      exact ensureAddr_frame taken
  case isFalse =>
    cases taken : ensureAddr g din (Fin.last ndirect) with
    | mk g₁ din₁ =>
      have first := ensureAddr_frame taken
      simp only [taken, bind_eq_bind, bind_eq_some_iff] at result
      obtain ⟨buf, read, result⟩ := result
      obtain ⟨inFile, -⟩ := rsect_some read
      split at result
      · cases result
        refine ⟨first.freeinode, first.type, ?_⟩
        rw [← first.length]
        exact max_eq_left inFile
      · cases result
        exact first

/-! ## The loop -/

theorem appendLoop_frame {fuel off off' : Nat} {p : List UInt8}
    (result : appendLoop fuel g din off p = some (g', din', off')) : Frame g din g' din' := by
  induction fuel generalizing g din off p with
  | zero =>
    cases result
    exact ⟨rfl, rfl, rfl⟩
  | succ fuel ih =>
    unfold appendLoop at result
    split at result
    case isTrue =>
      cases result
      exact ⟨rfl, rfl, rfl⟩
    case isFalse =>
      obtain ⟨-, result⟩ := Option.ite_none_right_eq_some.mp result
      simp only [Option.bind_eq_bind, Option.bind_eq_some_iff, Prod.exists] at result
      obtain ⟨x, g₁, din₁, found, buf, read, result⟩ := result
      have frame := blockOf_frame found
      have rest := ih result
      have length := Nat.max_eq_left (rsect_some read).1
      exact ⟨rest.freeinode.trans frame.freeinode, rest.type.trans frame.type,
        (rest.length.trans length).trans frame.length⟩

/-- One round of the loop, with any new contents of the block. -/
structure Round (base : Nat → Option Inode) (inum count : Nat) (type : FileType) (g : Globals)
    (din : Dinode) (bn x : Nat) (g₁ : Globals) (din₁ : Dinode) (buf : Block) : Prop where
  mapOk : bmap (view g) (din.inode type) bn = .ok (x, view g₁, din₁.inode type)
  data : nmeta ≤ x
  written : view { g₁ with image := wsect g₁.image x buf } = (view g₁).setBlock x buf
  ok : Ok { g₁ with image := wsect g₁.image x buf }
  owns : Owns (view { g₁ with image := wsect g₁.image x buf })
    (update base inum (some (din₁.inode type))) []
  extent : Extent (addrOf (view { g₁ with image := wsect g₁.image x buf }).blocks
    (update base inum (some (din₁.inode type)))) inum (max count (bn + 1))

theorem round_view {din₁ : Dinode} {count bn : Nat} {g₁ : Globals} (ok : Ok g)
    (maps : Maps base inum (view g) (din.inode type) count)
    (within : bn ≤ count) (bound : bn < maxFile) (found : blockOf g din bn = some (x, g₁, din₁))
    (inside : x < fssize) (buf : Block) : Round base inum count type g din bn x g₁ din₁ buf := by
  obtain ⟨mapOk, ok₁⟩ := blockOf_bmap ok maps.owns bound found inside
  obtain ⟨grown, -, ⟨slot, place, holds⟩, nonzero, -⟩ := bmap_spec maps within mapOk
  obtain ⟨lower, used⟩ := held_bounds grown.owns (by rw [holds]; exact nonzero)
  rw [holds] at lower used
  have written := view_wsect ok₁ lower buf
  have next := (maps.round within mapOk buf).2
  rw [← written] at next
  exact ⟨mapOk, lower, written, ok₁.wsect lower used buf, next.owns, next.extent⟩

theorem appendLoop_writeLoop {count fuel off off' : Nat} {p : List UInt8} (ok : Ok g)
    (maps : Maps base inum (view g) (din.inode type) count) (within : off ≤ count * bsize) (enough : p.length ≤ fuel)
    (result : appendLoop fuel g din off p = some (g', din', off')) :
    writeLoop fuel (view g) (din.inode type) off p = .ok (view g', din'.inode type) ∧ Ok g' ∧
      off' = off + p.length ∧ (p ≠ [] → off + p.length ≤ maxFile * bsize) := by
  induction fuel generalizing off p g din count with
  | zero =>
    have none : p = [] := List.length_eq_zero_iff.mp (Nat.le_zero.mp enough)
    subst none
    cases result
    exact ⟨rfl, ok, rfl, fun nonempty => absurd rfl nonempty⟩
  | succ fuel ih =>
    unfold appendLoop at result
    split at result
    case isTrue none =>
      subst none
      cases result
      exact ⟨rfl, ok, rfl, fun nonempty => absurd rfl nonempty⟩
    case isFalse nonempty =>
      obtain ⟨bound, result⟩ := Option.ite_none_right_eq_some.mp result
      simp only [Option.bind_eq_bind, Option.bind_eq_some_iff, Prod.exists] at result
      obtain ⟨x, g₁, din₁, found, buf, read, result⟩ := result
      obtain ⟨inFile, sector⟩ := rsect_some read
      have frame := blockOf_frame found
      rw [frame.length, ok.length] at inFile
      -- the offset in the block and the length of the copy, as the kernel computes them
      have start : off - off / bsize * bsize = off % bsize := by
        simp only [bsize, nindirect]
        omega
      have room : (off / bsize + 1) * bsize - off = bsize - off % bsize := by
        simp only [bsize, nindirect]
        omega
      rw [start, room] at result
      have progress : 0 < bsize - off % bsize := Nat.sub_pos_of_lt (Nat.mod_lt off (by decide))
      generalize length : min p.length (bsize - off % bsize) = m at result
      have round := round_view ok maps (div_le_of_le_mul within) bound found inFile
        (patch buf (off % bsize) (p.take m))
      have block : (view g₁).blocks x = buf := by
        simp only [view, if_neg (Nat.not_lt.mpr round.data)]
        exact sector
      have dropped : (p.drop m).length = p.length - m := List.length_drop ..
      obtain ⟨rest, ok', total, fits⟩ := ih round.ok ⟨round.owns, round.extent⟩
        (round_reach count (by omega)) (by omega) result
      refine ⟨?_, ok', by omega, ?_⟩
      · rw [round.written] at rest
        simp [writeLoop, if_neg nonempty, round.mapOk, bind, Except.bind, length, block, rest]
      · intro _
        by_cases last : p.drop m = []
        · rw [last, List.length_nil] at dropped
          simp only [bsize, nindirect] at bound length ⊢
          omega
        · have := fits last
          omega

/-! ## The inode table of the image -/

theorem inodeAt_winode {image' : Image} (result : winode image inum din = some image') :
    inodeAt image' = update (inodeAt image) inum din.load := by
  simp only [winode, bind_eq_bind, bind_eq_some_iff, some.injEq] at result
  obtain ⟨buf, read, rfl⟩ := result
  obtain ⟨-, sector⟩ := rsect_some read
  subst sector
  funext other
  by_cases here : other = inum
  · subst here
    simp [inodeAt, wsect, dinodeIn_putAll_self]
  · rw [update_of_ne here]
    by_cases block : iblock sb other = iblock sb inum
    · -- another place of the same block
      have place : other % ipb ≠ inum % ipb := by
        intro same
        simp only [iblock] at block
        have sameBlock : other / ipb = inum / ipb := by omega
        have first := div_add_mod other ipb
        have second := div_add_mod inum ipb
        rw [sameBlock] at first
        omega
      simp [inodeAt, wsect, block, dinodeIn_putAll_of_ne _ _ place]
    · simp [inodeAt, wsect, update_of_ne block]

theorem winode_sectors {image' : Image} (result : winode image inum din = some image') :
    image'.length = image.length ∧
      ∀ b, b ≠ iblock sb inum → image'.sectors b = image.sectors b := by
  simp only [winode, bind_eq_bind, bind_eq_some_iff, some.injEq] at result
  obtain ⟨buf, read, rfl⟩ := result
  obtain ⟨inFile, -⟩ := rsect_some read
  exact ⟨max_eq_left inFile, fun b other => update_of_ne other ..⟩

theorem Ok.winode (ok : Ok g) (lower : 1 ≤ inum) (upper : inum < g.freeinode)
    (result : winode g.image inum din = some image) :
    Ok { g with image } where
  length := (winode_sectors result).1.trans ok.length
  lower := ok.lower
  upper := ok.upper
  clean b above := by
    have low := iblock_lt (lt_of_lt_of_le upper ok.inodes)
    have data := ok.lower
    have other : b ≠ iblock sb inum := by
      simp only at above
      omega
    exact ((winode_sectors result).2 b other).trans (ok.clean b above)
  inodes := ok.inodes
  super := ((winode_sectors result).2 1 (iblock_ne_one inum).symm).trans ok.super
  free other unused bound := by
    have away : other ≠ inum := by
      simp only at unused
      omega
    rw [inodeAt_winode result, update_of_ne away]
    exact ok.free other unused bound

theorem blocks_winode (bound : inum < ninodes) (result : winode g.image inum din = some image) :
    (view { g with image }).blocks = (view g).blocks := by
  funext b
  simp only [view]
  split
  · rfl
  · have low := iblock_lt bound
    exact (winode_sectors result).2 b (by omega)

theorem view_winode (ok : Ok g) (bounds : 1 ≤ inum ∧ inum < g.freeinode) (load : din.load = some ip)
    (result : winode g.image inum din = some image) :
    view { g with image } = iupdate (view g) inum ip := by
  have table : (view { g with image }).dinodes = update (view g).dinodes inum (some ip) := by
    have inodes := inodeAt_winode result
    funext other
    have at_ := congrFun inodes other
    by_cases here : other = inum
    · subst here
      simp [view, if_pos bounds, at_, load]
    · simp [view, at_, update_of_ne here]
  have blocks := blocks_winode (g := g) (lt_of_lt_of_le bounds.2 ok.inodes) result
  simp only [iupdate, ← table, ← blocks]
  rfl

/-! ## `iappend` -/

theorem Dinode.load_eq_some (load : din.load = some ip) :
    typeOf din.type = some ip.type ∧ ip = din.inode ip.type := by
  simp only [Dinode.load, Option.map_eq_some_iff] at load
  obtain ⟨type, known, rfl⟩ := load
  exact ⟨known, rfl⟩

theorem rinode_view
    (entry : (view g).dinodes inum = some ip) (read : rinode g.image inum = some din) :
    (1 ≤ inum ∧ inum < g.freeinode) ∧ din.load = some ip := by
  simp only [rinode, bind_eq_bind, bind_eq_some_iff, some.injEq] at read
  obtain ⟨buf, read, rfl⟩ := read
  obtain ⟨-, rfl⟩ := rsect_some read
  simp only [view, ite_none_right_eq_some] at entry
  exact entry

theorem iappend_freeinode {p : List UInt8} (result : iappend g inum p = some g') :
    g'.freeinode = g.freeinode := by
  simp only [iappend, Option.bind_eq_bind, Option.bind_eq_some_iff, Option.some.injEq,
    Prod.exists] at result
  obtain ⟨din, -, g₁, din₁, off, looped, image, -, rfl⟩ := result
  exact (appendLoop_frame looped).freeinode

/-- `iappend` is the kernel's `writei` at the end of the file. -/
theorem iappend_writei {p : List UInt8} (ok : Ok g) (opened : Opened (view g) inum ip ip)
    (notDevice : ip.type ≠ .dev) (nonempty : p ≠ []) (result : iappend g inum p = some g') :
    (∃ ip', writei (view g) inum ip ip.size p = .ok (some p.length, view g', ip')) ∧ Ok g' := by
  simp only [iappend, Option.bind_eq_bind, Option.bind_eq_some_iff, Option.some.injEq,
    Prod.exists] at result
  obtain ⟨din, read, g₁, din₁, off, looped, image, stored, rfl⟩ := result
  obtain ⟨bounds, load⟩ := rinode_view opened.entry read
  obtain ⟨type, known, inode⟩ := Option.map_eq_some_iff.mp load
  have size : din.size.toNat = ip.size := by rw [← inode]; rfl
  rw [size] at looped
  have maps := opened.maps notDevice
  nth_rewrite 1 [← inode] at maps
  have covered := le_blocksFor_mul ip.size
  have frame := appendLoop_frame looped
  obtain ⟨loop, ok₁, rfl, fits⟩ := appendLoop_writeLoop ok maps covered (Nat.le_refl _) looped
  have most := fits nonempty
  have positive : 0 < p.length := List.length_pos_iff.mpr nonempty
  obtain ⟨grown, -, -⟩ := writeLoop_spec maps covered (Nat.le_refl _) loop
  have bounds₁ : 1 ≤ inum ∧ inum < g₁.freeinode := by
    rw [frame.freeinode]
    exact bounds
  -- the new size fits the field
  have small : (UInt32.ofNat (ip.size + p.length)).toNat = ip.size + p.length := by
    apply UInt32.toNat_ofNat_of_lt'
    exact Nat.lt_of_le_of_lt most (by decide)
  have resized : { din₁ with size := UInt32.ofNat (ip.size + p.length) }.load =
      some { din₁.inode type with size := ip.size + p.length } := by
    simp only [Dinode.load, frame.type, known, Option.map_some, Dinode.inode, small]
  have written := view_winode ok₁ bounds₁ resized stored
  refine ⟨⟨{ din₁.inode type with size := ip.size + p.length }, ?_⟩, ?_⟩
  · have inFile : ¬ (ip.size < ip.size ∨ 2 ^ 32 ≤ ip.size + p.length) := by
      simp only [maxFile, ndirect, nindirect, bsize] at most
      omega
    have keeps : (din₁.inode type).size = ip.size := by
      rw [grown.inode, ← size]
      rfl
    have grows : p ≠ [] ∧ (din₁.inode type).size < ip.size + p.length :=
      ⟨nonempty, by omega⟩
    rw [inode] at loop
    simp only [writei, if_neg notDevice, if_neg inFile, if_neg (Nat.not_lt.mpr most), loop, bind,
      Except.bind, if_pos grows, written]
  · exact ok₁.winode bounds₁.1 bounds₁.2 stored

end Laboratorio.Xv6.Mkfs
