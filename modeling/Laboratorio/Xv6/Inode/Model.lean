import Laboratorio.Lib.Words
import Laboratorio.Xv6.Param

/-! # Inodes and their blocks (`fs.c`)

The block allocator, the inode cache and the contents of inodes, as seen through the
buffer cache.  The regions of the disk are separate fields: the bitmap, the inode
table and the blocks.  An inode of type 0 is `none` in the table.

`iget` keeps one cache entry for an inode number, so the cache is a function of that
number; an entry is in use when its `ref` is positive.  `copy` is the inode in memory
when `valid` is 1.  `ilock` panics on a copy without a type and `iput` clears `valid`
when it frees an inode, so a copy always has a type.

A caller of `writei`, `readi` and `itrunc` holds the inode's lock: `Session` records
which locks the caller has taken.
-/

namespace Laboratorio.Xv6.Inodes

open Laboratorio.Lib Function

inductive Panic
  | outOfBlocks
  | freeingFreeBlock
  | noFreeInode
  | noCacheEntry
  | ilock
  | noType
  | bmapOutOfRange
  deriving DecidableEq

/-- The fields that `dinode` and `inode` share. -/
structure Inode where
  type : FileType
  major : Int
  minor : Int
  nlink : Int
  size : Nat
  addrs : Fin (ndirect + 1) → Nat

/-- An entry of the inode cache. -/
structure Entry where
  ref : Nat
  locked : Bool
  copy : Option Inode

/-- `readsb`: the data area is `[dataStart, size)`. -/
structure Superblock where
  size : Nat
  ninodes : Nat
  dataStart : Nat
  dataStart_pos : 0 < dataStart
  size_lt : size < 2 ^ 32

/-- What a device does with a read of some bytes or a write; `none` is -1. -/
structure Devsw where
  read : Option (Nat → Option (List UInt8))
  write : Option (List UInt8 → Option Nat)

structure FileSystem where
  sb : Superblock
  devsw : Nat → Devsw
  bitmap : Nat → Bool
  blocks : Nat → Block
  dinodes : Nat → Option Inode
  icache : Nat → Entry

variable (fs : FileSystem)

/-! ## Blocks -/

def FileSystem.setBlock (b : Nat) (block : Block) : FileSystem :=
  { fs with blocks := update fs.blocks b block }

def bzero (b : Nat) : FileSystem :=
  fs.setBlock b fun _ => 0

/-- The first block whose bit is clear, over all bitmap blocks in order. -/
def balloc : Except Panic (Nat × FileSystem) :=
  match (List.range fs.sb.size).find? fun b => !fs.bitmap b with
  | some b => .ok (b, bzero { fs with bitmap := update fs.bitmap b true } b)
  | none => .error .outOfBlocks

def bfree (b : Nat) : Except Panic FileSystem :=
  if fs.bitmap b then .ok { fs with bitmap := update fs.bitmap b false }
  else .error .freeingFreeBlock

/-! ## The block map of an inode -/

def Inode.setAddr (ip : Inode) (i : Fin (ndirect + 1)) (addr : Nat) : Inode :=
  { ip with addrs := update ip.addrs i addr }

/-- `if((addr = ip->addrs[i]) == 0) ip->addrs[i] = addr = balloc(ip->dev);` -/
def ensureAddr (ip : Inode) (i : Fin (ndirect + 1)) : Except Panic (Nat × FileSystem × Inode) :=
  if ip.addrs i = 0 then do
    let (addr, fs) ← balloc fs
    .ok (addr, fs, ip.setAddr i addr)
  else .ok (ip.addrs i, fs, ip)

/-- The same for word `j` of the indirect block `ind`. -/
def ensureWord (ind j : Nat) : Except Panic (Nat × FileSystem) :=
  let a := fs.blocks ind
  if Words.get a j = 0 then do
    let (addr, fs) ← balloc fs
    .ok (addr, fs.setBlock ind (Words.put a j (UInt32.ofNat addr)))
  else .ok ((Words.get a j).toNat, fs)

def bmap (ip : Inode) (bn : Nat) : Except Panic (Nat × FileSystem × Inode) :=
  if direct : bn < ndirect then ensureAddr fs ip ⟨bn, Nat.lt_succ_of_lt direct⟩
  else if bn - ndirect < nindirect then do
    let (ind, fs, ip) ← ensureAddr fs ip (Fin.last ndirect)
    let (addr, fs) ← ensureWord fs ind (bn - ndirect)
    .ok (addr, fs, ip)
  else .error .bmapOutOfRange

/-- Copies the in-memory inode to the inode table. -/
def iupdate (inum : Nat) (ip : Inode) : FileSystem :=
  { fs with dinodes := update fs.dinodes inum (some ip) }

def freeAll (fs : FileSystem) : List Nat → Except Panic FileSystem
  | [] => .ok fs
  | addr :: rest =>
    if addr = 0 then freeAll fs rest
    else do
      let fs ← bfree fs addr
      freeAll fs rest

/-- The words of an indirect block. -/
def words (block : Block) : List Nat :=
  List.ofFn fun j : Fin nindirect => (Words.get block j).toNat

/-- The inode without its blocks. -/
def Inode.emptied (ip : Inode) : Inode :=
  { ip with size := 0, addrs := fun _ => 0 }

/-- Frees the blocks listed in the indirect block, then the block itself. -/
def freeIndirect (ind : Nat) : Except Panic FileSystem :=
  if ind = 0 then .ok fs
  else do
    let fs ← freeAll fs (words (fs.blocks ind))
    bfree fs ind

def itrunc (inum : Nat) (ip : Inode) : Except Panic (FileSystem × Inode) := do
  let fs ← freeAll fs (List.ofFn fun i : Fin ndirect => ip.addrs i.castSucc)
  let fs ← freeIndirect fs (ip.addrs (Fin.last ndirect))
  .ok (iupdate fs inum ip.emptied, ip.emptied)

/-! ## The contents of an inode -/

def slice (block : Block) (start count : Nat) : List UInt8 :=
  (List.range count).map fun i =>
    if bound : start + i < 4 * nindirect then block ⟨start + i, bound⟩ else 0

def patch (block : Block) (start : Nat) (bytes : List UInt8) : Block :=
  fun position =>
    if start ≤ position.val ∧ position.val < start + bytes.length then
      bytes.getD (position.val - start) 0
    else block position

/-- The loop of `readi`; every round copies at least one byte. -/
def readLoop : Nat → FileSystem → Inode → Nat → Nat →
    Except Panic (List UInt8 × FileSystem × Inode)
  | 0, fs, ip, _, _ => .ok ([], fs, ip)
  | fuel + 1, fs, ip, off, n =>
    if n = 0 then .ok ([], fs, ip)
    else do
      let (addr, fs, ip) ← bmap fs ip (off / bsize)
      let m := min n (bsize - off % bsize)
      let bytes := slice (fs.blocks addr) (off % bsize) m
      let (rest, fs, ip) ← readLoop fuel fs ip (off + m) (n - m)
      .ok (bytes ++ rest, fs, ip)

/-- The functions of a device, if its major number has any. -/
def device (ip : Inode) : Devsw :=
  if 0 ≤ ip.major ∧ ip.major < ndev then fs.devsw ip.major.toNat else ⟨none, none⟩

/-- The bytes read, or `none` for -1.  Offsets and lengths are `uint`: `off + n < off`
when the sum does not fit. -/
def readi (ip : Inode) (off n : Nat) :
    Except Panic (Option (List UInt8) × FileSystem × Inode) :=
  if ip.type = .dev then .ok ((device fs ip).read.bind (· n), fs, ip)
  else if ip.size < off ∨ 2 ^ 32 ≤ off + n then .ok (none, fs, ip)
  else do
    let n := if ip.size < off + n then ip.size - off else n
    let (bytes, fs, ip) ← readLoop n fs ip off n
    .ok (some bytes, fs, ip)

def writeLoop : Nat → FileSystem → Inode → Nat → List UInt8 → Except Panic (FileSystem × Inode)
  | 0, fs, ip, _, _ => .ok (fs, ip)
  | fuel + 1, fs, ip, off, src =>
    if src = [] then .ok (fs, ip)
    else do
      let (addr, fs, ip) ← bmap fs ip (off / bsize)
      let m := min src.length (bsize - off % bsize)
      let fs := fs.setBlock addr (patch (fs.blocks addr) (off % bsize) (src.take m))
      writeLoop fuel fs ip (off + m) (src.drop m)

/-- The number of bytes written, or `none` for -1. -/
def writei (inum : Nat) (ip : Inode) (off : Nat) (src : List UInt8) :
    Except Panic (Option Nat × FileSystem × Inode) :=
  if ip.type = .dev then .ok ((device fs ip).write.bind (· src), fs, ip)
  else if ip.size < off ∨ 2 ^ 32 ≤ off + src.length then .ok (none, fs, ip)
  else if maxFile * bsize < off + src.length then .ok (none, fs, ip)
  else do
    let (fs, ip) ← writeLoop src.length fs ip off src
    if src ≠ [] ∧ ip.size < off + src.length then
      let ip := { ip with size := off + src.length }
      .ok (some src.length, iupdate fs inum ip, ip)
    else .ok (some src.length, fs, ip)

/-! ## The inode cache -/

def FileSystem.setEntry (inum : Nat) (entry : Entry) : FileSystem :=
  { fs with icache := update fs.icache inum entry }

def entriesInUse : Nat :=
  (List.range fs.sb.ninodes).countP fun inum => 0 < (fs.icache inum).ref

def iget (inum : Nat) : Except Panic FileSystem :=
  let entry := fs.icache inum
  if 0 < entry.ref then .ok (fs.setEntry inum { entry with ref := entry.ref + 1 })
  else if entriesInUse fs < ninode then
    .ok (fs.setEntry inum { ref := 1, locked := false, copy := none })
  else .error .noCacheEntry

/-- What `memset` leaves of a new inode. -/
def Inode.fresh (type : FileType) : Inode :=
  { type, major := 0, minor := 0, nlink := 0, size := 0, addrs := fun _ => 0 }

/-- The new inode's number comes with a reference to it. -/
def ialloc (type : FileType) : Except Panic (Nat × FileSystem) :=
  match (List.range fs.sb.ninodes).find? fun inum => 1 ≤ inum && (fs.dinodes inum).isNone with
  | some inum => do
    let fs ← iget (iupdate fs inum (.fresh type)) inum
    .ok (inum, fs)
  | none => .error .noFreeInode

/-- `ilock` once `acquiresleep` has returned. -/
def ilock (inum : Nat) : Except Panic FileSystem :=
  let entry := fs.icache inum
  if entry.ref < 1 then .error .ilock
  else match entry.copy with
    | some _ => .ok (fs.setEntry inum { entry with locked := true })
    | none =>
      match fs.dinodes inum with
      | some ip => .ok (fs.setEntry inum { entry with locked := true, copy := some ip })
      | none => .error .noType

def iunlock (inum : Nat) : FileSystem :=
  fs.setEntry inum { fs.icache inum with locked := false }

/-- `iput` once `acquiresleep` has returned, with the lock released again at the end. -/
def iput (inum : Nat) : Except Panic FileSystem :=
  let entry := fs.icache inum
  match entry.copy with
  | some ip =>
    if ip.nlink = 0 ∧ entry.ref = 1 then do
      let (fs, _) ← itrunc fs inum ip
      -- `ip->type = 0; iupdate(ip); ip->valid = 0;`
      let fs := { fs with dinodes := update fs.dinodes inum none }
      .ok (fs.setEntry inum { ref := 0, locked := false, copy := none })
    else .ok (fs.setEntry inum { entry with ref := entry.ref - 1 })
  | none => .ok (fs.setEntry inum { entry with ref := entry.ref - 1 })

/-! ## Sequences of operations -/

inductive Op
  | ialloc (type : FileType)
  | iget (inum : Nat)
  | ilock (inum : Nat)
  | iunlock (inum : Nat)
  | writei (inum off : Nat) (src : List UInt8)
  | readi (inum off n : Nat)
  | itrunc (inum : Nat)
  | iput (inum : Nat)

/-- A caller at work: the inodes it has locked. -/
structure Session where
  fs : FileSystem
  mine : List Nat

def onInode (session : Session) (inum : Nat)
    (operation : FileSystem → Inode → Except Panic (FileSystem × Inode)) : Option Session :=
  if inum ∈ session.mine then
    match (session.fs.icache inum).copy with
    | none => none
    | some ip =>
      match operation session.fs ip with
      | .error _ => none
      | .ok (fs, ip) =>
        let entry := { fs.icache inum with copy := some ip }
        some { session with fs := fs.setEntry inum entry }
  else none

/-- Runs an operation that has no inode in memory, or takes and drops the lock itself. -/
def onTable (session : Session) (result : Except Panic FileSystem) : Option Session :=
  match result with
  | .error _ => none
  | .ok fs => some { session with fs }

/-- One call.  It has no result when the code panics, when the lock it waits for is
held, and when the caller lacks the lock or the reference that the call needs. -/
def step (session : Session) : Op → Option Session
  | .ialloc type => onTable session ((ialloc session.fs type).map Prod.snd)
  | .iget inum => onTable session (iget session.fs inum)
  | .ilock inum =>
    if (session.fs.icache inum).locked then none
    else (onTable session (ilock session.fs inum)).map fun next =>
      { next with mine := inum :: next.mine }
  | .iunlock inum =>
    if inum ∈ session.mine then
      some { fs := iunlock session.fs inum, mine := session.mine.filter (· ≠ inum) }
    else none
  | .writei inum off src =>
    onInode session inum fun fs ip => (writei fs inum ip off src).map Prod.snd
  | .readi inum off n => onInode session inum fun fs ip => (readi fs ip off n).map Prod.snd
  | .itrunc inum => onInode session inum fun fs ip => itrunc fs inum ip
  | .iput inum =>
    if (session.fs.icache inum).locked ∨ (session.fs.icache inum).ref = 0 then none
    else onTable session (iput session.fs inum)

/-- The calls in order; `none` when one of them has no result. -/
def run (session : Session) (ops : List Op) : Option Session :=
  ops.foldlM step session

end Laboratorio.Xv6.Inodes
