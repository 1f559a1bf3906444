import Laboratorio.Xv6.Inode.Model

/-! # The program that makes a file system (`mkfs.c`)

The image is a file of whole sectors on the host; reading past its end fails, and a write there
extends it.  `none` stands for every exit with another status than 0: a failed assertion, and
`exit(1)` after a failed call.

A field that is assigned `xint(v)` or `xshort(v)` holds the little-endian bytes of `v`, and
`xint` of a field is the number these bytes stand for, so the buffers are read and written as
little-endian words.  What `mkfs` prints is left out.
-/

namespace Laboratorio.Xv6.Mkfs

open Laboratorio.Lib

/-! ## The layout of the disk -/

/-- `sizeof(struct dinode)`, in words. -/
def dinodeWords : Nat := ndirect + 4

def ipb : Nat := bsize / (4 * dinodeWords)

def rootino : Nat := 1

def nbitmap : Nat := fssize / (bsize * 8) + 1

def ninodeblocks : Nat := ninodes / ipb + 1

def nmeta : Nat := 2 + nlog + ninodeblocks + nbitmap

def nblocks : Nat := fssize - nmeta

structure Superblock where
  size : UInt32
  nblocks : UInt32
  ninodes : UInt32
  nlog : UInt32
  logstart : UInt32
  inodestart : UInt32
  bmapstart : UInt32

def Superblock.words (sb : Superblock) : List UInt32 :=
  [sb.size, sb.nblocks, sb.ninodes, sb.nlog, sb.logstart, sb.inodestart, sb.bmapstart]

/-- The superblock that `main` fills in. -/
def sb : Superblock where
  size := UInt32.ofNat fssize
  nblocks := UInt32.ofNat nblocks
  ninodes := UInt32.ofNat ninodes
  nlog := UInt32.ofNat nlog
  logstart := 2
  inodestart := UInt32.ofNat (2 + nlog)
  bmapstart := UInt32.ofNat (2 + nlog + ninodeblocks)

def iblock (sb : Superblock) (inum : Nat) : Nat :=
  inum / ipb + sb.inodestart.toNat

structure Dinode where
  type : UInt16
  major : UInt16
  minor : UInt16
  nlink : UInt16
  size : UInt32
  addrs : Fin (ndirect + 1) → UInt32

/-- Two shorts next to each other in memory. -/
def shorts (low high : UInt16) : UInt32 :=
  UInt32.ofNat (low.toNat + high.toNat * 2 ^ 16)

def lowShort (word : UInt32) : UInt16 := UInt16.ofNat word.toNat

def highShort (word : UInt32) : UInt16 := UInt16.ofNat (word.toNat / 2 ^ 16)

def Dinode.words (din : Dinode) : List UInt32 :=
  shorts din.type din.major :: shorts din.minor din.nlink :: din.size :: List.ofFn din.addrs

def Dinode.ofWords (words : List UInt32) : Dinode where
  type := lowShort (words.getD 0 0)
  major := highShort (words.getD 0 0)
  minor := lowShort (words.getD 1 0)
  nlink := highShort (words.getD 1 0)
  size := words.getD 2 0
  addrs i := words.getD (3 + i) 0

/-- `T_DIR` and `T_FILE` -/
def typeCode : FileType → UInt16
  | .dir => 1
  | .file => 2
  | .dev => 3

/-- An entry of a directory: the number and the name, cut or filled with zeros. -/
def dirent (inum : Nat) (name : List UInt8) : List UInt8 :=
  let short := UInt16.ofNat inum
  let cut := name.take dirsiz
  UInt8.ofNat short.toNat :: UInt8.ofNat (short.toNat / 256) ::
    (cut ++ List.replicate (dirsiz - cut.length) 0)

/-! ## Sectors -/

structure Image where
  sectors : Nat → Block
  length : Nat

def rsect (image : Image) (sec : Nat) : Option Block :=
  if sec < image.length then some (image.sectors sec) else none

def wsect (image : Image) (sec : Nat) (buf : Block) : Image where
  sectors := Function.update image.sectors sec buf
  length := max image.length (sec + 1)

def zeroes : Block := fun _ => 0

/-! ## Inodes -/

/-- The dinode of a number, in its block. -/
def dinodeIn (buf : Block) (inum : Nat) : Dinode :=
  .ofWords (Words.getAll buf (dinodeWords * (inum % ipb)) dinodeWords)

def winode (image : Image) (inum : Nat) (din : Dinode) : Option Image := do
  let buf ← rsect image (iblock sb inum)
  some (wsect image (iblock sb inum) (Words.putAll buf (dinodeWords * (inum % ipb)) din.words))

def rinode (image : Image) (inum : Nat) : Option Dinode := do
  let buf ← rsect image (iblock sb inum)
  some (dinodeIn buf inum)

structure Globals where
  image : Image
  freeinode : Nat
  freeblock : Nat

def ialloc (g : Globals) (type : FileType) : Option (Nat × Globals) := do
  let inum := g.freeinode
  let din : Dinode := ⟨typeCode type, 0, 0, 1, 0, fun _ => 0⟩
  let image ← winode g.image inum din
  some (inum, { g with freeinode := inum + 1, image })

/-! ## Appending to an inode -/

/-- `if(xint(din.addrs[i]) == 0) din.addrs[i] = xint(freeblock++);` -/
def ensureAddr (g : Globals) (din : Dinode) (i : Fin (ndirect + 1)) : Globals × Dinode :=
  if din.addrs i = 0 then
    ({ g with freeblock := g.freeblock + 1 },
      { din with addrs := Function.update din.addrs i (UInt32.ofNat g.freeblock) })
  else (g, din)

/-- The block `x` of the inode that holds byte `fbn * BSIZE`, allocated if it has none. -/
def blockOf (g : Globals) (din : Dinode) (fbn : Nat) : Option (Nat × Globals × Dinode) :=
  if direct : fbn < ndirect then
    let (g, din) := ensureAddr g din ⟨fbn, Nat.lt_succ_of_lt direct⟩
    some ((din.addrs ⟨fbn, Nat.lt_succ_of_lt direct⟩).toNat, g, din)
  else do
    let (g, din) := ensureAddr g din (Fin.last ndirect)
    let ind := (din.addrs (Fin.last ndirect)).toNat
    let indirect ← rsect g.image ind
    if Words.get indirect (fbn - ndirect) = 0 then
      let indirect := Words.put indirect (fbn - ndirect) (UInt32.ofNat g.freeblock)
      some ((Words.get indirect (fbn - ndirect)).toNat,
        { g with freeblock := g.freeblock + 1, image := wsect g.image ind indirect }, din)
    else some ((Words.get indirect (fbn - ndirect)).toNat, g, din)

/-- The loop of `iappend`; every round copies at least one byte. -/
def appendLoop : Nat → Globals → Dinode → Nat → List UInt8 → Option (Globals × Dinode × Nat)
  | 0, g, din, off, _ => some (g, din, off)
  | fuel + 1, g, din, off, p =>
    if p = [] then some (g, din, off)
    else if off / bsize < maxFile then do
      let (x, g, din) ← blockOf g din (off / bsize)
      let n1 := min p.length ((off / bsize + 1) * bsize - off)
      let buf ← rsect g.image x
      let image := wsect g.image x (Inodes.patch buf (off - off / bsize * bsize) (p.take n1))
      appendLoop fuel { g with image } din (off + n1) (p.drop n1)
    else none

def iappend (g : Globals) (inum : Nat) (p : List UInt8) : Option Globals := do
  let din ← rinode g.image inum
  let (g, din, off) ← appendLoop p.length g din din.size.toNat p
  let image ← winode g.image inum { din with size := UInt32.ofNat off }
  some { g with image }

/-! ## The bitmap -/

def setBit (buf : Block) (i : Nat) : Block :=
  fun position =>
    if position.val = i / 8 then buf position ||| UInt8.ofNat (1 <<< (i % 8)) else buf position

def balloc (image : Image) (used : Nat) : Option Image :=
  if used < bsize * 8 then
    some (wsect image sb.bmapstart.toNat ((List.range used).foldl setBit zeroes))
  else none

/-! ## The program -/

/-- A file of the command line.  The name is a C string; `contents` is `none` when the file
cannot be opened. -/
structure File where
  name : List UInt8
  contents : Option (List UInt8)
  name_nonzero : 0 ∉ name

def dot : List UInt8 := [46]

def dotdot : List UInt8 := [46, 46]

/-- The name without a leading `_`. -/
def File.shortName (file : File) : List UInt8 :=
  match file.name with
  | 95 :: rest => rest
  | name => name

/-- `while((cc = read(fd, buf, sizeof(buf))) > 0) iappend(inum, buf, cc);` -/
def copyFile : Nat → Globals → Nat → List UInt8 → Option Globals
  | 0, g, _, _ => some g
  | fuel + 1, g, inum, data =>
    if data = [] then some g
    else do
      let g ← iappend g inum (data.take bsize)
      copyFile fuel g inum (data.drop bsize)

def addFile (root : Nat) (g : Globals) (file : File) : Option Globals :=
  -- `assert(index(argv[i], '/') == 0)`
  if 47 ∈ file.name then none
  else do
    let data ← file.contents
    let (inum, g) ← ialloc g .file
    let g ← iappend g root (dirent inum file.shortName)
    copyFile data.length g inum data

/-- `for(i = 0; i < FSSIZE; i++) wsect(i, zeroes);` on a new file. -/
def blank : Image :=
  (List.range fssize).foldl (fun image i => wsect image i zeroes) ⟨fun _ => zeroes, 0⟩

/-- The root directory with its two entries. -/
def makeRoot : Option (Nat × Globals) := do
  let image := wsect blank 1 (Words.putAll zeroes 0 sb.words)
  let (root, g) ← ialloc ⟨image, 1, nmeta⟩ .dir
  if root = rootino then
    let g ← iappend g root (dirent root dot)
    let g ← iappend g root (dirent root dotdot)
    some (root, g)
  else none

/-- Rounds the size of the root directory up and writes the bitmap. -/
def finish (g : Globals) (root : Nat) : Option Globals := do
  let din ← rinode g.image root
  let off := (din.size.toNat / bsize + 1) * bsize
  let image ← winode g.image root { din with size := UInt32.ofNat off }
  let image ← balloc image g.freeblock
  some { g with image }

def main (files : List File) : Option Globals := do
  let (root, g) ← makeRoot
  let g ← files.foldlM (addFile root) g
  finish g root

end Laboratorio.Xv6.Mkfs
