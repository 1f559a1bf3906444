import Laboratorio.Lib.RedoLog
import Laboratorio.Lib.Words
import Laboratorio.Xv6.Param

/-! # The on-disk side of `log.c`

`commit` and `recover_from_log` as programs over the buffer cache.  `view` is what
`bread` returns for a block: its buffer, or the disk when no buffer holds it.  A
buffer without `B_DIRTY` equals the disk, so recycling one changes no `view`.
`issued` lists the block writes of `bwrite`, oldest first; a crash keeps some of the
first ones.

`log.lh` is the list of the first `lh.n` entries of `lh.block`: the entries beyond are
never read.
-/

namespace Laboratorio.Xv6.Logs

open Laboratorio.Lib

structure Buffers where
  view : Nat → Block
  issued : List (Nat × Block)

namespace Buffers

def bread (bufs : Buffers) (blockno : Nat) : Block :=
  bufs.view blockno

/-- `memmove` into the buffer of a block, then `bwrite`. -/
def bwrite (bufs : Buffers) (blockno : Nat) (data : Block) : Buffers where
  view := Function.update bufs.view blockno data
  issued := bufs.issued ++ [(blockno, data)]

end Buffers

/-- The field `n` of a header block, an `int`. -/
def headN (data : Block) : Int :=
  (Words.get data 0).toInt32.toInt

/-- `hb->n = log.lh.n; hb->block[i] = log.lh.block[i]` in the buffer of the header. -/
def setHead (lh : List Nat) (data : Block) : Block :=
  Words.putAll data 0 (UInt32.ofNat lh.length :: lh.map UInt32.ofNat)

/-- The entries `read_head` copies into `log.lh`. -/
def getHead (data : Block) : List Nat :=
  (Words.getAll data 1 (headN data).toNat).map UInt32.toNat

def readHead (start : Nat) (bufs : Buffers) : List Nat :=
  getHead (bufs.bread start)

def writeHead (start : Nat) (lh : List Nat) (bufs : Buffers) : Buffers :=
  bufs.bwrite start (setHead lh (bufs.bread start))

def writeLog (start : Nat) : Nat → List Nat → Buffers → Buffers
  | _, [], bufs => bufs
  | tail, blockno :: rest, bufs =>
    writeLog start (tail + 1) rest (bufs.bwrite (start + tail + 1) (bufs.bread blockno))

def installTrans (start : Nat) : Nat → List Nat → Buffers → Buffers
  | _, [], bufs => bufs
  | tail, blockno :: rest, bufs =>
    installTrans start (tail + 1) rest (bufs.bwrite blockno (bufs.bread (start + tail + 1)))

def commit (start : Nat) (lh : List Nat) (bufs : Buffers) : Buffers :=
  if 0 < lh.length then
    let logged := writeLog start 0 lh bufs
    let committed := writeHead start lh logged
    let installed := installTrans start 0 lh committed
    writeHead start [] installed
  else bufs

def recoverFromLog (start : Nat) (bufs : Buffers) : Buffers :=
  let lh := readHead start bufs
  let installed := installTrans start 0 lh bufs
  writeHead start [] installed

/-- The buffer cache after a boot. -/
def boot (disk : Nat → Block) : Buffers :=
  ⟨disk, []⟩

/-- The disk after a number of recoveries that crash, each after some of its writes, and
one that completes. -/
def recoverCrashing (start : Nat) (disk : Nat → Block) : List Nat → Nat → Block
  | [] => applyWrites disk (recoverFromLog start (boot disk)).issued
  | count :: rest =>
    recoverCrashing start
      (applyWrites disk ((recoverFromLog start (boot disk)).issued.take count)) rest

/-- The log area, `[logstart, logstart + nlog)`. -/
def InArea (start size blockno : Nat) : Prop :=
  start ≤ blockno ∧ blockno < start + size

/-- What `log.lh` lists when `commit` starts. -/
structure Transaction (start size : Nat) where
  block : List Nat
  some_block : 0 < block.length
  fits_area : block.length ≤ size - 1
  fits_array : block.length ≤ logSize
  distinct : block.Nodup
  home : ∀ blockno ∈ block, ¬ InArea start size blockno
  uint : ∀ blockno ∈ block, blockno < 2 ^ 32

end Laboratorio.Xv6.Logs
