import Laboratorio.Lib.Pieces
import Laboratorio.Lib.System
import Laboratorio.Xv6.Inode.Consistency

/-! # Writes through a shared entry of the file table (`filewrite`, `file.c`)

Processes call `filewrite` on one entry of type `FD_INODE`, which is writable, for the inode
`inum`.  The entry holds `off`; the inode is locked and written through the operations of
`Inode.Model`.  A process takes one step at a time, so the calls interleave anywhere: the
lock of the inode is the only thing that holds a process up.  `writei` is one step, since
every other process that would touch the inode waits for the lock; `begin_op` waits for the
log, which keeps no process from any order of its steps, and has no state here.

`calls` are the bytes of the calls made so far, numbered in the order in which they were
made, `results` their return values (`none` for -1) and `written` the chunks in the order in
which `writei` wrote them.
-/

namespace Laboratorio.Xv6.SharedFile

open Laboratorio.Lib Laboratorio.Xv6.Inodes

variable {Pid : Type} [DecidableEq Pid]

/-- `max` of `filewrite`. -/
def maxChunk : Nat := (maxOpBlocks - 1 - 1 - 2) / 2 * 512

/-- The arguments and the local variable `i` of a call. -/
structure Call where
  number : Nat
  src : List UInt8
  i : Nat
  deriving DecidableEq

namespace Call

def n1 (call : Call) : Nat :=
  if maxChunk < call.src.length - call.i then maxChunk else call.src.length - call.i

/-- The `n1` bytes from `addr + i` on. -/
def chunk (call : Call) : List UInt8 :=
  (call.src.drop call.i).take call.n1

end Call

/-- Where a process is; `r` is what `writei` returned. -/
inductive Position
  | idle
  /-- Before the test `i < n`. -/
  | loop (call : Call)
  /-- After `begin_op`. -/
  | begun (call : Call)
  /-- After `ilock`. -/
  | locked (call : Call)
  /-- After `writei`, before `f->off += r`. -/
  | wrote (call : Call) (r : Option Nat)
  /-- Before `iunlock`. -/
  | advanced (call : Call) (r : Option Nat)
  /-- After `iunlock`, before `end_op`. -/
  | unlocked (call : Call) (r : Option Nat)
  /-- After `end_op`. -/
  | ended (call : Call) (r : Option Nat)
  deriving DecidableEq

structure Kernel (Pid : Type) where
  fs : FileSystem
  off : Nat
  procs : Pid → Position
  calls : List (List UInt8)
  results : Nat → Option (Option Nat)
  written : Pieces UInt8

namespace Kernel

variable (k : Kernel Pid)

def goto (p : Pid) (position : Position) : Kernel Pid :=
  { k with procs := Function.update k.procs p position }

def ret (p : Pid) (call : Call) (value : Option Nat) : Kernel Pid :=
  { k.goto p .idle with results := Function.update k.results call.number (some value) }

/-- `writei(f->ip, addr + i, f->off, n1)` on the inode in memory; no result when it panics. -/
def write (inum : Nat) (p : Pid) (call : Call) : Option (Kernel Pid) :=
  match (k.fs.icache inum).copy with
  | none => none
  | some ip =>
    match writei k.fs inum ip k.off call.chunk with
    | .error _ => none
    | .ok (r, fs, ip) =>
      let stored := { k with fs := fs.setEntry inum { fs.icache inum with copy := some ip } }
      match r with
      | some r =>
        some { stored.goto p (.wrote call (some r)) with
          written := k.written ++ [(call.number, call.chunk)] }
      | none => some (stored.goto p (.wrote call none))

def run (inum : Nat) (p : Pid) : Option (Kernel Pid) :=
  match k.procs p with
  | .idle => none
  | .loop call =>
    if call.i < call.src.length then some (k.goto p (.begun call))
    -- `return i == n ? n : -1`
    else some (k.ret p call (if call.i = call.src.length then some call.src.length else none))
  | .begun call =>
    if (k.fs.icache inum).locked then none
    else match ilock k.fs inum with
      | .ok fs => some { k.goto p (.locked call) with fs }
      | .error _ => none
  | .locked call => k.write inum p call
  | .wrote call r =>
    match r with
    | some r => some { k.goto p (.advanced call (some r)) with off := k.off + r }
    | none => some (k.goto p (.advanced call none))
  | .advanced call r => some { k.goto p (.unlocked call r) with fs := iunlock k.fs inum }
  | .unlocked call r => some (k.goto p (.ended call r))
  | .ended call r =>
    match r with
    -- `break`, with `i` below `n`
    | none => some (k.ret p call (if call.i = call.src.length then some call.src.length else none))
    | some r =>
      -- otherwise `panic("short filewrite")`
      if r = call.n1 then some (k.goto p (.loop { call with i := call.i + r })) else none

def call (p : Pid) (src : List UInt8) : Option (Kernel Pid) :=
  match k.procs p with
  | .idle =>
    some { k.goto p (.loop ⟨k.calls.length, src, 0⟩) with calls := k.calls ++ [src] }
  | _ => none

end Kernel

inductive Label (Pid : Type)
  | call (p : Pid) (src : List UInt8)
  | run (p : Pid)

/-- The entry starts at the beginning of an empty regular file. -/
structure Initial (inum : Nat) (k : Kernel Pid) : Prop where
  consistent : Consistent k.fs
  marked : MetadataMarked k.fs
  off : k.off = 0
  procs : ∀ p, k.procs p = .idle
  calls : k.calls = []
  results : ∀ number, k.results number = none
  written : k.written = []
  ref : 0 < (k.fs.icache inum).ref
  unlocked : (k.fs.icache inum).locked = false
  empty : ∃ dip, k.fs.dinodes inum = some dip ∧ dip.type = .file ∧ dip.size = 0

def system (inum : Nat) : System (Kernel Pid) (Label Pid) where
  init := Initial inum
  step k
    | .call p src => k.call p src
    | .run p => k.run inum p

end Laboratorio.Xv6.SharedFile
