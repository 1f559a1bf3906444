import Laboratorio.Xv6.Bio.Model
import Laboratorio.Xv6.Log.Model

/-! # Readers, operations and the commit over the buffer cache

Who takes buffers from the cache of `Bio.Model`: `readi` outside of a transaction, the
operations between `begin_op` and `end_op`, and the `commit` that the last `end_op` runs.

* `readi` holds one buffer at a time: `bmap` releases the indirect block before the data block
  is read, and it has no block to allocate.
* An operation holds at most two: `bmap` and `itrunc` keep the indirect block while `balloc` and
  `bfree` read the bitmap or a new block.  It calls `log_write` on a buffer that it holds and has
  released its buffers when it calls `end_op`.
* `commit` is the list of its calls of `bread`, `bwrite` and `brelse`, in order (`commit`).

A process that sleeps in `begin_op` is one whose `begin_op` has no step yet.  The data in the
buffers is left out, and so are the log's panics: such a step does not exist.
-/

namespace Laboratorio.Xv6.BufferUse

open Laboratorio.Lib

def nbuf : Nat := maxOpBlocks * 3

/-- `log.dev`, the device of all inodes. -/
def rootDev : Nat := 1

def blockId (blockno : Nat) : Bio.Id := ⟨rootDev, blockno⟩

/-! ## The calls of `commit` -/

inductive Command
  | bread (blockno : Nat)
  | bwrite (blockno : Nat)
  | brelse (blockno : Nat)
  /-- `log.lh.n = 0` -/
  | clear
  deriving DecidableEq

/-- The loop of `write_log` from `tail` on. -/
def writeLog (start : Nat) : Nat → List Nat → List Command
  | _, [] => []
  | tail, blockno :: rest =>
    [.bread (start + tail + 1), .bread blockno, .bwrite (start + tail + 1), .brelse blockno,
      .brelse (start + tail + 1)] ++ writeLog start (tail + 1) rest

def writeHead (start : Nat) : List Command :=
  [.bread start, .bwrite start, .brelse start]

/-- The loop of `install_trans` from `tail` on. -/
def installTrans (start : Nat) : Nat → List Nat → List Command
  | _, [] => []
  | tail, blockno :: rest =>
    [.bread (start + tail + 1), .bread blockno, .bwrite blockno, .brelse (start + tail + 1),
      .brelse blockno] ++ installTrans start (tail + 1) rest

def commit (start : Nat) (lh : List Nat) : List Command :=
  if 0 < lh.length then
    writeLog start 0 lh ++ writeHead start ++ installTrans start 0 lh ++ [.clear] ++
      writeHead start
  else []

/-! ## The processes -/

inductive Activity
  | idle
  | reading
  /-- In a transaction, with the distinct blocks it has logged. -/
  | inOp (logged : List Nat)
  /-- In `commit`, with the calls still to make. -/
  | commit (rest : List Command)
  deriving DecidableEq

variable {n : Nat} {Data : Type}

structure Kernel (n : Nat) (Data : Type) where
  bio : Bio.Kernel nbuf (Fin n) Data
  lh : List Nat
  outstanding : Nat
  committing : Bool
  procs : Fin n → Activity

inductive Label (n : Nat)
  | readi (p : Fin n)
  | readiReturns (p : Fin n)
  | beginOp (p : Fin n)
  | endOp (p : Fin n)
  | bread (p : Fin n) (blockno : Nat)
  | logWrite (p : Fin n) (b : Fin nbuf)
  | brelse (p : Fin n) (b : Fin nbuf)
  /-- The next call of `commit`, on the buffer it has read. -/
  | command (p : Fin n) (b : Fin nbuf)
  | endCommit (p : Fin n)
  /-- A step inside `bread`, `bwrite` or `brelse`. -/
  | run (p : Fin n)

namespace Kernel

variable (k : Kernel n Data)

def goto (p : Fin n) (activity : Activity) : Kernel n Data :=
  { k with procs := Function.update k.procs p activity }

/-- A call into the buffer cache. -/
def call (label : Bio.Label nbuf (Fin n) Data) : Option (Kernel n Data) :=
  (Bio.step k.bio label).map fun bio => { k with bio }

def held (p : Fin n) : List (Fin nbuf) :=
  (List.finRange nbuf).filter fun b => (k.bio.bufs b).lock = some p

/-- `p` is between two calls into the buffer cache and holds no buffer. -/
def emptyHanded (p : Fin n) : Bool :=
  decide (k.bio.frames p = .idle) && (k.held p).isEmpty

/-- How many buffers a process of that kind has when it calls `bread`. -/
def mayRead (p : Fin n) : Bool :=
  match k.procs p with
  | .reading => decide ((k.held p).length < 1)
  | .inOp _ => decide ((k.held p).length < 2)
  | _ => false

/-- The operation is over: the last one commits. -/
def leaveOp (start : Nat) (p : Fin n) : Kernel n Data :=
  if k.outstanding - 1 = 0 then
    { k.goto p (.commit (commit start k.lh)) with outstanding := 0, committing := true }
  else { k.goto p .idle with outstanding := k.outstanding - 1 }

/-- `log_write` with its checks; the log is `nlog` blocks from `start` on. -/
def logWrite (start : Nat) (p : Fin n) (b : Fin nbuf) (logged : List Nat) :
    Option (Kernel n Data) :=
  let blockno := (k.bio.bufs b).id.blockno
  if logSize ≤ k.lh.length ∨ nlog - 1 ≤ k.lh.length ∨ k.outstanding < 1 then none
  -- operations log blocks of inodes, of the bitmap and of data
  else if start ≤ blockno ∧ blockno < start + nlog then none
  else (k.call (.logWrite p b)).map fun k =>
    { k.goto p (.inOp (if blockno ∈ logged then logged else logged ++ [blockno])) with
      lh := if blockno ∈ k.lh then k.lh else k.lh ++ [blockno] }

/-- The next call of `commit`. -/
def command (p : Fin n) (b : Fin nbuf) : Command → Option (Kernel n Data)
  | .bread blockno => k.call (.bread p (blockId blockno))
  | .bwrite blockno =>
    if (k.bio.bufs b).id = blockId blockno then k.call (.bwrite p b) else none
  | .brelse blockno =>
    if (k.bio.bufs b).id = blockId blockno then k.call (.brelse p b) else none
  | .clear => if k.bio.frames p = .idle then some { k with lh := [] } else none

end Kernel

def step (start : Nat) (k : Kernel n Data) : Label n → Option (Kernel n Data)
  | .readi p => if k.procs p = .idle then some (k.goto p .reading) else none
  | .readiReturns p =>
    if k.procs p = .reading ∧ k.emptyHanded p then some (k.goto p .idle) else none
  | .beginOp p =>
    if k.procs p = .idle ∧ k.committing = false ∧
        k.lh.length + (k.outstanding + 1) * maxOpBlocks ≤ logSize then
      some { k.goto p (.inOp []) with outstanding := k.outstanding + 1 }
    else none
  | .endOp p =>
    match k.procs p with
    | .inOp _ => if k.emptyHanded p ∧ k.committing = false then some (k.leaveOp start p) else none
    | _ => none
  | .bread p blockno => if k.mayRead p then k.call (.bread p (blockId blockno)) else none
  | .logWrite p b =>
    match k.procs p with
    | .inOp logged => k.logWrite start p b logged
    | _ => none
  | .brelse p b =>
    match k.procs p with
    | .reading | .inOp _ => k.call (.brelse p b)
    | _ => none
  | .command p b =>
    match k.procs p with
    | .commit (command :: rest) => (k.command p b command).map fun k => k.goto p (.commit rest)
    | _ => none
  | .endCommit p =>
    if k.procs p = .commit [] ∧ k.emptyHanded p then
      some { k.goto p .idle with committing := false }
    else none
  | .run p => k.call (.run p)

/-- After `binit` and `initlog`, before any process uses the file system. -/
structure Initial (k : Kernel n Data) : Prop where
  bio : Bio.Initial k.bio
  lh : k.lh = []
  outstanding : k.outstanding = 0
  committing : k.committing = false
  idle : ∀ p, k.procs p = .idle

def system (start : Nat) : System (Kernel n Data) (Label n) where
  init := Initial
  step := step start

/-- Every operation logs at most `MAXOPBLOCKS` distinct blocks. -/
def withinOp (k : Kernel n Data) : Label n → Bool
  | .logWrite p b =>
    match k.procs p with
    | .inOp logged =>
      decide ((k.bio.bufs b).id.blockno ∈ logged ∨ logged.length < maxOpBlocks)
    | _ => true
  | _ => true

/-- The next call of `p` is `bread` of a block. -/
def Kernel.Asks (k : Kernel n Data) (p : Fin n) (blockno : Nat) : Prop :=
  k.bio.frames p = .idle ∧
    (k.mayRead p = true ∨ ∃ rest, k.procs p = .commit (.bread blockno :: rest))

end Laboratorio.Xv6.BufferUse
