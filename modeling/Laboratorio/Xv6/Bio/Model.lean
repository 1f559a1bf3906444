import Laboratorio.Lib.LinkedRing
import Laboratorio.Lib.System

/-! # The buffer cache of `bio.c`

Processes call `bread`, `bwrite`, `log_write` and `brelse`, and change the data of the buffers
they hold.  `commit` of `log.c` is such a process: it reads blocks, copies one buffer to another,
and writes and releases them.  What runs under `bcache.lock` is one step, and so is every
other operation on a lock, a flag or the disk; `iderw` transfers one block as its comment
says.  A step that would panic does not exist.

The buffers are linked in a ring through `bcache.head`, which is `none`.

Four fields are history: whether `bget` has ever handed a buffer out (`used`), whether the data
has been changed without a `log_write` or `bwrite` since (`pending`), what the last holder of a
block left in it (`left`; the contents of the disk if there was none), and whether a block has
been changed since it was last written to the disk (`changed`).
-/

namespace Laboratorio.Xv6.Bio

open Laboratorio.Lib Function
open Laboratorio.Lib.LinkedRing (Links scan)

/-- `dev` and `blockno` -/
structure Id where
  dev : Nat
  blockno : Nat
  deriving DecidableEq

structure Buf (Proc Data : Type) where
  id : Id
  /-- `B_VALID` -/
  valid : Bool
  /-- `B_DIRTY` -/
  dirty : Bool
  refcnt : Nat
  /-- Who holds the sleep lock. -/
  lock : Option Proc
  data : Data
  used : Bool
  pending : Bool

/-- Where a process is.  `acquiring` to `returns` are inside `bread` of block `id`: in
`acquiresleep`, at the test of `B_VALID`, in `iderw`, at the return.  `writing` is in the `iderw`
of `bwrite`, and `releasing` in `brelse` after `releasesleep`. -/
inductive Frame (nbuf : Nat)
  | idle
  | acquiring (b : Fin nbuf) (id : Id)
  | testing (b : Fin nbuf) (id : Id)
  | reading (b : Fin nbuf) (id : Id)
  | returns (b : Fin nbuf) (id : Id)
  | writing (b : Fin nbuf)
  | releasing (b : Fin nbuf)
  deriving DecidableEq

structure Kernel (nbuf : Nat) (Proc Data : Type) where
  bufs : Fin nbuf → Buf Proc Data
  links : Links (Fin nbuf)
  disk : Id → Data
  frames : Proc → Frame nbuf
  left : Id → Data
  changed : Id → Bool

inductive Label (nbuf : Nat) (Proc Data : Type)
  | bread (p : Proc) (id : Id)
  | modify (p : Proc) (b : Fin nbuf) (data : Data)
  | logWrite (p : Proc) (b : Fin nbuf)
  | bwrite (p : Proc) (b : Fin nbuf)
  | brelse (p : Proc) (b : Fin nbuf)
  | run (p : Proc)

variable {nbuf : Nat} {Proc Data : Type} [DecidableEq Proc]

namespace Kernel

def setBuf (k : Kernel nbuf Proc Data) (b : Fin nbuf) (buf : Buf Proc Data) :
    Kernel nbuf Proc Data :=
  { k with bufs := update k.bufs b buf }

def goto (k : Kernel nbuf Proc Data) (p : Proc) (frame : Frame nbuf) : Kernel nbuf Proc Data :=
  { k with frames := update k.frames p frame }

/-- The first loop of `bget`. -/
def lookup (k : Kernel nbuf Proc Data) (id : Id) : Option (Fin nbuf) :=
  scan k.links.next (fun b => (k.bufs b).id = id) nbuf (k.links.next none)

/-- The second loop of `bget`. -/
def unused (k : Kernel nbuf Proc Data) : Option (Fin nbuf) :=
  scan k.links.prev (fun b => (k.bufs b).refcnt = 0 && !(k.bufs b).dirty) nbuf (k.links.prev none)

/-- `bget` up to its `acquiresleep`. -/
def bget (k : Kernel nbuf Proc Data) (p : Proc) (id : Id) : Option (Kernel nbuf Proc Data) :=
  match k.lookup id with
  | some b =>
    let buf := k.bufs b
    some ((k.setBuf b { buf with refcnt := buf.refcnt + 1, used := true }).goto p
      (.acquiring b id))
  | none =>
    match k.unused with
    | some b =>
      let buf := k.bufs b
      some ((k.setBuf b
        { buf with id, valid := false, dirty := false, refcnt := 1, used := true }).goto p
          (.acquiring b id))
    | none => none

/-- Sync a buffer with the disk. -/
def iderw (k : Kernel nbuf Proc Data) (b : Fin nbuf) : Option (Kernel nbuf Proc Data) :=
  let buf := k.bufs b
  if buf.dirty then
    some
      { k.setBuf b { buf with dirty := false, valid := true } with
        disk := update k.disk buf.id buf.data
        changed := update k.changed buf.id false }
  else if !buf.valid then
    some (k.setBuf b { buf with data := k.disk buf.id, valid := true })
  else none

/-- `b->refcnt--`, and if nobody is waiting for it to the front of the list. -/
def unref (k : Kernel nbuf Proc Data) (b : Fin nbuf) : Kernel nbuf Proc Data :=
  let buf := k.bufs b
  let after := k.setBuf b { buf with refcnt := buf.refcnt - 1 }
  if buf.refcnt - 1 = 0 then { after with links := (k.links.unlink b).pushFront b } else after

def run (k : Kernel nbuf Proc Data) (p : Proc) : Option (Kernel nbuf Proc Data) :=
  match k.frames p with
  | .idle => none
  | .acquiring b id =>
    if (k.bufs b).lock = none then
      some ((k.setBuf b { k.bufs b with lock := some p }).goto p (.testing b id))
    else none
  | .testing b id =>
    if (k.bufs b).valid then some (k.goto p (.returns b id)) else some (k.goto p (.reading b id))
  | .reading b id => (k.iderw b).map fun k => k.goto p (.returns b id)
  | .returns _ _ => some (k.goto p .idle)
  | .writing b => (k.iderw b).map fun k => k.goto p .idle
  | .releasing b => some ((k.unref b).goto p .idle)

end Kernel

/-- `p` is between two calls and holds the buffer. -/
def Kernel.Holding (k : Kernel nbuf Proc Data) (p : Proc) (b : Fin nbuf) : Prop :=
  k.frames p = .idle ∧ (k.bufs b).lock = some p

instance (k : Kernel nbuf Proc Data) (p : Proc) (b : Fin nbuf) : Decidable (k.Holding p b) :=
  inferInstanceAs (Decidable (_ ∧ _))

def step (k : Kernel nbuf Proc Data) : Label nbuf Proc Data → Option (Kernel nbuf Proc Data)
  | .bread p id => if k.frames p = .idle then k.bget p id else none
  | .modify p b data =>
    if k.Holding p b then
      some
        { k.setBuf b { k.bufs b with data, pending := true } with
          changed := update k.changed (k.bufs b).id true }
    else none
  | .logWrite p b =>
    if k.Holding p b then
      some (k.setBuf b { k.bufs b with dirty := true, pending := false })
    else none
  | .bwrite p b =>
    if k.Holding p b then
      some ((k.setBuf b { k.bufs b with dirty := true, pending := false }).goto p (.writing b))
    else none
  | .brelse p b =>
    if k.Holding p b then
      some
        { (k.setBuf b { k.bufs b with lock := none }).goto p (.releasing b) with
          left := update k.left (k.bufs b).id (k.bufs b).data }
    else none
  | .run p => k.run p

/-- Every holder that changes the data calls `log_write` or `bwrite` before `brelse`. -/
def Disciplined (k : Kernel nbuf Proc Data) : Label nbuf Proc Data → Prop
  | .brelse _ b => (k.bufs b).pending = false
  | _ => True

instance (k : Kernel nbuf Proc Data) (label : Label nbuf Proc Data) :
    Decidable (Disciplined k label) := by
  unfold Disciplined
  split <;> infer_instance

/-- The list that `binit` builds; the pointers of the buffers hold anything before. -/
def binit (links : Links (Fin nbuf)) : Links (Fin nbuf) :=
  (List.finRange nbuf).foldl Links.pushFront ((links.setPrev none none).setNext none none)

/-- The buffers are zero except for the list. -/
structure Initial (k : Kernel nbuf Proc Data) : Prop where
  links : ∃ links, k.links = binit links
  id : ∀ b, (k.bufs b).id = ⟨0, 0⟩
  valid : ∀ b, (k.bufs b).valid = false
  dirty : ∀ b, (k.bufs b).dirty = false
  refcnt : ∀ b, (k.bufs b).refcnt = 0
  lock : ∀ b, (k.bufs b).lock = none
  used : ∀ b, (k.bufs b).used = false
  pending : ∀ b, (k.bufs b).pending = false
  idle : ∀ p, k.frames p = .idle
  left : k.left = k.disk
  changed : ∀ id, k.changed id = false

def system : System (Kernel nbuf Proc Data) (Label nbuf Proc Data) where
  init := Initial
  step := step

end Laboratorio.Xv6.Bio
