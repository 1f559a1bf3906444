import Mathlib.Data.List.FinRange
import Laboratorio.Xv6.Param

/-! # The file table and the pipes behind it (`file.c`, `pipe.c`, `sysfile.c`)

The open files, the descriptors of the processes that point to them, and the ends of the
pipes that they keep open.  `I` is the type of inode pointers.

* A pipe is known by its page.  Of `struct pipe`, only the two flags that say which ends are
  open are kept here (`Xv6/Pipe` has the rest).
* The result `none` is a panic, or a read of a pipe whose page is not a pipe any more.
* A call that closes files says what they let go of: the page of a pipe, which it has freed,
  or an inode, which it puts.
-/

namespace Laboratorio.Xv6.Ftable

open Function

abbrev Pid := Fin nproc
abbrev Fd := Fin nofile
abbrev FileIndex := Fin nfile

inductive Kind (I : Type) where
  | none
  | pipe (page : Nat)
  | inode (ip : I)
deriving DecidableEq

structure File (I : Type) where
  ref : Nat
  kind : Kind I
  readable : Bool
  writable : Bool
deriving DecidableEq

structure Pipe where
  readopen : Bool
  writeopen : Bool
deriving DecidableEq

/-- `ofile` holds the descriptors of all processes. -/
structure Table (I : Type) where
  files : FileIndex → File I
  ofile : Pid × Fd → Option FileIndex
  pipes : Nat → Option Pipe

/-- What a file that is closed lets go of. -/
inductive Released (I : Type) where
  | nothing
  | page (page : Nat)
  | inode (ip : I)
deriving DecidableEq

namespace Table

variable {I : Type} (t : Table I)

def setFile (f : FileIndex) (file : File I) : Table I :=
  { t with files := update t.files f file }

def setSlot (slot : Pid × Fd) (f : Option FileIndex) : Table I :=
  { t with ofile := update t.ofile slot f }

def setPipe (page : Nat) (pipe : Option Pipe) : Table I :=
  { t with pipes := update t.pipes page pipe }

/-! ## Files -/

def freeFile : Option FileIndex :=
  (List.finRange nfile).find? fun f => decide ((t.files f).ref = 0)

def filealloc : Option FileIndex × Table I :=
  match t.freeFile with
  | some f => (some f, t.setFile f { t.files f with ref := 1 })
  | none => (none, t)

def filedup (f : FileIndex) : Option (Table I) :=
  if (t.files f).ref < 1 then none
  else some (t.setFile f { t.files f with ref := (t.files f).ref + 1 })

/-- The page is freed with the second end. -/
def pipeclose (page : Nat) (writable : Bool) : Option (Released I × Table I) :=
  match t.pipes page with
  | none => none
  | some pipe =>
    let pipe := if writable then { pipe with writeopen := false } else { pipe with readopen := false }
    if pipe.readopen = false ∧ pipe.writeopen = false then some (.page page, t.setPipe page none)
    else some (.nothing, t.setPipe page (some pipe))

/-- `f->ref = 0; f->type = FD_NONE;` -/
def clearFile (f : FileIndex) : Table I :=
  t.setFile f { t.files f with ref := 0, kind := .none }

def fileclose (f : FileIndex) : Option (Released I × Table I) :=
  let ff := t.files f
  if ff.ref < 1 then none
  else if 0 < ff.ref - 1 then some (.nothing, t.setFile f { ff with ref := ff.ref - 1 })
  else
    match ff.kind with
    | .none => some (.nothing, t.clearFile f)
    | .pipe page => (t.clearFile f).pipeclose page ff.writable
    | .inode ip => some (.inode ip, t.clearFile f)

/-! ## Descriptors -/

def freeFd (p : Pid) : Option Fd :=
  (List.finRange nofile).find? fun fd => (t.ofile (p, fd)).isNone

def fdalloc (p : Pid) (f : FileIndex) : Option Fd × Table I :=
  match t.freeFd p with
  | some fd => (some fd, t.setSlot (p, fd) (some f))
  | none => (none, t)

def argfd (p : Pid) (fd : Nat) : Option (Fd × FileIndex) :=
  if bound : fd < nofile then (t.ofile (p, ⟨fd, bound⟩)).map fun f => (⟨fd, bound⟩, f) else none

def dup (p : Pid) (fd : Nat) : Option (Int × Table I) :=
  match t.argfd p fd with
  | none => some (-1, t)
  | some (_, f) =>
    match t.fdalloc p f with
    | (none, t) => some (-1, t)
    | (some fd, t) => (t.filedup f).map fun t => ((fd.val : Int), t)

def close (p : Pid) (fd : Nat) : Option (Released I × Table I) :=
  match t.argfd p fd with
  | none => some (.nothing, t)
  | some (fd, f) => (t.setSlot (p, fd) none).fileclose f

/-- `fileclose(first); fileclose(second);` -/
def closeBoth (first second : FileIndex) : Option (List (Released I) × Table I) :=
  match t.fileclose first with
  | none => none
  | some (released, t) =>
    match t.fileclose second with
    | none => none
    | some (released', t) => some ([released, released'], t)

/-! ## Pipes -/

/-- `pipealloc` up to `kalloc`: two files, or none. -/
def reserve : Option (Option (FileIndex × FileIndex) × List (Released I) × Table I) :=
  match t.filealloc with
  | (none, t) => some (none, [], t)
  | (some rf, t) =>
    match t.filealloc with
    | (none, t) => (t.fileclose rf).map fun (released, t) => (none, [released], t)
    | (some wf, t) => some (some (rf, wf), [], t)

/-- The file becomes an end of a pipe. -/
def setEnd (f : FileIndex) (page : Nat) (writable : Bool) : Table I :=
  t.setFile f { t.files f with kind := .pipe page, readable := !writable, writable }

/-- `pipealloc` from `kalloc` on: the page becomes a pipe and the files its ends. -/
def connect (rf wf : FileIndex) (page : Nat) : Table I :=
  ((t.setPipe page (some ⟨true, true⟩)).setEnd rf page false).setEnd wf page true

/-- `sys_pipe` from `pipealloc` on. -/
def attach (p : Pid) (rf wf : FileIndex) : Option (Int × List (Released I) × Table I) :=
  match t.fdalloc p rf with
  | (none, t) => (t.closeBoth rf wf).map fun (released, t) => (-1, released, t)
  | (some fd0, t) =>
    match t.fdalloc p wf with
    | (none, t) =>
      ((t.setSlot (p, fd0) none).closeBoth rf wf).map fun (released, t) => (-1, released, t)
    | (some _, t) => some (0, [], t)

/-! ## Processes -/

def copySlot (p child : Pid) (fd : Fd) : Option (Table I) :=
  match t.ofile (p, fd) with
  | none => some t
  | some f => (t.filedup f).map fun t => t.setSlot (child, fd) (some f)

def copySlots (p child : Pid) : List Fd → Table I → Option (Table I)
  | [], t => some t
  | fd :: rest, t => (t.copySlot p child fd).bind (copySlots p child rest)

def closeSlot (p : Pid) (fd : Fd) : Option (Released I × Table I) :=
  match t.ofile (p, fd) with
  | none => some (.nothing, t)
  | some f => (t.fileclose f).map fun (released, t) => (released, t.setSlot (p, fd) none)

end Table

def Table.empty (I : Type) : Table I where
  files _ := { ref := 0, kind := .none, readable := false, writable := false }
  ofile _ := none
  pipes _ := none

end Laboratorio.Xv6.Ftable
