import Mathlib.Algebra.Ring.Int.Defs
import Mathlib.Algebra.Ring.Nat
import Laboratorio.Lib.System
import Laboratorio.Xv6.Ftable.Model

/-! # Physical pages (`kalloc.c`, `vm.c`, `exec.c`, `proc.c`)

The page allocator, the page tables and the calls that take pages and give them back.

* Addresses are cut to page numbers wherever the code works with whole pages; sizes and the
  stack pointer of `exec` stay in bytes.
* A page table page is kept with its entries, so an entry exists only while the page that
  holds it is in its directory.  Of an entry, only the page and `PTE_U` are kept.
* `none` is a panic, or a read of memory that is not there: the call has no result.
* Every call carries the outcomes of its `kalloc`s: `true` makes the next one fail although
  a page may be free.
* `exec` is given the parts of the file that it reads and where the caller's argument strings
  are; the contents of user memory are not modelled.
-/

namespace Laboratorio.Xv6.Mem

open Laboratorio.Lib Laboratorio.Xv6.Ftable Function

def pgsize : Nat := 4096

abbrev npdentries : Nat := 1024

abbrev nptentries : Nat := 1024

/-- The page numbers of `KERNBASE`, `EXTMEM`, `PHYSTOP` and `DEVSPACE`. -/
def kernPage : Nat := kernbase / pgsize
def extPage : Nat := 0x100000 / pgsize
def stopPage : Nat := 0xE000000 / pgsize
def devPage : Nat := 0xFE000000 / pgsize

/-- The pages of the address space. -/
def topPage : Nat := npdentries * nptentries

/-- The page number of `PGROUNDUP(size)`. -/
def pagesUp (size : Nat) : Nat := (size + pgsize - 1) / pgsize

def sub32 (a b : Nat) : Nat := (a + 2 ^ 32 - b % 2 ^ 32) % 2 ^ 32

/-- Where the linker put the kernel: the pages of `data` and of `end`.  The kernel lies in
the first four megabytes, above `EXTMEM`. -/
structure Machine where
  data : Nat
  kernelEnd : Nat
  above : extPage < data
  ordered : data ≤ kernelEnd
  low : kernelEnd < nptentries

/-- A kernel that ends a little above one megabyte. -/
def smallKernel : Machine := ⟨266, 278, by decide, by decide, by decide⟩

/-! ## The allocator -/

structure Heap where
  free : List Nat
  fails : List Bool

abbrev M := StateT Heap Option

/-- What `kfree` accepts. -/
def Machine.managed (machine : Machine) (page : Nat) : Bool :=
  decide (machine.kernelEnd ≤ page) && decide (page < stopPage)

def kfree (machine : Machine) (page : Nat) : M Unit := fun heap =>
  if machine.managed page then some ((), { heap with free := page :: heap.free }) else none

def kalloc : M (Option Nat) := fun heap =>
  match heap.fails with
  | true :: fails => some (none, { heap with fails })
  | fails =>
    match heap.free with
    | [] => some (none, { heap with fails := fails.tail })
    | page :: free => some (some page, ⟨free, fails.tail⟩)

/-! ## Page tables -/

structure Pte where
  page : Nat
  user : Bool
deriving DecidableEq

structure PageTable where
  page : Nat
  entries : Fin nptentries → Option Pte

structure Vm where
  pgdir : Nat
  tables : Fin npdentries → Option PageTable

def pdx (v : Nat) : Fin npdentries := ⟨v / nptentries % npdentries, Nat.mod_lt _ (by decide)⟩

def ptx (v : Nat) : Fin nptentries := ⟨v % nptentries, Nat.mod_lt _ (by decide)⟩

namespace Vm

variable (vm : Vm)

def entry (v : Nat) : Option Pte :=
  (vm.tables (pdx v)).bind fun table => table.entries (ptx v)

def setTable (d : Fin npdentries) (table : Option PageTable) : Vm :=
  { vm with tables := update vm.tables d table }

def setEntry (v : Nat) (pte : Option Pte) : Vm :=
  vm.setTable (pdx v) ((vm.tables (pdx v)).map fun table =>
    { table with entries := update table.entries (ptx v) pte })

end Vm

/-- `walkpgdir(pgdir, va, 1)`; `false` when it returns 0. -/
def walkpgdir (vm : Vm) (v : Nat) : M (Bool × Vm) :=
  match vm.tables (pdx v) with
  | some _ => pure (true, vm)
  | none => do
    match ← kalloc with
    | none => pure (false, vm)
    | some page => pure (true, vm.setTable (pdx v) (some ⟨page, fun _ => none⟩))

def mapPage (vm : Vm) (v page : Nat) (user : Bool) : M (Bool × Vm) := do
  let found ← walkpgdir vm v
  if found.1 then
    if (found.2.entry v).isSome then failure
    else pure (true, found.2.setEntry v (some ⟨page, user⟩))
  else pure (false, found.2)

/-- `mappages` for a number of pages; `false` for -1. -/
def mappages : Nat → Vm → Nat → Nat → Bool → M (Bool × Vm)
  | 0, vm, _, _, _ => pure (true, vm)
  | count + 1, vm, v, page, user => do
    let mapped ← mapPage vm v page user
    if mapped.1 then mappages count mapped.2 (v + 1) (page + 1) user else pure (false, mapped.2)

section

variable (machine : Machine)

/-- The loop of `deallocuvm`: it skips what a missing page table would map. -/
def deallocPages : Nat → Vm → Nat → Nat → M Vm
  | 0, vm, a, stop => if a < stop then failure else pure vm
  | fuel + 1, vm, a, stop =>
    if a < stop then
      match vm.tables (pdx a) with
      | none => deallocPages fuel vm ((a / nptentries + 1) * nptentries) stop
      | some table =>
        match table.entries (ptx a) with
        | none => deallocPages fuel vm (a + 1) stop
        | some pte =>
          if pte.page = 0 then failure
          else do
            kfree machine pte.page
            deallocPages fuel (vm.setEntry a none) (a + 1) stop
    else pure vm

def deallocuvm (vm : Vm) (oldsz newsz : Nat) : M (Nat × Vm) :=
  if newsz ≥ oldsz then pure (oldsz, vm)
  else do
    let vm ← deallocPages machine (pagesUp oldsz) vm (pagesUp newsz) (pagesUp oldsz)
    pure (newsz, vm)

/-- The loop of `allocuvm` for the pages that are left. -/
def allocPages (oldsz newsz : Nat) : Nat → Vm → Nat → M (Nat × Vm)
  | 0, vm, _ => pure (newsz, vm)
  | count + 1, vm, a => do
    match ← kalloc with
    | none => do
      let shrunk ← deallocuvm machine vm newsz oldsz
      pure (0, shrunk.2)
    | some mem => do
      let mapped ← mappages 1 vm a mem true
      if mapped.1 then allocPages oldsz newsz count mapped.2 (a + 1)
      else do
        let shrunk ← deallocuvm machine mapped.2 newsz oldsz
        kfree machine mem
        pure (0, shrunk.2)

def allocuvm (vm : Vm) (oldsz newsz : Nat) : M (Nat × Vm) :=
  if newsz ≥ kernbase then pure (0, vm)
  else if newsz < oldsz then pure (oldsz, vm)
  else allocPages machine oldsz newsz (pagesUp newsz - pagesUp oldsz) vm (pagesUp oldsz)

/-- The loop of `freevm` over the page directory. -/
def freeTables (vm : Vm) : List (Fin npdentries) → M Unit
  | [] => pure ()
  | d :: rest =>
    match vm.tables d with
    | none => freeTables vm rest
    | some table => do
      kfree machine table.page
      freeTables vm rest

def freevm (vm : Vm) : M Unit := do
  let emptied ← deallocuvm machine vm kernbase 0
  freeTables machine emptied.2 (List.finRange npdentries)
  kfree machine emptied.2.pgdir

/-- `kmap`: first page, number of pages, first physical page. -/
def Machine.kmap : List (Nat × Nat × Nat) :=
  [(kernPage, extPage, 0),
   (kernPage + extPage, machine.data - extPage, extPage),
   (kernPage + machine.data, stopPage - machine.data, machine.data),
   (devPage, topPage - devPage, devPage)]

def mapKernel : List (Nat × Nat × Nat) → Vm → M (Option Vm)
  | [], vm => pure (some vm)
  | (virt, count, phys) :: rest, vm => do
    let mapped ← mappages count vm virt phys false
    if mapped.1 then mapKernel rest mapped.2
    else do
      freevm machine mapped.2
      pure none

def setupkvm : M (Option Vm) := do
  match ← kalloc with
  | none => pure none
  | some pgdir => mapKernel machine machine.kmap ⟨pgdir, fun _ => none⟩

def copyPages (vm : Vm) : Nat → Vm → Nat → M (Option Vm)
  | 0, d, _ => pure (some d)
  | count + 1, d, i =>
    match vm.entry i with
    | none => failure
    | some pte => do
      match ← kalloc with
      | none => do
        freevm machine d
        pure none
      | some mem => do
        let mapped ← mappages 1 d i mem pte.user
        if mapped.1 then copyPages vm count mapped.2 (i + 1)
        else do
          kfree machine mem
          freevm machine mapped.2
          pure none

def copyuvm (vm : Vm) (sz : Nat) : M (Option Vm) := do
  match ← setupkvm machine with
  | none => pure none
  | some d => copyPages machine vm (pagesUp sz) d 0

end

/-! ## Copying to user memory -/

/-- `copyout`.  Where there is no page table, `uva2ka` reads through the null pointer that
`walkpgdir` returns: there is no result. -/
def copyout (vm : Vm) (va len : Nat) : Option Bool :=
  if len = 0 then some true
  else
    let offset := va % pgsize
    match vm.tables (pdx (va / pgsize)) with
    | none => none
    | some table =>
      match table.entries (ptx (va / pgsize)) with
      | none => some false
      | some pte =>
        if pte.user then
          copyout vm ((va - offset + pgsize) % 2 ^ 32) (len - min (pgsize - offset) len)
        else some false
termination_by len
decreasing_by
  have inPage : va % pgsize < pgsize := Nat.mod_lt va (by decide)
  omega

/-! ## Exec -/

/-- A program header, whether it can be read, and whether its contents can. -/
structure Segment where
  readable : Bool
  load : Bool
  vaddr : UInt32
  memsz : UInt32
  filesz : UInt32
  loads : Bool

/-- An argument: where its string is in the caller's memory. -/
structure Arg where
  addr : Nat
  length : Nat

/-- What one call of `exec` reads: the file, with `valid` for its header, and the argument
strings. -/
structure Image where
  found : Bool
  valid : Bool
  segments : List Segment
  args : List Arg

/-- `loaduvm`: every page of the segment must be mapped. -/
def loaduvm (vm : Vm) (segment : Segment) : Option Bool :=
  if (List.range (pagesUp segment.filesz.toNat)).all fun i =>
      (vm.tables (pdx (segment.vaddr.toNat / pgsize + i))).isSome then some segment.loads
  else none

section

variable (machine : Machine)

/-- The loop over the program headers.  `none` is `goto bad` with the directory to free. -/
def loadSegments : List Segment → Vm → Nat → M (Option Nat × Vm)
  | [], vm, sz => pure (some sz, vm)
  | segment :: rest, vm, sz =>
    if !segment.readable then pure (none, vm)
    else if !segment.load then loadSegments rest vm sz
    else if segment.memsz < segment.filesz then pure (none, vm)
    else if segment.vaddr + segment.memsz < segment.vaddr then pure (none, vm)
    else do
      let grown ← allocuvm machine vm sz (segment.vaddr + segment.memsz).toNat
      if grown.1 = 0 then pure (none, grown.2)
      else if segment.vaddr.toNat % pgsize ≠ 0 then pure (none, grown.2)
      else do
        let loaded ← loaduvm grown.2 segment
        if loaded then loadSegments rest grown.2 grown.1 else pure (none, grown.2)

/-- The loop that pushes the argument strings; returns the stack pointer. -/
def pushArgs (vm : Vm) : List Arg → Nat → Option (Option Nat)
  | [], sp => some (some sp)
  | arg :: rest, sp => do
    let sp := sub32 sp (arg.length + 1) / 4 * 4
    if ← copyout vm sp (arg.length + 1) then pushArgs vm rest sp else some none

/-- The strings and the array of pointers to them. -/
def pushStack (vm : Vm) (args : List Arg) (sp : Nat) : Option Bool := do
  match ← pushArgs vm args sp with
  | none => some false
  | some sp =>
    let len := (3 + args.length + 1) * 4
    copyout vm (sub32 sp len) len

/-- `exec` once it has a page directory: the new size, or none for `goto bad`. -/
def buildImage (image : Image) (vm : Vm) : M (Option Nat × Vm) := do
  let loaded ← loadSegments machine image.segments vm 0
  match loaded.1 with
  | none => pure (none, loaded.2)
  | some sz => do
    let top := pagesUp sz * pgsize
    let stacked ← allocuvm machine loaded.2 top (top + 2 * pgsize)
    if stacked.1 = 0 then pure (none, stacked.2)
    else
      let guard := stacked.1 / pgsize - 2
      match stacked.2.entry guard with
      | none => failure
      | some pte => do
        let vm := stacked.2.setEntry guard (some { pte with user := false })
        let pushed ← pushStack vm image.args stacked.1
        pure (if pushed then some stacked.1 else none, vm)

/-- The new address space and its size, or none when `exec` fails. -/
def exec (image : Image) : M (Option (Nat × Vm)) :=
  if !image.found || !image.valid then pure none
  else do
    match ← setupkvm machine with
    | none => pure none
    | some vm => do
      let built ← buildImage machine image vm
      match built.1 with
      | none => do
        freevm machine built.2
        pure none
      | some sz => pure (some (sz, built.2))

end

/-! ## Processes -/

structure Proc where
  kstack : Nat
  vm : Vm
  sz : Nat
  parent : Pid
  zombie : Bool

/-- A slot without a process is `UNUSED`.  `kpgdir` and `cpuStacks` are the pages taken at
boot. -/
structure Kernel where
  free : List Nat
  procs : Pid → Option Proc
  table : Table Unit
  kpgdir : Vm
  cpuStacks : List Nat

def initproc : Pid := ⟨0, nproc_pos⟩

inductive Call where
  | fork
  | exec (image : Image)
  | sbrk (n : Int)
  | pipe (fd : Nat)
  | close (fd : Nat)
  | exit
  | wait

structure Label where
  pid : Pid
  call : Call
  fails : List Bool

namespace Kernel

variable (k : Kernel)

def setProc (p : Pid) (proc : Option Proc) : Kernel :=
  { k with procs := update k.procs p proc }

def freeSlot : Option Pid :=
  (List.finRange nproc).find? fun p => (k.procs p).isNone

/-- The first child of a process that has exited. -/
def zombieChild (p : Pid) : Option (Pid × Proc) :=
  (List.finRange nproc).findSome? fun q =>
    (k.procs q).bind fun proc => if proc.parent = p ∧ proc.zombie then some (q, proc) else none

def hasChild (p : Pid) : Bool :=
  (List.finRange nproc).any fun q => (k.procs q).any fun proc => proc.parent = p

end Kernel

section

variable (machine : Machine)

/-- The pages of the pipes that closing files let go of. -/
def freePipes : List (Released Unit) → M Unit
  | [] => pure ()
  | .page page :: rest => do
    kfree machine page
    freePipes rest
  | .nothing :: rest => freePipes rest
  | .inode _ :: rest => freePipes rest

def fork (k : Kernel) (p : Pid) (proc : Proc) : M Kernel :=
  match k.freeSlot with
  | none => pure k
  | some child => do
    match ← kalloc with
    | none => pure k
    | some kstack => do
      match ← copyuvm machine proc.vm proc.sz with
      | none => do
        kfree machine kstack
        pure k
      | some vm =>
        match Table.copySlots p child (List.finRange nofile) k.table with
        | none => failure
        | some table =>
          pure { k.setProc child (some ⟨kstack, vm, proc.sz, p, false⟩) with table }

/-- `fetchstr` finds the string's end inside the caller's memory. -/
def Arg.fetched (sz : Nat) (arg : Arg) : Bool :=
  decide (arg.addr + arg.length < sz)

/-- `sys_exec`: at most `MAXARG - 1` arguments. -/
def sysExec (k : Kernel) (p : Pid) (proc : Proc) (image : Image) : M Kernel :=
  if image.args.all (Arg.fetched proc.sz) && decide (image.args.length < maxArg) then do
    match ← exec machine image with
    | none => pure k
    | some (sz, vm) => do
      freevm machine proc.vm
      pure (k.setProc p (some { proc with vm, sz }))
  else pure k

/-- `growproc`: the size that `sbrk` asks for is an unsigned sum. -/
def growproc (k : Kernel) (p : Pid) (proc : Proc) (n : Int) : M Kernel :=
  let size := (((proc.sz : Int) + n) % 2 ^ 32).toNat
  if 0 < n then do
    let grown ← allocuvm machine proc.vm proc.sz size
    pure (k.setProc p (some
      { proc with vm := grown.2, sz := if grown.1 = 0 then proc.sz else grown.1 }))
  else if n < 0 then do
    let shrunk ← deallocuvm machine proc.vm proc.sz size
    pure (k.setProc p (some
      { proc with vm := shrunk.2, sz := if shrunk.1 = 0 then proc.sz else shrunk.1 }))
  else pure k

/-- `sys_pipe`; `fd` is where the caller wants the two descriptors. -/
def sysPipe (k : Kernel) (p : Pid) (proc : Proc) (fd : Nat) : M Kernel :=
  if proc.sz ≤ fd ∨ proc.sz < fd + 8 then pure k
  else
    match k.table.reserve with
    | none => failure
    | some (none, released, table) => do
      freePipes machine released
      pure { k with table }
    | some (some (rf, wf), _, table) => do
      match ← kalloc with
      | none =>
        match table.closeBoth rf wf with
        | none => failure
        | some (released, table) => do
          freePipes machine released
          pure { k with table }
      | some page =>
        match (table.connect rf wf page).attach p rf wf with
        | none => failure
        | some (_, released, table) => do
          freePipes machine released
          pure { k with table }

def sysClose (k : Kernel) (p : Pid) (fd : Nat) : M Kernel :=
  match k.table.close p fd with
  | none => failure
  | some (released, table) => do
    freePipes machine [released]
    pure { k with table }

/-- The loop of `exit` over the descriptors. -/
def closeFiles (p : Pid) : List Fd → Table Unit → M (Table Unit)
  | [], table => pure table
  | fd :: rest, table =>
    match table.closeSlot p fd with
    | none => failure
    | some (released, table) => do
      freePipes machine [released]
      closeFiles p rest table

/-- Children of a process that exits are given to `initproc`. -/
def Kernel.abandon (k : Kernel) (p : Pid) : Kernel :=
  { k with
    procs := fun q => (k.procs q).map fun proc =>
      if proc.parent = p then { proc with parent := initproc } else proc }

def exit (k : Kernel) (p : Pid) (proc : Proc) : M Kernel :=
  if p = initproc then failure
  else do
    let table ← closeFiles machine p (List.finRange nofile) k.table
    pure { (k.setProc p (some { proc with zombie := true })).abandon p with table }

/-- `wait` has no result while the process sleeps. -/
def wait (k : Kernel) (p : Pid) : M Kernel :=
  match k.zombieChild p with
  | some (child, proc) => do
    kfree machine proc.kstack
    freevm machine proc.vm
    pure (k.setProc child none)
  | none => if k.hasChild p then failure else pure k

def call (k : Kernel) (p : Pid) (proc : Proc) : Call → M Kernel
  | .fork => fork machine k p proc
  | .exec image => sysExec machine k p proc image
  | .sbrk n => growproc machine k p proc n
  | .pipe fd => sysPipe machine k p proc fd
  | .close fd => sysClose machine k p fd
  | .exit => exit machine k p proc
  | .wait => wait machine k p

/-- One call, from beginning to end. -/
def step (k : Kernel) (label : Label) : Option Kernel :=
  match k.procs label.pid with
  | none => none
  | some proc =>
    if proc.zombie then none
    else
      match call machine k label.pid proc label.call ⟨k.free, label.fails⟩ with
      | none => none
      | some (k', heap) => some { k' with free := heap.free }

/-! ## Boot -/

def freerange : Nat → Nat → M Unit
  | 0, _ => pure ()
  | count + 1, page => do
    kfree machine page
    freerange count (page + 1)

/-- The stacks that `startothers` takes. -/
def takeStacks : Nat → M (List Nat)
  | 0 => pure []
  | others + 1 => do
    match ← kalloc with
    | none => failure
    | some page => do
      let rest ← takeStacks others
      pure (page :: rest)

def userinit : M Proc := do
  match ← kalloc with
  | none => failure
  | some kstack => do
    match ← setupkvm machine with
    | none => failure
    | some vm => do
      match ← kalloc with
      | none => failure
      | some mem => do
        let mapped ← mappages 1 vm 0 mem true
        if mapped.1 then pure ⟨kstack, mapped.2, pgsize, initproc, false⟩ else failure

/-- `main`, with a number of other processors. -/
def main (others : Nat) : M (Vm × List Nat × Proc) := do
  freerange machine (nptentries - machine.kernelEnd) machine.kernelEnd
  match ← setupkvm machine with
  | none => failure
  | some kpgdir => do
    let cpuStacks ← takeStacks others
    freerange machine (stopPage - nptentries) nptentries
    let proc ← userinit machine
    pure (kpgdir, cpuStacks, proc)

def boot (others : Nat) : Option Kernel :=
  match main machine others ⟨[], []⟩ with
  | none => none
  | some ((kpgdir, cpuStacks, proc), heap) =>
    some
      { free := heap.free
        procs := fun p => if p = initproc then some proc else none
        table := Table.empty Unit
        kpgdir
        cpuStacks }

def system (others : Nat) : System Kernel Label where
  init k := boot machine others = some k
  step := step machine

end

end Laboratorio.Xv6.Mem
