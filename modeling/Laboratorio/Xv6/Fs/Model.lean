import Laboratorio.Lib.Prog
import Laboratorio.Xv6.Ftable.Model

/-! # Files, directories and path names (`fs.c`, `file.c`, `sysfile.c`)

The system calls as programs on the inode table, the inode cache, the file table
(`Xv6/Ftable`) and the processes, with the sleep locks of the inodes.

* The contents of a directory are its slots, one per `dirent`; a slot with `inum == 0`
  is `none`.  The contents of files, and the blocks of both, are not modelled here.
* The in-memory inode equals the one in the inode table while it is valid: every change
  of a field is followed by `iupdate` under the inode's lock, and the two are one action
  here.  Only `valid` is kept.
* `iget` keeps one cache entry for an inode number, so a pointer to an inode is its
  number.
* A step that the source takes under `icache.lock` or `ftable.lock`, and a read or a
  write of an inode whose lock is held, is one action.  `begin_op` and `end_op` are left
  out.
* `exec` has the file-system half of the call, `fork` and `pipe` are told whether the
  pages they need are there; `Xv6/Mem` has the other half.

`held`, `births`, `clock`, `allocs` and `frees` are history variables: the references that
a process's current call has taken and not yet dropped or handed over, when an inode was
last allocated, and how often a page has become a pipe and has been freed as one.
-/

namespace Laboratorio.Xv6.Fs

open Laboratorio.Lib Function

abbrev Pid := Ftable.Pid
abbrev Inum := Fin ninodes
abbrev Fd := Ftable.Fd
abbrev FileIndex := Ftable.FileIndex
abbrev Name := List UInt8
abbrev Path := List UInt8

/-! ## The state -/

structure Dirent where
  name : Name
  inum : Inum
  deriving DecidableEq

structure Inode where
  type : FileType
  major : Int
  nlink : Int
  slots : List (Option Dirent)
  deriving DecidableEq

/-- The descriptors of a process are in the file table. -/
structure Proc where
  cwd : Option Inum

structure Kernel where
  dinodes : Inum → Option Inode
  ref : Inum → Nat
  valid : Inum → Bool
  table : Ftable.Table Inum
  procs : Pid → Option Proc
  held : Pid → Inum → Nat
  births : Inum → Nat
  clock : Nat
  allocs : Nat → Nat
  frees : Nat → Nat

inductive Panic
  | igetNoInodes
  | iallocNoInodes
  | ilock
  | ilockNoType
  | iunlock
  | dirlookupNotDir
  | dirlink
  | unlinkNlink
  | createDots
  | createDirlink
  | fileclose
  | filedup
  | fileread
  | filewrite
  | initExiting
  /-- A null current directory would be dereferenced. -/
  | trap
  deriving DecidableEq

abbrev M := Prog Kernel Inum Panic

def rootIno : Inum := ⟨1, by decide⟩

def initproc : Pid := ⟨0, nproc_pos⟩

def slash : UInt8 := 47

/-- `"."` -/
def dot : Name := [46]

/-- `".."` -/
def dotDot : Name := [46, 46]

namespace Kernel

variable (k : Kernel)

/-- A process's call takes a reference to an inode. -/
def addRef (p : Pid) (i : Inum) : Kernel :=
  { k with
    ref := update k.ref i (k.ref i + 1)
    held := update k.held p (update (k.held p) i (k.held p i + 1)) }

def dropRef (p : Pid) (i : Inum) : Kernel :=
  { k with
    ref := update k.ref i (k.ref i - 1)
    held := update k.held p (update (k.held p) i (k.held p i - 1)) }

def setInode (i : Inum) (inode : Option Inode) : Kernel :=
  { k with dinodes := update k.dinodes i inode }

/-- Changes the fields of an allocated inode. -/
def mapInode (i : Inum) (change : Inode → Inode) : Kernel :=
  k.setInode i ((k.dinodes i).map change)

def setValid (i : Inum) (valid : Bool) : Kernel :=
  { k with valid := update k.valid i valid }

def setTable (table : Ftable.Table Inum) : Kernel :=
  { k with table }

def setProc (p : Pid) (proc : Option Proc) : Kernel :=
  { k with procs := update k.procs p proc }

/-- `ip->nlink += count; iupdate(ip);` -/
def addLinks (i : Inum) (count : Int) : Kernel :=
  k.mapInode i fun inode => { inode with nlink := inode.nlink + count }

def isDir (i : Inum) : Bool :=
  match k.dinodes i with
  | some inode => inode.type = .dir
  | none => false

/-- The cache entries in use. -/
def entriesInUse : Nat :=
  (List.finRange ninodes).countP fun i => 0 < k.ref i

def cwd (p : Pid) : Option Inum :=
  (k.procs p).bind Proc.cwd

/-- What a closed file let go of: the page of a pipe has been freed, an inode is handed over
to the call. -/
def letGo (p : Pid) : Ftable.Released Inum → Kernel
  | .nothing => k
  | .page page => { k with frees := update k.frees page (k.frees page + 1) }
  | .inode i =>
    { k with held := update k.held p (update (k.held p) i (k.held p i + 1)) }

def letGoAll (p : Pid) (released : List (Ftable.Released Inum)) : Kernel :=
  released.foldl (fun k one => k.letGo p one) k

end Kernel

/-! ## Inodes -/

/-- Finds the cache entry of an inode, or recycles one. -/
def iget (p : Pid) (i : Inum) : M Unit :=
  .act (fun k => if 0 < k.ref i then k.addRef p i else (k.addRef p i).setValid i false)
    fun k => if 0 < k.ref i ∨ k.entriesInUse < ninode then .ret () else .panic .igetNoInodes

/-- Reads the inode from disk if necessary. -/
def load (i : Inum) : M Unit :=
  .act (fun k => k.setValid i true)
    fun k => if k.valid i || (k.dinodes i).isSome then .ret () else .panic .ilockNoType

def ilock (i : Inum) : M Unit :=
  .act id fun k => if k.ref i < 1 then .panic .ilock else .acquire i (load i)

def iunlock (i : Inum) : M Unit :=
  .holding i fun held =>
    .act id fun k => if held && decide (1 ≤ k.ref i) then .release i (.ret ()) else .panic .iunlock

/-- `iput` between `acquiresleep` and `releasesleep`.  The source reads `ref` and frees
the inode in two steps; only `ref` can change in between, and freeing does not read it. -/
def freeUnlinked (i : Inum) (k : Kernel) : Kernel :=
  match k.dinodes i with
  | some inode =>
    if k.valid i && decide (inode.nlink = 0) && decide (k.ref i = 1) then
      (k.setInode i none).setValid i false
    else k
  | none => k

def iput (p : Pid) (i : Inum) : M Unit :=
  .acquire i (.act (freeUnlinked i) fun _ =>
    .release i (.act (fun k => k.dropRef p i) fun _ => .ret ()))

def iunlockput (p : Pid) (i : Inum) : M Unit := do
  iunlock i
  iput p i

/-- The first inode without a type; inode 0 is not used. -/
def freeInum (k : Kernel) : Option Inum :=
  (List.finRange ninodes).find? fun i => decide (1 ≤ i.val) && (k.dinodes i).isNone

def Inode.fresh (type : FileType) : Inode :=
  { type, major := 0, nlink := 0, slots := [] }

def Kernel.allocate (k : Kernel) (i : Inum) (type : FileType) : Kernel :=
  { k.setInode i (some (.fresh type)) with
    births := update k.births i k.clock
    clock := k.clock + 1 }

def ialloc (p : Pid) (type : FileType) : M Inum :=
  .act
    (fun k => match freeInum k with
      | some i => k.allocate i type
      | none => k)
    fun k => match freeInum k with
      | some i => iget p i >>= fun _ => .ret i
      | none => .panic .iallocNoInodes

/-! ## Directories -/

/-- The slot of a name and the inode it names; slots without an inode are skipped. -/
def lookup : List (Option Dirent) → Name → Option (Nat × Inum)
  | [], _ => none
  | some entry :: rest, name =>
    if entry.name = name then some (0, entry.inum)
    else (lookup rest name).map fun (off, i) => (off + 1, i)
  | none :: rest, name => (lookup rest name).map fun (off, i) => (off + 1, i)

/-- Also returns the slot of the entry. -/
def dirlookup (p : Pid) (dp : Inum) (name : Name) : M (Option (Nat × Inum)) :=
  .act id fun k =>
    match k.dinodes dp with
    | none => .panic .dirlookupNotDir
    | some inode =>
      if inode.type = .dir then
        match lookup inode.slots name with
        | none => .ret none
        | some (off, i) => iget p i >>= fun _ => .ret (some (off, i))
      else .panic .dirlookupNotDir

/-- The first free slot takes the entry, or a new one at the end. -/
def addEntry : List (Option Dirent) → Dirent → List (Option Dirent)
  | [], entry => [some entry]
  | none :: rest, entry => some entry :: rest
  | some other :: rest, entry => some other :: addEntry rest entry

/-- The slots that fit in a directory: `MAXFILE*BSIZE / sizeof(struct dirent)`. -/
def maxSlots : Nat := maxFile * bsize / 16

def Inode.link (inode : Inode) (name : Name) (i : Inum) : Inode :=
  { inode with slots := addEntry inode.slots ⟨name, i⟩ }

/-- `false` for -1: the name is there already. -/
def dirlink (p : Pid) (dp : Inum) (name : Name) (i : Inum) : M Bool := do
  match ← dirlookup p dp name with
  | some (_, ip) => do
    iput p ip
    pure false
  | none =>
    .act (fun k => k.mapInode dp fun inode => inode.link name i) fun k =>
      match k.dinodes dp with
      | some inode =>
        if (inode.link name i).slots.length ≤ maxSlots then .ret true else .panic .dirlink
      | none => .panic .dirlink

/-! ## Paths -/

/-- The next element of a path, cut to `DIRSIZ`, and the path after it. -/
def skipelem (path : Path) : Option (Name × Path) :=
  match path.dropWhile (· = slash) with
  | [] => none
  | byte :: bytes =>
    let elem := (byte :: bytes).takeWhile (· ≠ slash)
    let rest := (byte :: bytes).dropWhile (· ≠ slash)
    some (elem.take dirsiz, rest.dropWhile (· = slash))

/-- The elements of a path; each takes at least one byte. -/
def elemsFrom : Nat → Path → List Name
  | 0, _ => []
  | fuel + 1, path =>
    match skipelem path with
    | none => []
    | some (name, rest) => name :: elemsFrom fuel rest

def pathElems (path : Path) : List Name :=
  elemsFrom path.length path

/-- The loop of `namex`; with `parent` it stops one level early. -/
def namexLoop (p : Pid) (parent : Bool) : List Name → Inum → M (Option (Inum × Name))
  | [], ip =>
    if parent then do
      iput p ip
      pure none
    else pure (some (ip, []))
  | name :: rest, ip => do
    ilock ip
    let directory ← Prog.get fun k => k.isDir ip
    if !directory then do
      iunlockput p ip
      pure none
    else if parent && rest.isEmpty then do
      iunlock ip
      pure (some (ip, name))
    else do
      let found ← dirlookup p ip name
      iunlockput p ip
      match found with
      | none => pure none
      | some (_, next) => namexLoop p parent rest next

/-- `idup(myproc()->cwd)` -/
def idupCwd (p : Pid) : M Inum :=
  .act (fun k => match k.cwd p with
      | some i => k.addRef p i
      | none => k)
    fun k => match k.cwd p with
      | some i => .ret i
      | none => .panic .trap

def namexStart (p : Pid) (path : Path) : M Inum :=
  if path.head? = some slash then iget p rootIno >>= fun _ => .ret rootIno
  else idupCwd p

def namex (p : Pid) (path : Path) (parent : Bool) : M (Option (Inum × Name)) := do
  let ip ← namexStart p path
  namexLoop p parent (pathElems path) ip

def namei (p : Pid) (path : Path) : M (Option Inum) := do
  let found ← namex p path false
  pure (found.map Prod.fst)

def nameiparent (p : Pid) (path : Path) : M (Option (Inum × Name)) :=
  namex p path true

def workIn (dp : Inum) : M Unit :=
  .mark (some dp) (.ret ())

/-! ## Files -/

def filealloc : M (Option FileIndex) :=
  .act (fun k => k.setTable k.table.filealloc.2) fun k => .ret k.table.filealloc.1

/-- A step that closes a file under `ftable.lock`, and what follows it: the inode that the
file was open on is put. -/
def closing (p : Pid)
    (close : Ftable.Table Inum → Option (Ftable.Released Inum × Ftable.Table Inum)) : M Unit :=
  .act
    (fun k => match close k.table with
      | some (released, table) => (k.setTable table).letGo p released
      | none => k)
    fun k => match close k.table with
      | some (.inode i, _) => iput p i
      | some _ => .ret ()
      | none => .panic .fileclose

def fileclose (p : Pid) (f : FileIndex) : M Unit :=
  closing p fun table => table.fileclose f

def fdalloc (p : Pid) (f : FileIndex) : M (Option Fd) :=
  .act (fun k => k.setTable (k.table.fdalloc p f).2) fun k => .ret (k.table.fdalloc p f).1

/-! ## System calls -/

def openWrite : UInt32 := 1
def openReadWrite : UInt32 := 2
def openCreate : UInt32 := 0x200

def createDots (p : Pid) (type : FileType) (dp ip : Inum) : M Unit :=
  if type = .dir then do
    Prog.modify fun k => k.addLinks dp 1
    let self ← dirlink p ip dot ip
    if self then do
      let parent ← dirlink p ip dotDot dp
      if parent then pure () else .panic .createDots
    else .panic .createDots
  else pure ()

/-- `create` when the name is not there yet: the new inode is returned locked. -/
def createNew (p : Pid) (dp : Inum) (name : Name) (type : FileType) (major : Int) : M Inum := do
  let ip ← ialloc p type
  ilock ip
  Prog.modify fun k => k.mapInode ip fun inode => { inode with major, nlink := 1 }
  createDots p type dp ip
  let linked ← dirlink p dp name ip
  if linked then do
    iunlockput p dp
    pure ip
  else .panic .createDirlink

/-- `create` when the name is there. -/
def createFound (p : Pid) (dp ip : Inum) (type : FileType) : M (Option Inum) := do
  iunlockput p dp
  ilock ip
  let inode ← Prog.get fun k => k.dinodes ip
  if type = .file ∧ inode.map Inode.type = some .file then pure (some ip)
  else do
    iunlockput p ip
    pure none

def create (p : Pid) (path : Path) (type : FileType) (major : Int) : M (Option Inum) := do
  match ← nameiparent p path with
  | none => pure none
  | some (dp, name) => do
    workIn dp
    ilock dp
    match ← dirlookup p dp name with
    | some (_, ip) => createFound p dp ip type
    | none => do
      let ip ← createNew p dp name type major
      pure (some ip)

/-- The path of `sys_open` without `O_CREATE`. -/
def openFound (p : Pid) (path : Path) (omode : UInt32) : M (Option Inum) := do
  match ← namei p path with
  | none => pure none
  | some ip => do
    ilock ip
    let directory ← Prog.get fun k => k.isDir ip
    if directory && decide (omode ≠ 0) then do
      iunlockput p ip
      pure none
    else pure (some ip)

/-- The file takes over the call's reference to the inode. -/
def Kernel.openFile (k : Kernel) (p : Pid) (f : FileIndex) (i : Inum) (omode : UInt32) : Kernel :=
  { k.setTable (k.table.setFile f
      { k.table.files f with
        kind := .inode i
        readable := decide (omode &&& openWrite = 0)
        writable := decide (omode &&& openWrite ≠ 0) || decide (omode &&& openReadWrite ≠ 0) }) with
    held := update k.held p (update (k.held p) i (k.held p i - 1)) }

/-- `sys_open` once it has the inode, locked. -/
def openInode (p : Pid) (ip : Inum) (omode : UInt32) : M Int := do
  match ← filealloc with
  | none => do
    iunlockput p ip
    pure (-1)
  | some f => do
    match ← fdalloc p f with
    | none => do
      fileclose p f
      iunlockput p ip
      pure (-1)
    | some fd => do
      iunlock ip
      Prog.modify fun k => k.openFile p f ip omode
      pure fd

/-- The inode to open, locked. -/
def openTarget (p : Pid) (path : Path) (omode : UInt32) : M (Option Inum) :=
  if omode &&& openCreate ≠ 0 then create p path .file 0 else openFound p path omode

def sysOpen (p : Pid) (path : Path) (omode : UInt32) : M Int := do
  match ← openTarget p path omode with
  | none => pure (-1)
  | some ip => openInode p ip omode

/-- `sys_mkdir` and `sys_mknod`. -/
def makeNode (p : Pid) (path : Path) (type : FileType) (major : Int) : M Int := do
  match ← create p path type major with
  | none => pure (-1)
  | some ip => do
    iunlockput p ip
    pure 0

def sysMkdir (p : Pid) (path : Path) : M Int :=
  makeNode p path .dir 0

def sysMknod (p : Pid) (path : Path) (major : Int) : M Int :=
  makeNode p path .dev major

/-- `bad:` of `sys_link`. -/
def linkBad (p : Pid) (ip : Inum) : M Int := do
  ilock ip
  Prog.modify fun k => k.addLinks ip (-1)
  iunlockput p ip
  pure (-1)

/-- `sys_link` once the link is counted.  There is one device. -/
def linkNew (p : Pid) (ip : Inum) (new : Path) : M Int := do
  match ← nameiparent p new with
  | none => linkBad p ip
  | some (dp, name) => do
    workIn dp
    ilock dp
    let linked ← dirlink p dp name ip
    iunlockput p dp
    if linked then do
      iput p ip
      pure 0
    else linkBad p ip

def sysLink (p : Pid) (old new : Path) : M Int := do
  match ← namei p old with
  | none => pure (-1)
  | some ip => do
    ilock ip
    let directory ← Prog.get fun k => k.isDir ip
    if directory then do
      iunlockput p ip
      pure (-1)
    else do
      Prog.modify fun k => k.addLinks ip 1
      iunlock ip
      linkNew p ip new

/-- No entries after `.` and `..`. -/
def isdirempty (inode : Inode) : Bool :=
  (inode.slots.drop 2).all Option.isNone

/-- `bad:` of `sys_unlink`. -/
def unlinkBad (p : Pid) (dp : Inum) : M Int := do
  iunlockput p dp
  pure (-1)

def Inode.unlink (inode : Inode) (off : Nat) : Inode :=
  { inode with slots := inode.slots.set off none }

/-- A removed directory does not name its parent any more. -/
def dropDotDot (dp : Inum) (directory : Bool) : M Unit :=
  if directory then Prog.modify fun k => k.addLinks dp (-1) else pure ()

/-- `sys_unlink` from the write of the empty entry on. -/
def unlinkEntry (p : Pid) (dp : Inum) (off : Nat) (ip : Inum) (directory : Bool) : M Int := do
  Prog.modify fun k => k.mapInode dp fun inode => inode.unlink off
  dropDotDot dp directory
  iunlockput p dp
  Prog.modify fun k => k.addLinks ip (-1)
  iunlockput p ip
  pure 0

/-- `sys_unlink` once both inodes are locked. -/
def unlinkFound (p : Pid) (dp : Inum) (off : Nat) (ip : Inum) : M Int :=
  .act id fun k =>
    match k.dinodes ip with
    | none => .panic .unlinkNlink
    | some inode =>
      if inode.nlink < 1 then .panic .unlinkNlink
      else if inode.type = .dir ∧ isdirempty inode = false then do
        iunlockput p ip
        unlinkBad p dp
      else unlinkEntry p dp off ip (inode.type = .dir)

def sysUnlink (p : Pid) (path : Path) : M Int := do
  match ← nameiparent p path with
  | none => pure (-1)
  | some (dp, name) => do
    workIn dp
    ilock dp
    if name = dot ∨ name = dotDot then unlinkBad p dp
    else do
      match ← dirlookup p dp name with
      | none => unlinkBad p dp
      | some (off, ip) => do
        ilock ip
        unlinkFound p dp off ip

/-- Takes the current directory out of the process, for `iput(curproc->cwd)`: nothing
reads it until it is set again. -/
def takeCwd (p : Pid) : M Inum :=
  .act
    (fun k => match k.cwd p with
      | some i =>
        { k.setProc p ((k.procs p).map fun proc => { proc with cwd := none }) with
          held := update k.held p (update (k.held p) i (k.held p i + 1)) }
      | none => k)
    fun k => match k.cwd p with
      | some i => .ret i
      | none => .panic .trap

def Kernel.enter (k : Kernel) (p : Pid) (i : Inum) : Kernel :=
  { k.setProc p ((k.procs p).map fun proc => { proc with cwd := some i }) with
    held := update k.held p (update (k.held p) i (k.held p i - 1)) }

def sysChdir (p : Pid) (path : Path) : M Int := do
  match ← namei p path with
  | none => pure (-1)
  | some ip => do
    ilock ip
    let directory ← Prog.get fun k => k.isDir ip
    if !directory then do
      iunlockput p ip
      pure (-1)
    else do
      iunlock ip
      let old ← takeCwd p
      iput p old
      Prog.modify fun k => k.enter p ip
      pure 0

/-- `myproc()->ofile[fd] = 0; fileclose(f);` -/
def sysClose (p : Pid) (fd : Nat) : M Int :=
  .act id fun k =>
    match k.table.argfd p fd with
    | none => .ret (-1)
    | some _ => closing p (fun table => table.close p fd) >>= fun _ => .ret 0

def sysDup (p : Pid) (fd : Nat) : M Int :=
  .act
    (fun k => match k.table.dup p fd with
      | some (_, table) => k.setTable table
      | none => k)
    fun k => match k.table.dup p fd with
      | some (answer, _) => .ret answer
      | none => .panic .filedup

/-- `sys_pipe`; `page` is what `kalloc` returns. -/
def Kernel.pipe (k : Kernel) (p : Pid) (page : Option Nat) : Option (Int × Kernel) :=
  match k.table.reserve with
  | none => none
  | some (none, released, table) => some (-1, (k.setTable table).letGoAll p released)
  | some (some (rf, wf), _, table) =>
    match page with
    | none =>
      (table.closeBoth rf wf).map fun (released, table) =>
        (-1, (k.setTable table).letGoAll p released)
    | some page =>
      ((table.connect rf wf page).attach p rf wf).map fun (answer, released, table) =>
        (answer, ({ k.setTable table with
          allocs := update k.allocs page (k.allocs page + 1) }).letGoAll p released)

def sysPipe (p : Pid) (page : Option Nat) : M Int :=
  .act
    (fun k => match k.pipe p page with
      | some (_, k') => k'
      | none => k)
    fun k => match k.pipe p page with
      | some (answer, _) => .ret answer
      | none => .panic .fileclose

/-- The locks of `exec`: it reads the program under the inode's lock.  `loads` says
whether the program can be loaded. -/
def sysExec (p : Pid) (path : Path) (loads : Bool) : M Int := do
  match ← namei p path with
  | none => pure (-1)
  | some ip => do
    ilock ip
    iunlockput p ip
    pure (if loads then 0 else -1)

def console : Int := 1

/-- `readi` and `writei` under the inode's lock: the console gives the lock up while it
works. -/
def transfer (ip : Inum) : M Unit :=
  .act id fun k =>
    match k.dinodes ip with
    | some inode =>
      if inode.type = .dev ∧ inode.major = console then do
        iunlock ip
        ilock ip
      else pure ()
    | none => pure ()

def lockedTransfer (ip : Inum) : M Unit := do
  ilock ip
  transfer ip
  iunlock ip

def lockedTransfers (ip : Inum) : Nat → M Unit
  | 0 => pure ()
  | rounds + 1 => do
    lockedTransfer ip
    lockedTransfers ip rounds

/-- `fileread`; the bytes are not modelled. -/
def sysRead (p : Pid) (fd : Nat) : M Int :=
  .act id fun k =>
    match k.table.argfd p fd with
    | none => .ret (-1)
    | some (_, f) =>
      if (k.table.files f).readable then
        match (k.table.files f).kind with
        | .inode ip => lockedTransfer ip >>= fun _ => .ret 0
        | .pipe _ => .ret 0
        | .none => .panic .fileread
      else .ret (-1)

/-- `filewrite` in some number of rounds. -/
def sysWrite (p : Pid) (fd rounds : Nat) : M Int :=
  .act id fun k =>
    match k.table.argfd p fd with
    | none => .ret (-1)
    | some (_, f) =>
      if (k.table.files f).writable then
        match (k.table.files f).kind with
        | .inode ip => lockedTransfers ip rounds >>= fun _ => .ret 0
        | .pipe _ => .ret 0
        | .none => .panic .filewrite
      else .ret (-1)

/-- The loop of `exit`.  The source clears the descriptor after the inode has been put; only
this process reads it. -/
def closeAll (p : Pid) : List Fd → M Unit
  | [] => pure ()
  | fd :: rest => do
    closing p fun table => table.closeSlot p fd
    closeAll p rest

/-- `exit` up to the point where the slot can be used again. -/
def sysExit (p : Pid) : M Int :=
  if p = initproc then .panic .initExiting
  else do
    closeAll p (List.finRange nofile)
    let old ← takeCwd p
    iput p old
    Prog.modify fun k => k.setProc p none
    pure 0

def freeSlot (k : Kernel) : Option Pid :=
  (List.finRange nproc).find? fun p => (k.procs p).isNone

def Kernel.copyProc (k : Kernel) (p child : Pid) : Option Kernel :=
  (Ftable.Table.copySlots p child (List.finRange nofile) k.table).map fun table =>
    { k.setTable table with
      ref := match k.cwd p with
        | some i => update k.ref i (k.ref i + 1)
        | none => k.ref
      procs := update k.procs child (k.procs p) }

/-- `room` says whether all the pages that `fork` needs could be allocated; it needs them
before it copies a descriptor. -/
def sysFork (p : Pid) (room : Bool) : M Int :=
  .act
    (fun k => match freeSlot k with
      | some child => if room then (k.copyProc p child).getD k else k
      | none => k)
    fun k => match freeSlot k with
      | some child =>
        if room then
          match k.copyProc p child with
          | some _ => .ret child
          | none => .panic .filedup
        else .ret (-1)
      | none => .ret (-1)

inductive Call
  | open (path : Path) (omode : UInt32)
  | mkdir (path : Path)
  | mknod (path : Path) (major : Int)
  | link (old new : Path)
  | unlink (path : Path)
  | chdir (path : Path)
  | close (fd : Nat)
  | exit
  | exec (path : Path) (loads : Bool)
  | read (fd : Nat)
  | write (fd rounds : Nat)
  | dup (fd : Nat)
  | pipe (page : Option Nat)
  | fork (room : Bool)

def sysCall (p : Pid) : Call → M Int
  | .open path omode => sysOpen p path omode
  | .mkdir path => sysMkdir p path
  | .mknod path major => sysMknod p path major
  | .link old new => sysLink p old new
  | .unlink path => sysUnlink p path
  | .chdir path => sysChdir p path
  | .close fd => sysClose p fd
  | .exit => sysExit p
  | .exec path loads => sysExec p path loads
  | .read fd => sysRead p fd
  | .write fd rounds => sysWrite p fd rounds
  | .dup fd => sysDup p fd
  | .pipe page => sysPipe p page
  | .fork room => sysFork p room

/-- A call from beginning to end. -/
def program (p : Pid) (call : Call) : M Int := do
  let result ← sysCall p call
  .mark none (.ret result)

/-! ## The file system that `mkfs` makes -/

/-- The names in the root directory that `mkfs` makes, as they are stored there: cut to `DIRSIZ`
bytes.  They are in order; their inodes are 2, 3, … -/
structure Files where
  names : List Name
  fits : names.length + 2 < ninodes
  plain : ∀ name ∈ names, name ≠ dot ∧ name ≠ dotDot

def Files.entries (files : Files) : List (Option Dirent) :=
  List.ofFn fun j : Fin files.names.length =>
    some ⟨files.names.get j, ⟨j.val + 2, by have := files.fits; omega⟩⟩

/-- The root directory; its size is rounded up to the next block of 32 slots. -/
def Files.rootSlots (files : Files) : List (Option Dirent) :=
  let live := some ⟨dot, rootIno⟩ :: some ⟨dotDot, rootIno⟩ :: files.entries
  live ++ List.replicate (32 - live.length % 32) none

def Files.dinodes (files : Files) : Inum → Option Inode := fun i =>
  if i = rootIno then some { type := .dir, major := 0, nlink := 1, slots := files.rootSlots }
  else if 2 ≤ i.val ∧ i.val < files.names.length + 2 then
    some { type := .file, major := 0, nlink := 1, slots := [] }
  else none

/-- The first process has been made: its current directory is the root. -/
def Files.boot (files : Files) : Kernel where
  dinodes := files.dinodes
  ref i := if i = rootIno then 1 else 0
  valid _ := false
  table := Ftable.Table.empty Inum
  procs p := if p = initproc then some { cwd := some rootIno } else none
  held _ _ := 0
  births i := i
  clock := ninodes
  allocs _ := 0
  frees _ := 0

end Laboratorio.Xv6.Fs
