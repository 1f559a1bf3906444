import Laboratorio.Xv6.Fs.Primitives
import Laboratorio.Xv6.Fs.Refs

/-! # Calls give back the references they take

`Accounts p refs files` — every count is exact while process `p` runs a call that holds the
references `refs` to inodes and `files` to open files, and no other call is under way.  Each
function says which references its result holds; every path through every system call ends
without any.
-/

namespace Laboratorio.Xv6.Fs

open Laboratorio.Lib Laboratorio.Lib.Prog Laboratorio.Xv6.Ftable Function List Nat Table

variable {table : Table Inum} {f : FileIndex}

structure Accounts (p : Pid) (refs : List Inum) (files : List FileIndex) (k : Kernel) : Prop where
  exact : RefsExact k
  held : ∀ q i, k.held q i = if q = p then refs.count i else 0
  table : k.table.Exact files
  pages : ∀ page, k.allocs page = k.frees page + k.table.live page
  idle : ∀ q, k.procs q = none → ∀ fd, k.table.ofile (q, fd) = none
  alive : k.procs p ≠ none

/-- Between calls. -/
structure Settled (k : Kernel) : Prop where
  exact : RefsExact k
  held : ∀ q i, k.held q i = 0
  table : k.table.Exact []
  pages : ∀ page, k.allocs page = k.frees page + k.table.live page
  idle : ∀ q, k.procs q = none → ∀ fd, k.table.ofile (q, fd) = none

/-- The code, run by a process alone, ends in `post` or panics. -/
abbrev Keeps {Result : Type} (p : Pid) (code : M Result) (post : Result → Kernel → Prop)
    (k : Kernel) : Prop :=
  Prog.Ends p (fun _ => True) code post k

/-- The inodes among what files have let go of. -/
def inodesOf (released : List (Released Inum)) : List Inum :=
  released.filterMap fun
    | .inode i => some i
    | _ => none

theorem count_inodesOf (released : List (Released Inum)) (i : Inum) :
    (inodesOf released).count i = released.count (.inode i) := by
  induction released with
  | nil => rfl
  | cons first rest ih =>
    rw [inodesOf] at ih ⊢
    cases first with
    | nothing => simp [ih]
    | page page => simp [ih]
    | inode j => simp [count_cons, ih]

section

variable {p q : Pid} {refs refs' : List Inum} {files files' : List FileIndex} {k : Kernel} {i : Inum}

/-! ## Changes of the state -/

theorem count_cons_other {j : Inum} (different : j ≠ i) : (i :: refs).count j = refs.count j :=
  count_cons_of_ne (Ne.symm different)

theorem held_gain (held : ∀ q i, k.held q i = if q = p then refs.count i else 0) (i : Inum)
    (q : Pid) (j : Inum) :
    update k.held p (update (k.held p) i (k.held p i + 1)) q j =
      if q = p then (i :: refs).count j else 0 := by
  induction q using update_cases with
  | own =>
    induction j using update_cases with
    | own => rw [if_pos rfl, count_cons_self, held, if_pos rfl]
    | others j different => rw [held, if_pos rfl, if_pos rfl, count_cons_other different]
  | others q other => rw [held, if_neg other, if_neg other]

theorem held_drop (held : ∀ q j, k.held q j = if q = p then (i :: refs).count j else 0) (q : Pid)
    (j : Inum) :
    update k.held p (update (k.held p) i (k.held p i - 1)) q j =
      if q = p then refs.count j else 0 := by
  induction q using update_cases with
  | own =>
    induction j using update_cases with
    | own => rw [if_pos rfl, held, if_pos rfl, List.count_cons_self, Nat.add_sub_cancel]
    | others j different => rw [held, if_pos rfl, if_pos rfl, count_cons_other different]
  | others q other => rw [held, if_neg other, if_neg other]

namespace Accounts

theorem holding (accounts : Accounts p (i :: refs) files k) : k.held p i = refs.count i + 1 := by
  rw [accounts.held, if_pos rfl, count_cons_self]

theorem holding_pos (accounts : Accounts p (i :: refs) files k) : 0 < k.held p i := by
  rw [accounts.holding]
  exact succ_pos _

theorem perm (accounts : Accounts p refs files k) (perm : refs.Perm refs') :
    Accounts p refs' files k where
  exact := accounts.exact
  held q i := by rw [accounts.held, perm.count_eq]
  table := accounts.table
  pages := accounts.pages
  idle := accounts.idle
  alive := accounts.alive

theorem swap {j : Inum} (accounts : Accounts p (i :: j :: refs) files k) :
    Accounts p (j :: i :: refs) files k :=
  accounts.perm (.swap j i refs)

theorem settled (accounts : Accounts p [] [] k) : Settled k where
  exact := accounts.exact
  held q i := by rw [accounts.held, count_nil, ite_self]
  table := accounts.table
  pages := accounts.pages
  idle := accounts.idle

section

variable (accounts : Accounts p refs files k)
include accounts

theorem setInode (i : Inum) (inode : Option Inode) : Accounts p refs files (k.setInode i inode) :=
  ⟨accounts.exact, accounts.held, accounts.table, accounts.pages, accounts.idle,
    accounts.alive⟩

theorem setValid (i : Inum) (valid : Bool) : Accounts p refs files (k.setValid i valid) :=
  ⟨accounts.exact, accounts.held, accounts.table, accounts.pages, accounts.idle,
    accounts.alive⟩

theorem allocate (i : Inum) (type : FileType) : Accounts p refs files (k.allocate i type) :=
  ⟨accounts.exact, accounts.held, accounts.table, accounts.pages, accounts.idle,
    accounts.alive⟩

theorem freeUnlinked (i : Inum) : Accounts p refs files (freeUnlinked i k) := by
  rcases freeUnlinked_cases i k with ⟨_, _, _, _, _, freed⟩ | ⟨same, _⟩
  · rw [freed]
    exact (accounts.setInode i none).setValid i false
  · rw [same]
    exact accounts

theorem addRef (i : Inum) : Accounts p (i :: refs) files (k.addRef p i) where
  exact := accounts.exact.addRef p i
  held := held_gain accounts.held i
  table := accounts.table
  pages := accounts.pages
  idle := accounts.idle
  alive := accounts.alive

end

theorem dropRef (accounts : Accounts p (i :: refs) files k) :
    Accounts p refs files (k.dropRef p i) where
  exact := accounts.exact.dropRef accounts.holding_pos
  held := held_drop accounts.held
  table := accounts.table
  pages := accounts.pages
  idle := accounts.idle
  alive := accounts.alive

theorem taken (accounts : Accounts p refs files k) (i : Inum) :
    Accounts p (i :: refs) files (k.taken p i) := by
  rw [Kernel.taken]
  split
  case isTrue => exact accounts.addRef i
  case isFalse => exact (accounts.addRef i).setValid i false

theorem put (accounts : Accounts p (i :: refs) files k) : Accounts p refs files (k.put p i) :=
  (accounts.freeUnlinked i).dropRef

theorem setTable (accounts : Accounts p refs files k)
    (exact : table.Exact files') (lets : k.table.Lets table [])
    (idle : ∀ q, k.procs q = none → ∀ fd, table.ofile (q, fd) = none) :
    Accounts p refs files' (k.setTable table) where
  exact := by
    apply accounts.exact.setTable
    intro i
    rw [lets.inodes i, count_nil, add_zero]
  held := accounts.held
  table := exact
  pages page := by
    have before := accounts.pages page
    rw [lets.pipes page] at before
    exact before
  idle := idle
  alive := accounts.alive

theorem idle_of_others (accounts : Accounts p refs files k)
    (others : Table.Others p k.table table) (q : Pid)
    (unused : k.procs q = none) (fd : Fd) : table.ofile (q, fd) = none := by
  have different : q ≠ p := by
    intro same
    rw [same] at unused
    exact accounts.alive unused
  rw [others (q, fd) different]
  exact accounts.idle q unused fd

end Accounts

theorem Settled.accounts (settled : Settled k) (alive : k.procs p ≠ none) : Accounts p [] [] k where
  exact := settled.exact
  held q i := by rw [settled.held, count_nil, ite_self]
  table := settled.table
  pages := settled.pages
  idle := settled.idle
  alive := alive

theorem letGoAll_frees (released : List (Released Inum)) (page : Nat) :
    (k.letGoAll p released).frees page = k.frees page + released.count (.page page) := by
  induction released generalizing k with
  | nil => rfl
  | cons first rest ih =>
    have after : (k.letGoAll p (first :: rest)).frees page =
        (k.letGo p first).frees page + rest.count (.page page) := ih
    rw [after, count_cons]
    cases first with
    | nothing => simp [Kernel.letGo]
    | inode i => simp [Kernel.letGo]
    | page freed =>
      simp only [Kernel.letGo, beq_iff_eq, Released.page.injEq]
      by_cases same : freed = page
      · subst same
        rw [update_self, if_pos rfl]
        omega
      · rw [update_of_ne (Ne.symm same), if_neg same]
        omega

theorem letGoAll_held (held : ∀ q i, k.held q i = if q = p then refs.count i else 0)
    (released : List (Released Inum)) (q : Pid) (i : Inum) :
    (k.letGoAll p released).held q i =
      if q = p then (inodesOf released ++ refs).count i else 0 := by
  induction released generalizing k refs with
  | nil => exact held q i
  | cons first rest ih =>
    show ((k.letGo p first).letGoAll p rest).held q i = _
    cases first with
    | nothing => exact ih held
    | page page => exact ih held
    | inode j =>
      rw [ih (held_gain held j)]
      have counts : (inodesOf rest ++ j :: refs).count i =
          (inodesOf (.inode j :: rest) ++ refs).count i := by
        rw [count_append, count_append, count_inodesOf, count_inodesOf, count_cons,
          count_cons]
        simp only [beq_iff_eq, Released.inode.injEq]
        omega
      rw [counts]

theorem letGoAll_same (k : Kernel) (p : Pid) (released : List (Released Inum)) :
    (k.letGoAll p released).table = k.table ∧ (k.letGoAll p released).procs = k.procs ∧
      (k.letGoAll p released).allocs = k.allocs := by
  induction released generalizing k with
  | nil => exact ⟨rfl, rfl, rfl⟩
  | cons first rest ih =>
    obtain ⟨table, procs, allocs⟩ := ih (k.letGo p first)
    cases first <;> exact ⟨table, procs, allocs⟩

/-- The file table changes, and the call has to deal with what files have let go of. -/
theorem Accounts.release (accounts : Accounts p refs files k)
    {released : List (Released Inum)} (exact : table.Exact files')
    (lets : k.table.Lets table released)
    (idle : ∀ q, k.procs q = none → ∀ fd, table.ofile (q, fd) = none) :
    Accounts p (inodesOf released ++ refs) files' ((k.setTable table).letGoAll p released) := by
  obtain ⟨sameTable, sameProcs, sameAllocs⟩ := letGoAll_same (k.setTable table) p released
  constructor
  case exact =>
    apply RefsExact.letGoAll
    intro i
    have count := accounts.exact i
    rw [lets.inodes i] at count
    simp only [Kernel.setTable]
    omega
  case held => exact letGoAll_held (k := k.setTable table) accounts.held released
  case table =>
    rw [sameTable]
    exact exact
  case pages =>
    intro page
    have before := accounts.pages page
    rw [lets.pipes page] at before
    rw [letGoAll_frees, sameTable, sameAllocs]
    simp only [Kernel.setTable]
    omega
  case idle =>
    rw [sameTable, sameProcs]
    exact idle
  case alive =>
    rw [sameProcs]
    exact accounts.alive

theorem Accounts.openFile (accounts : Accounts p (i :: refs) files k)
    {omode : UInt32} (isOpen : 0 < (k.table.files f).ref) (closed : (k.table.files f).kind = .none) :
    Accounts p refs files (k.openFile p f i omode) where
  exact := accounts.exact.openFile closed accounts.holding_pos
  held := held_drop accounts.held
  table := accounts.table.openInode isOpen closed
  pages := accounts.pages
  idle := accounts.idle
  alive := accounts.alive

/-! ## Inodes -/

theorem any_panic (reason : Panic) (_ : reason ≠ .ilockNoType) : True :=
  trivial

theorem iget_accounts (accounts : Accounts p refs files k) :
    Keeps p (iget p i) (fun _ => Accounts p (i :: refs) files) k :=
  iget_ends any_panic (accounts.taken i)

theorem ilock_accounts (accounts : Accounts p refs files k) :
    Keeps p (ilock i) (fun _ => Accounts p refs files) k :=
  ilock_ends any_panic (fun _ _ => trivial) fun _ _ => accounts.setValid i true

theorem iunlock_accounts (accounts : Accounts p refs files k) :
    Keeps p (iunlock i) (fun _ => Accounts p refs files) k :=
  iunlock_ends any_panic accounts

theorem iput_accounts (accounts : Accounts p (i :: refs) files k) :
    Keeps p (iput p i)
      (fun _ k' => Accounts p refs files k' ∧ k'.table = k.table ∧ k'.procs = k.procs) k := by
  have same : (freeUnlinked i k).table = k.table ∧ (freeUnlinked i k).procs = k.procs := by
    rcases freeUnlinked_cases i k with ⟨_, _, _, _, _, after⟩ | ⟨after, _⟩ <;> rw [after] <;>
      exact ⟨rfl, rfl⟩
  exact iput_ends ⟨accounts.put, same⟩

theorem put_accounts (accounts : Accounts p (i :: refs) files k) :
    Keeps p (iput p i) (fun _ => Accounts p refs files) k :=
  iput_ends accounts.put

theorem kept_accounts (p : Pid) (files : List FileIndex) :
    Kept p (fun _ => True) fun refs => Accounts p refs files :=
  ⟨any_panic, ilock_accounts, Accounts.put⟩

theorem iunlockput_accounts (accounts : Accounts p (i :: refs) files k) :
    Keeps p (iunlockput p i) (fun _ => Accounts p refs files) k :=
  iunlockput_ends any_panic accounts.put

section

variable (accounts : Accounts p refs files k)
include accounts

theorem ialloc_accounts (type : FileType) :
    Keeps p (ialloc p type) (fun i => Accounts p (i :: refs) files) k :=
  ialloc_ends any_panic fun i _ => (accounts.allocate i type).taken i

/-! ## Directories -/

theorem dirlookup_accounts (dp : Inum) (name : Name) :
    Keeps p (dirlookup p dp name)
      (fun found => Accounts p ((found.map Prod.snd).toList ++ refs) files) k :=
  dirlookup_ends any_panic (fun _ _ _ _ => accounts) fun _ _ ip _ _ _ => accounts.taken ip

theorem dirlink_accounts (dp : Inum) (name : Name) (i : Inum) :
    Keeps p (dirlink p dp name i) (fun _ => Accounts p refs files) k :=
  dirlink_ends any_panic (fun _ _ _ _ => accounts.setInode dp _)
    fun _ _ ip _ _ _ => (accounts.taken ip).put

/-! ## Paths -/

theorem get_accounts {Value : Type} (read : Kernel → Value) :
    Keeps p (Prog.get read) (fun _ => Accounts p refs files) k :=
  Ends.get accounts

theorem mapInode_accounts (i : Inum) (change : Inode → Inode) :
    Keeps p (Prog.modify fun k => k.mapInode i change) (fun _ => Accounts p refs files) k :=
  Ends.modify (accounts.setInode i _)

theorem addLinks_accounts (i : Inum) (count : Int) :
    Keeps p (Prog.modify fun k => k.addLinks i count) (fun _ => Accounts p refs files) k :=
  mapInode_accounts accounts i _

end

theorem namexLoop_accounts (parent : Bool) (names : List Name)
    (accounts : Accounts p (i :: refs) files k) :
    Keeps p (namexLoop p parent names i)
      (fun found => Accounts p ((found.map Prod.fst).toList ++ refs) files) k := by
  induction names generalizing i k with
  | nil =>
    rw [namexLoop]
    split
    case isTrue =>
      exact .andRet (put_accounts accounts)
    case isFalse => exact .ret accounts
  | cons name rest ih =>
    apply Ends.seq (ilock_accounts accounts)
    intro _ k₁ accounts
    apply Ends.seq (get_accounts accounts _)
    intro directory k₂ accounts
    split
    case isTrue =>
      exact .andRet (iunlockput_accounts accounts)
    case isFalse =>
      split
      case isTrue =>
        exact .andRet (iunlock_accounts accounts)
      case isFalse =>
        apply Ends.seq (dirlookup_accounts accounts i name)
        intro found k₃ accounts
        cases found with
        | none =>
          exact .andRet (iunlockput_accounts accounts)
        | some entry =>
          -- the directory is put, the entry's inode stays
          have swapped : Accounts p (i :: entry.2 :: refs) files k₃ := accounts.swap
          apply Ends.seq (iunlockput_accounts swapped)
          exact fun _ _ accounts => ih accounts

section

variable (accounts : Accounts p refs files k)
include accounts

theorem namexStart_accounts (path : Path) :
    Keeps p (namexStart p path) (fun i => Accounts p (i :: refs) files) k := by
  rw [namexStart]
  split
  case isTrue =>
    exact .andRet (iget_accounts accounts)
  case isFalse =>
    apply Ends.act
    cases k.cwd p with
    | none => exact .panic trivial
    | some home => exact .ret (accounts.addRef home)

theorem namex_accounts (path : Path) (parent : Bool) :
    Keeps p (namex p path parent)
      (fun found => Accounts p ((found.map Prod.fst).toList ++ refs) files) k := by
  apply Ends.seq (namexStart_accounts accounts path)
  exact fun _ _ accounts => namexLoop_accounts parent (pathElems path) accounts

theorem namei_accounts (path : Path) :
    Keeps p (namei p path) (fun found => Accounts p (found.toList ++ refs) files) k := by
  exact .andRet (namex_accounts accounts path false)

/-! ## Open, create, link and unlink -/

theorem createDots_accounts (type : FileType) (dp ip : Inum) :
    Keeps p (createDots p type dp ip) (fun _ => Accounts p refs files) k := by
  rw [createDots]
  split
  case isFalse => exact .ret accounts
  case isTrue =>
    apply Ends.seq (addLinks_accounts accounts dp 1)
    intro _ k₁ accounts
    apply Ends.seq (dirlink_accounts accounts ip dot ip)
    intro self k₂ accounts
    split
    case isFalse => exact .panic trivial
    case isTrue =>
      apply Ends.seq (dirlink_accounts accounts ip dotDot dp)
      intro parent k₃ accounts
      split
      case isFalse => exact .panic trivial
      case isTrue => exact .ret accounts

end

theorem createNew_accounts {dp : Inum} (accounts : Accounts p (dp :: refs) files k) (name : Name)
    (type : FileType) (major : Int) :
    Keeps p (createNew p dp name type major) (fun ip => Accounts p (ip :: refs) files) k := by
  apply Ends.seq (ialloc_accounts accounts type)
  intro ip k₁ accounts
  apply Ends.seq (ilock_accounts accounts)
  intro _ k₂ accounts
  apply Ends.seq (mapInode_accounts accounts ip _)
  intro _ k₃ accounts
  apply Ends.seq (createDots_accounts accounts type dp ip)
  intro _ k₄ accounts
  apply Ends.seq (dirlink_accounts accounts dp name ip)
  intro linked k₅ accounts
  split
  case isFalse => exact .panic trivial
  case isTrue =>
    exact .andRet (iunlockput_accounts accounts.swap)

theorem createFound_accounts {dp ip : Inum} (accounts : Accounts p (ip :: dp :: refs) files k)
    (type : FileType) :
    Keeps p (createFound p dp ip type) (fun found => Accounts p (found.toList ++ refs) files) k := by
  apply Ends.seq (iunlockput_accounts accounts.swap)
  intro _ k₁ accounts
  apply Ends.seq (ilock_accounts accounts)
  intro _ k₂ accounts
  apply Ends.seq (get_accounts accounts _)
  intro inode k₃ accounts
  split
  case isTrue => exact .ret accounts
  case isFalse =>
    exact .andRet (iunlockput_accounts accounts)

theorem workIn_accounts (accounts : Accounts p refs files k) (dp : Inum) :
    Keeps p (workIn dp) (fun _ => Accounts p refs files) k :=
  Ends.mark (.ret accounts)

theorem create_accounts (accounts : Accounts p refs files k) (path : Path) (type : FileType)
    (major : Int) :
    Keeps p (create p path type major)
      (fun found => Accounts p (found.toList ++ refs) files) k := by
  apply Ends.seq (namex_accounts accounts path true)
  intro found k₁ accounts
  cases found with
  | none => exact .ret accounts
  | some parent =>
    obtain ⟨dp, name⟩ := parent
    apply Ends.seq (workIn_accounts accounts dp)
    intro _ k₂ accounts
    apply Ends.seq (ilock_accounts accounts)
    intro _ k₃ accounts
    apply Ends.seq (dirlookup_accounts accounts dp name)
    intro entry k₄ accounts
    cases entry with
    | some entry => exact createFound_accounts accounts type
    | none =>
      exact .andRet (createNew_accounts accounts name type major)

/-! ## Files and descriptors -/

theorem filealloc_accounts (accounts : Accounts p refs files k) :
    Keeps p filealloc (fun found k' => Accounts p refs (found.toList ++ files) k' ∧
      ∀ f, found = some f → (k'.table.files f).kind = .none) k := by
  apply Ends.act
  apply Ends.ret
  rcases allocated : k.table.filealloc with ⟨found, table⟩
  cases found with
  | none =>
    rw [filealloc_none allocated]
    exact ⟨accounts, nofun⟩
  | some f =>
    obtain ⟨exact, kind⟩ := accounts.table.filealloc_some allocated
    have sameSlots : table.ofile = k.table.ofile := by
      rw [(filealloc_some_eq allocated).2]
      rfl
    refine ⟨accounts.setTable exact (lets_filealloc allocated) ?_, fun f' same => ?_⟩
    · rw [sameSlots]
      exact accounts.idle
    · cases same
      exact kind

theorem fdalloc_accounts (accounts : Accounts p refs (f :: files) k)
    (kind : (k.table.files f).kind = .none) :
    Keeps p (fdalloc p f) (fun found k' => (found = none ∧ Accounts p refs (f :: files) k') ∨
      (found.isSome = true ∧ Accounts p refs files k' ∧ (k'.table.files f).kind = .none ∧
        0 < (k'.table.files f).ref)) k := by
  apply Ends.act
  apply Ends.ret
  rcases allocated : k.table.fdalloc p f with ⟨found, table⟩
  cases found with
  | none =>
    rw [fdalloc_none allocated]
    exact .inl ⟨rfl, accounts⟩
  | some fd =>
    obtain ⟨free, isSet⟩ := fdalloc_some allocated
    subst isSet
    have isOpen := accounts.table.ref_pos mem_cons_self
    exact .inr ⟨rfl, accounts.setTable (accounts.table.give free) (.setSlot k.table (p, fd) (some f))
      (accounts.idle_of_others (others_setSlot k.table fd (some f))), kind, isOpen⟩

/-- A close leaves the references of `files` and lets go of one thing. -/
def Closes (k : Kernel) (files : List FileIndex) (closed : Option (Released Inum × Table Inum)) :
    Prop :=
  ∀ released table, closed = some (released, table) →
    table.Exact files ∧ k.table.Lets table [released] ∧
      ∀ q, k.procs q = none → ∀ fd, table.ofile (q, fd) = none

/-- A file is closed, and the inode that it was open on is put. -/
theorem closing_accounts
    {close : Table Inum → Option (Released Inum × Table Inum)} (accounts : Accounts p refs files k)
    (closes : Closes k files' (close k.table)) :
    Keeps p (closing p close) (fun _ k' => Accounts p refs files' k' ∧ k'.procs = k.procs ∧
      ∃ released, close k.table = some (released, k'.table)) k := by
  apply Ends.act
  cases closed : close k.table with
  | none => exact .panic trivial
  | some result =>
    obtain ⟨released, table⟩ := result
    obtain ⟨exact, lets, idle⟩ := closes released table closed
    have settled := accounts.release exact lets idle
    cases released with
    | nothing => exact .ret ⟨settled, rfl, .nothing, rfl⟩
    | page page => exact .ret ⟨settled, rfl, .page page, rfl⟩
    | inode i =>
      apply Ends.mono _ (iput_accounts settled)
      intro _ k' ended
      obtain ⟨accounts', sameTable, sameProcs⟩ := ended
      refine ⟨accounts', sameProcs, .inode i, ?_⟩
      rw [sameTable]
      rfl

theorem fileclose_accounts (accounts : Accounts p refs (f :: files) k) :
    Keeps p (fileclose p f) (fun _ => Accounts p refs files) k := by
  have closes : Closes k files (k.table.fileclose f) := by
    intro released table closed
    obtain ⟨exact, sameSlots, lets⟩ := accounts.table.fileclose closed
    refine ⟨exact, lets, ?_⟩
    rw [sameSlots]
    exact accounts.idle
  exact .mono (fun _ _ ended => ended.1) (closing_accounts accounts closes)

theorem openInode_accounts {ip : Inum} (accounts : Accounts p (ip :: refs) files k)
    (omode : UInt32) :
    Keeps p (openInode p ip omode) (fun _ => Accounts p refs files) k := by
  apply Ends.seq (filealloc_accounts accounts)
  intro found k₁ ended
  obtain ⟨accounts, kinds⟩ := ended
  cases found with
  | none =>
    exact .andRet (iunlockput_accounts accounts)
  | some f =>
    apply Ends.seq (fdalloc_accounts accounts (kinds f rfl))
    intro fd k₂ ended
    cases ended with
    | inl full =>
      obtain ⟨noFd, accounts⟩ := full
      subst noFd
      apply Ends.seq (fileclose_accounts accounts)
      intro _ k₃ accounts
      exact .andRet (iunlockput_accounts accounts)
    | inr given =>
      obtain ⟨isFd, accounts, kind, isOpen⟩ := given
      obtain ⟨fd, isFd⟩ := Option.isSome_iff_exists.mp isFd
      subst isFd
      apply Ends.bind
      apply iunlock_ends any_panic
      apply Ends.bind
      apply Ends.modify
      exact .ret (accounts.openFile isOpen kind)

end

end Laboratorio.Xv6.Fs
