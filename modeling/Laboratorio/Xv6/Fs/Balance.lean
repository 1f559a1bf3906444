import Laboratorio.Xv6.Fs.Accounts
import Laboratorio.Xv6.Fs.Sequential

/-! # The counts of files, inodes and pipes between calls

Every system call starts and ends without references of its own, so in every state between
calls the counts are those of the descriptors, the open files and the current directories.
-/

namespace Laboratorio.Xv6.Fs

open Laboratorio.Lib Laboratorio.Lib.Prog Laboratorio.Xv6.Ftable Function
open Option Kernel List Table Nat Finset

variable {ip dp : Inum} {k : Kernel}

section

variable {p : Pid} {refs : List Inum} {files : List FileIndex} {k : Kernel}

/-! ## Calls with paths -/

theorem openTarget_accounts (accounts : Accounts p refs files k) (path : Path) (omode : UInt32) :
    Keeps p (openTarget p path omode)
      (fun found => Accounts p (found.toList ++ refs) files) k := by
  rw [openTarget]
  split
  case isTrue => exact create_accounts accounts path .file 0
  case isFalse => exact (kept_accounts p files).openFound refs (namei_accounts accounts path)

theorem sysOpen_accounts (accounts : Accounts p refs files k) (path : Path) (omode : UInt32) :
    Keeps p (sysOpen p path omode) (fun _ => Accounts p refs files) k := by
  apply Ends.seq (openTarget_accounts accounts path omode)
  intro found k₁ accounts
  cases found with
  | none => exact .ret accounts
  | some ip => exact openInode_accounts accounts omode

theorem linkBad_accounts (accounts : Accounts p (ip :: refs) files k) :
    Keeps p (linkBad p ip) (fun _ => Accounts p refs files) k := by
  apply Ends.seq (ilock_accounts accounts)
  intro _ k₁ accounts
  apply Ends.seq (addLinks_accounts accounts ip (-1))
  intro _ k₂ accounts
  exact .andRet (iunlockput_accounts accounts)

theorem linkNew_accounts (accounts : Accounts p (ip :: refs) files k) (new : Path) :
    Keeps p (linkNew p ip new) (fun _ => Accounts p refs files) k := by
  apply Ends.seq (namex_accounts accounts new true)
  intro found k₁ accounts
  cases found with
  | none => exact linkBad_accounts accounts
  | some parent =>
    obtain ⟨dp, name⟩ := parent
    apply Ends.seq (workIn_accounts accounts dp)
    intro _ k₂ accounts
    apply Ends.seq (ilock_accounts accounts)
    intro _ k₃ accounts
    apply Ends.seq (dirlink_accounts accounts dp name ip)
    intro linked k₄ accounts
    apply Ends.seq (iunlockput_accounts accounts)
    intro _ k₅ accounts
    split
    case isFalse => exact linkBad_accounts accounts
    case isTrue =>
      exact .andRet (put_accounts accounts)

theorem sysLink_accounts (accounts : Accounts p refs files k) (old new : Path) :
    Keeps p (sysLink p old new) (fun _ => Accounts p refs files) k := by
  apply Ends.seq (namei_accounts accounts old)
  intro found k₁ accounts
  cases found with
  | none => exact .ret accounts
  | some ip =>
    apply Ends.seq (ilock_accounts accounts)
    intro _ k₂ accounts
    apply Ends.seq (get_accounts accounts _)
    intro directory k₃ accounts
    split
    case isTrue =>
      exact .andRet (iunlockput_accounts accounts)
    case isFalse =>
      apply Ends.seq (addLinks_accounts accounts ip 1)
      intro _ k₄ accounts
      apply Ends.seq (iunlock_accounts accounts)
      exact fun _ _ accounts => linkNew_accounts accounts new

theorem unlinkBad_accounts (accounts : Accounts p (dp :: refs) files k) :
    Keeps p (unlinkBad p dp) (fun _ => Accounts p refs files) k := by
  exact .andRet (iunlockput_accounts accounts)

theorem dropDotDot_accounts (accounts : Accounts p refs files k) (dp : Inum) (directory : Bool) :
    Keeps p (dropDotDot dp directory) (fun _ => Accounts p refs files) k := by
  rw [dropDotDot]
  split
  case isTrue => exact addLinks_accounts accounts dp (-1)
  case isFalse => exact .ret accounts

theorem unlinkEntry_accounts (accounts : Accounts p (ip :: dp :: refs) files k)
    (off : Nat) (directory : Bool) :
    Keeps p (unlinkEntry p dp off ip directory) (fun _ => Accounts p refs files) k := by
  apply Ends.seq (mapInode_accounts accounts dp _)
  intro _ k₁ accounts
  apply Ends.seq (dropDotDot_accounts accounts dp directory)
  intro _ k₂ accounts
  apply Ends.seq (iunlockput_accounts accounts.swap)
  intro _ k₃ accounts
  apply Ends.seq (addLinks_accounts accounts ip (-1))
  intro _ k₄ accounts
  exact .andRet (iunlockput_accounts accounts)

theorem unlinkFound_accounts (accounts : Accounts p (ip :: dp :: refs) files k)
    (off : Nat) : Keeps p (unlinkFound p dp off ip) (fun _ => Accounts p refs files) k := by
  apply Ends.act
  cases k.dinodes ip with
  | none => exact .panic trivial
  | some inode =>
    dsimp only
    split
    case isTrue => exact .panic trivial
    case isFalse =>
      split
      case isTrue =>
        apply Ends.seq (iunlockput_accounts accounts)
        exact fun _ _ accounts => unlinkBad_accounts accounts
      case isFalse => exact unlinkEntry_accounts accounts off _

theorem sysUnlink_accounts (accounts : Accounts p refs files k) (path : Path) :
    Keeps p (sysUnlink p path) (fun _ => Accounts p refs files) k := by
  apply Ends.seq (namex_accounts accounts path true)
  intro found k₁ accounts
  cases found with
  | none => exact .ret accounts
  | some parent =>
    obtain ⟨dp, name⟩ := parent
    apply Ends.seq (workIn_accounts accounts dp)
    intro _ k₂ accounts
    apply Ends.seq (ilock_accounts accounts)
    intro _ k₃ accounts
    split
    case isTrue => exact unlinkBad_accounts accounts
    case isFalse =>
      apply Ends.seq (dirlookup_accounts accounts dp name)
      intro entry k₄ accounts
      cases entry with
      | none => exact unlinkBad_accounts accounts
      | some entry =>
        apply Ends.seq (ilock_accounts accounts)
        exact fun _ _ accounts => unlinkFound_accounts accounts entry.1

/-! ## Current directories -/

theorem unused_before {q : Pid} {change : Proc → Proc}
    (unused : update k.procs p ((k.procs p).map change) q = none) : k.procs q = none := by
  revert unused
  induction q using update_cases with
  | own => exact map_eq_none_iff.mp
  | others q _ => exact id

/-- The process has no current directory while the old one is put. -/
theorem takeCwd_accounts (accounts : Accounts p refs files k) :
    Keeps p (takeCwd p) (fun old k' => Accounts p (old :: refs) files k' ∧ k'.cwd p = none ∧
      k'.table = k.table) k := by
  apply Ends.act
  cases home : k.cwd p with
  | none => exact .panic trivial
  | some old =>
    apply Ends.ret
    have away : ((k.procs p).map fun proc => { proc with cwd := none }).bind Proc.cwd = none := by
      cases k.procs p <;> rfl
    refine ⟨⟨accounts.exact.leaveCwd home away, held_gain accounts.held old, accounts.table,
      accounts.pages, fun q unused => accounts.idle q (unused_before unused),
      fun unused => accounts.alive (unused_before unused)⟩, ?_, rfl⟩
    simp only [cwd, setProc, update_self]
    exact away

theorem enter_accounts (accounts : Accounts p (ip :: refs) files k)
    (away : k.cwd p = none) : Accounts p refs files (k.enter p ip) := by
  obtain ⟨proc, running⟩ := ne_none_iff_exists'.mp accounts.alive
  have noHome : proc.cwd = none := by
    rw [cwd, running] at away
    exact away
  exact ⟨accounts.exact.enter running noHome accounts.holding_pos, held_drop accounts.held,
    accounts.table, accounts.pages, fun q unused => accounts.idle q (unused_before unused),
    fun unused => accounts.alive (unused_before unused)⟩

theorem sysChdir_accounts (accounts : Accounts p refs files k) (path : Path) :
    Keeps p (sysChdir p path) (fun _ => Accounts p refs files) k := by
  apply Ends.seq (namei_accounts accounts path)
  intro found k₁ accounts
  cases found with
  | none => exact .ret accounts
  | some ip =>
    apply Ends.seq (ilock_accounts accounts)
    intro _ k₂ accounts
    apply Ends.seq (get_accounts accounts _)
    intro directory k₃ accounts
    split
    case isTrue =>
      exact .andRet (iunlockput_accounts accounts)
    case isFalse =>
      apply Ends.seq (iunlock_accounts accounts)
      intro _ k₄ accounts
      apply Ends.seq (takeCwd_accounts accounts)
      intro old k₅ taken
      obtain ⟨accounts, away, -⟩ := taken
      apply Ends.seq (iput_accounts accounts)
      intro _ k₆ put
      obtain ⟨accounts, -, sameProcs⟩ := put
      have still : k₆.cwd p = none := by
        rw [cwd, sameProcs]
        exact away
      have entered : Keeps p (Prog.modify fun k => k.enter p ip) (fun _ => Accounts p refs files)
          k₆ :=
        Ends.modify (enter_accounts accounts still)
      apply Ends.seq entered
      exact fun _ _ accounts => .ret accounts

/-! ## Descriptors -/

theorem sysClose_accounts (accounts : Accounts p refs files k) (fd : Nat) :
    Keeps p (sysClose p fd) (fun _ => Accounts p refs files) k := by
  have closes : Closes k files (k.table.close p fd) := by
    intro released table closed
    obtain ⟨exact, lets, others⟩ := accounts.table.close closed
    exact ⟨exact, lets, accounts.idle_of_others others⟩
  apply Ends.act
  split
  case h_1 => exact .ret accounts
  case h_2 =>
    apply Ends.seq (closing_accounts accounts closes)
    exact fun _ _ ended => .ret ended.1

theorem sysDup_accounts (accounts : Accounts p refs files k) (fd : Nat) :
    Keeps p (sysDup p fd) (fun _ => Accounts p refs files) k := by
  apply Ends.act
  cases made : k.table.dup p fd with
  | none => exact .panic trivial
  | some result =>
    obtain ⟨exact, lets, others⟩ := accounts.table.dup made
    exact .ret (accounts.setTable exact lets (accounts.idle_of_others others))

theorem inodesOf_eq_nil {released : List (Released Inum)} (none : ∀ i, .inode i ∉ released) :
    inodesOf released = [] := by
  apply filterMap_eq_nil_iff.mpr
  intro one member
  cases one with
  | nothing => rfl
  | page page => rfl
  | inode i => exact absurd member (none i)

section

variable (accounts : Accounts p refs files k) {page : Option Nat}
include accounts

theorem connect_accounts {rf wf : FileIndex} {page : Nat} {table : Table Inum}
    (exact : table.Exact (wf :: rf :: files))
    (lets : k.table.Lets table []) (slots : table.ofile = k.table.ofile)
    (noPipe : table.pipes page = none) (different : rf ≠ wf)
    (readKind : (table.files rf).kind = .none) (writeKind : (table.files wf).kind = .none) :
    Accounts p refs (wf :: rf :: files) { k.setTable (table.connect rf wf page) with
        allocs := update k.allocs page (k.allocs page + 1) } where
  exact := by
    apply accounts.exact.setTable
    intro i
    show (table.connect rf wf page).inodes i = k.table.inodes i
    rw [inodes_connect different readKind writeKind i, lets.inodes i, count_nil,
      add_zero]
  held := accounts.held
  table := exact.connect noPipe different readKind writeKind
  pages other := by
    have before := accounts.pages other
    rw [lets.pipes other, count_nil] at before
    have live : (table.connect rf wf page).live other = _ := live_connect noPipe other
    simp only [setTable, live]
    induction other using update_cases with
    | own =>
      rw [if_pos rfl]
      omega
    | others other same =>
      rw [if_neg (Ne.symm same)]
      exact before
  idle := by
    intro q unused fd
    show table.ofile (q, fd) = none
    rw [slots]
    exact accounts.idle q unused fd
  alive := accounts.alive

theorem pipe_accounts {answer : Int}
    {k' : Kernel} (possible : ∀ fresh, page = some fresh → k.table.pipes fresh = none)
    (made : k.pipe p page = some (answer, k')) : Accounts p refs files k' := by
  simp only [pipe] at made
  split at made
  case h_1 => cases made
  case h_2 released table noFile =>
    cases made
    obtain ⟨exact, lets, slots⟩ := accounts.table.reserve_none noFile
    have settled := accounts.release exact lets (by rw [slots]; exact accounts.idle)
    rw [inodesOf_eq_nil (accounts.table.reserve_noInode noFile)] at settled
    exact settled
  case h_3 rf wf none' table reserved =>
    obtain ⟨-, exact, lets, slots, different, readKind, writeKind⟩ :=
      accounts.table.reserve_some reserved
    have noRead : table.NoInode rf := fun i isInode => by rw [readKind] at isInode; cases isInode
    have noWrite : table.NoInode wf := fun i isInode => by rw [writeKind] at isInode; cases isInode
    split at made
    case h_1 =>
      obtain ⟨⟨released, table'⟩, closed, same⟩ := map_eq_some_iff.mp made
      cases same
      have swapped : table.Exact (rf :: wf :: files) := exact.perm (List.Perm.swap rf wf files)
      obtain ⟨exact', slots', lets'⟩ := swapped.closeBoth closed
      have settled := accounts.release exact' (lets.trans lets')
        (by rw [slots', slots]; exact accounts.idle)
      rw [nil_append,
        inodesOf_eq_nil (closeBoth_noInode different.symm noRead noWrite closed)] at settled
      exact settled
    case h_2 fresh =>
      obtain ⟨⟨answer', released, table'⟩, attached, same⟩ := map_eq_some_iff.mp made
      cases same
      have noPipe := lets.pipes_none (possible fresh rfl)
      have connected := connect_accounts accounts exact lets slots noPipe different readKind writeKind
      obtain ⟨exact', lets', others⟩ := connected.table.attach attached
      have settled := connected.release exact' lets' (connected.idle_of_others others)
      have kindRead : (table.connect rf wf fresh).NoInode rf := noInode_connect (.inl rfl)
      have kindWrite : (table.connect rf wf fresh).NoInode wf := noInode_connect (.inr rfl)
      rw [inodesOf_eq_nil (attach_noInode different.symm kindRead kindWrite attached)] at settled
      exact settled

theorem sysPipe_accounts (possible : (Call.pipe page).possible k = true) :
    Keeps p (sysPipe p page) (fun _ => Accounts p refs files) k := by
  have fresh : ∀ fresh, page = some fresh → k.table.pipes fresh = none := by
    intro fresh same
    subst same
    exact isNone_iff_eq_none.mp possible
  apply Ends.act
  cases made : k.pipe p page with
  | none => exact .panic trivial
  | some result => exact .ret (pipe_accounts accounts fresh made)

/-! ## Fork and exit -/

theorem sysFork_accounts (room : Bool) :
    Keeps p (sysFork p room) (fun _ => Accounts p refs files) k := by
  apply Ends.act
  cases found : freeSlot k with
  | none => exact .ret accounts
  | some child =>
    have unused : k.procs child = none := by
      have passes := find?_some found
      exact isNone_iff_eq_none.mp passes
    cases room with
    | false => exact .ret accounts
    | true =>
      simp only [if_true]
      cases copied : k.copyProc p child with
      | none => exact .panic trivial
      | some k' =>
        obtain ⟨table, slots, same⟩ := map_eq_some_iff.mp copied
        subst same
        obtain ⟨exact, lets, others⟩ := accounts.table.copySlots (nodup_finRange nofile)
          (fun fd _ => accounts.idle child unused fd) slots
        have inodes : ∀ i, table.inodes i = k.table.inodes i := by
          intro i
          rw [lets.inodes i, count_nil, add_zero]
        have childProc : update k.procs child (k.procs p) child = k.procs p :=
          update_self _ _ _
        apply Ends.ret
        refine ⟨accounts.exact.copyProc unused inodes, accounts.held, exact, fun page => ?_, ?_, ?_⟩
        · have before := accounts.pages page
          rw [lets.pipes page] at before
          exact before
        · intro q unused' fd
          have different : q ≠ child := by
            intro same
            rw [same] at unused'
            exact accounts.alive (childProc.symm.trans unused')
          have before : k.procs q = none := (update_of_ne different _ _).symm.trans unused'
          exact (others (q, fd) different).trans (accounts.idle q before fd)
        · intro gone
          have different : p ≠ child := by
            intro same
            exact accounts.alive (same ▸ unused)
          exact accounts.alive ((update_of_ne different _ _).symm.trans gone)

theorem closeAll_accounts (fds : List Fd) :
    Keeps p (closeAll p fds) (fun _ k' => Accounts p refs files k' ∧
      ∀ fd, fd ∈ fds ∨ k.table.ofile (p, fd) = none → k'.table.ofile (p, fd) = none) k := by
  induction fds generalizing k with
  | nil =>
    apply Ends.ret
    refine ⟨accounts, fun fd empty => ?_⟩
    exact empty.resolve_left not_mem_nil
  | cons fd rest ih =>
    have closes : Closes k files (k.table.closeSlot p fd) := by
      intro released table closed
      obtain ⟨exact, lets, slots⟩ := accounts.table.closeSlot closed
      refine ⟨exact, lets, accounts.idle_of_others fun slot other => ?_⟩
      rw [slots]
      exact others_setSlot k.table fd none slot other
    apply Ends.seq (closing_accounts accounts closes)
    intro _ k₁ ended
    obtain ⟨accounts₁, -, released, closed⟩ := ended
    obtain ⟨-, -, slots⟩ := accounts.table.closeSlot closed
    apply Ends.mono _ (ih accounts₁)
    intro _ k₂ ended
    exact ⟨ended.1, fun fd' passed => ended.2 fd' (passed_of_slots slots passed)⟩

end

theorem sysExit_settled (accounts : Accounts p [] [] k) :
    Keeps p (sysExit p) (fun _ => Settled) k := by
  rw [sysExit]
  split
  case isTrue => exact .panic trivial
  case isFalse =>
    apply Ends.seq (closeAll_accounts accounts (finRange nofile))
    intro _ k₁ ended
    obtain ⟨accounts, closed⟩ := ended
    apply Ends.seq (takeCwd_accounts accounts)
    intro old k₂ taken
    obtain ⟨accounts, away, sameTable⟩ := taken
    apply Ends.seq (iput_accounts accounts)
    intro _ k₃ put
    obtain ⟨accounts, sameTable', sameProcs⟩ := put
    have still : k₃.cwd p = none := by
      rw [cwd, sameProcs]
      exact away
    have noFiles : ∀ fd, k₃.table.ofile (p, fd) = none := by
      intro fd
      rw [sameTable', sameTable]
      exact closed fd (.inl (mem_finRange fd))
    have gone : Keeps p (Prog.modify fun k => k.setProc p none) (fun _ => Settled) k₃ := by
      apply Ends.modify
      have settled := accounts.settled
      refine ⟨settled.exact.setProc still.symm, settled.held, settled.table, settled.pages, ?_⟩
      intro q unused fd
      by_cases same : q = p
      · subst same
        exact noFiles fd
      · exact settled.idle q ((update_of_ne same _ _).symm.trans unused) fd
    apply Ends.seq gone
    exact fun _ _ settled => .ret settled

theorem sysCall_settled (accounts : Accounts p [] [] k) {call : Call}
    (possible : call.possible k = true) : Keeps p (sysCall p call) (fun _ => Settled) k := by
  have ended : ∀ {code : M Int}, Keeps p code (fun _ => Accounts p [] []) k →
      Keeps p code (fun _ => Settled) k :=
    fun keeps => .mono (fun _ _ accounts => accounts.settled) keeps
  have kept := kept_accounts p []
  cases call with
  | «open» path omode => exact ended (sysOpen_accounts accounts path omode)
  | mkdir path => exact ended (kept.makeNode [] (create_accounts accounts path .dir 0))
  | mknod path major => exact ended (kept.makeNode [] (create_accounts accounts path .dev major))
  | link old new => exact ended (sysLink_accounts accounts old new)
  | unlink path => exact ended (sysUnlink_accounts accounts path)
  | chdir path => exact ended (sysChdir_accounts accounts path)
  | close fd => exact ended (sysClose_accounts accounts fd)
  | exit => exact sysExit_settled accounts
  | exec path loads => exact ended (kept.sysExec [] (namei_accounts accounts path))
  | read fd => exact ended (kept.sysRead [] accounts fd)
  | write fd rounds => exact ended (kept.sysWrite [] accounts fd rounds)
  | dup fd => exact ended (sysDup_accounts accounts fd)
  | pipe page => exact ended (sysPipe_accounts accounts possible)
  | fork room => exact ended (sysFork_accounts accounts room)

theorem program_settled (accounts : Accounts p [] [] k) {call : Call}
    (possible : call.possible k = true) : Keeps p (program p call) (fun _ => Settled) k := by
  apply Ends.seq (sysCall_settled accounts possible)
  exact fun _ _ settled => .mark (.ret settled)

end

/-! ## Runs -/

theorem boot_settled (files : Files) : Settled files.boot where
  exact i := by
    have noFiles : (empty Inum).inodes i = 0 :=
      sum_eq_zero fun f _ => if_neg nofun
    have noCalls : holds (fun _ _ => 0) i = 0 := sum_eq_zero fun _ _ => rfl
    have homes : cwds files.boot.procs i = if i = rootIno then 1 else 0 := by
      rw [cwds, Fintype.sum_eq_single initproc]
      · simp [Files.boot, eq_comm]
      · intro q different
        simp [Files.boot, different]
    rw [homes]
    show _ = _ + (empty Inum).inodes i + holds (fun _ _ => 0) i
    rw [noFiles, noCalls]
    rfl
  held _ _ := rfl
  table := exact_empty
  pages _ := rfl
  idle _ _ _ := rfl

theorem reachable_settled {files : Files} {m : Machine}
    (reachable : files.sequential.Reachable m) : Settled m.kernel := by
  induction reachable with
  | init start =>
    subst start
    exact boot_settled files
  | step label _ _ taken settled =>
    obtain ⟨alive, possible, result, ended⟩ := completed_cases taken
    exact Ends.done (program_settled (settled.accounts alive) possible) ended

/-- The descriptors that point to a file. -/
def descriptors (k : Kernel) (f : FileIndex) : Nat :=
  (Finset.univ.filter fun slot : Pid × Fd => k.table.ofile slot = some f).card

/-- The files in use that are open on an inode. -/
def openFiles (k : Kernel) (i : Inum) : Nat :=
  (Finset.univ.filter fun f : FileIndex =>
    0 < (k.table.files f).ref ∧ (k.table.files f).kind = .inode i).card

/-- The processes whose current directory is an inode. -/
def workers (k : Kernel) (i : Inum) : Nat :=
  (Finset.univ.filter fun p : Pid => k.cwd p = some i).card

/-- Some file in use is the given end of the pipe on a page. -/
def HasEnd (k : Kernel) (page : Nat) (writable : Bool) : Prop :=
  ∃ f, 0 < (k.table.files f).ref ∧ (k.table.files f).kind = .pipe page ∧
    (k.table.files f).writable = writable

theorem Settled.hasEnd_iff (settled : Settled k) (page : Nat) (writable : Bool) :
    HasEnd k page writable ↔ (k.table.pipes page).any (·.isOpen writable) = true := by
  have count := settled.table.ends page writable
  constructor
  · intro hasEnd
    obtain ⟨f, _, kind, same⟩ := hasEnd
    have one : 0 < k.table.ends page writable := by
      have part := le_sum (fun f => isEnd page writable (k.table.files f)) f
      rw [isEnd, if_pos ⟨kind, same⟩] at part
      exact part
    by_contra closed
    rw [count, if_neg closed] at one
    exact lt_irrefl 0 one
  · intro isOpen
    rw [if_pos isOpen] at count
    obtain ⟨f, positive⟩ := exists_of_sum_pos _ (show 0 < k.table.ends page writable by omega)
    have isEnd : (k.table.files f).kind = .pipe page ∧ (k.table.files f).writable = writable := by
      by_contra other
      rw [isEnd, if_neg other] at positive
      exact lt_irrefl 0 positive
    refine ⟨f, pos_of_ne_zero fun zero => ?_, isEnd⟩
    have none := settled.table.closed f zero
    rw [isEnd.1] at none
    cases none

theorem Settled.openFiles_eq (settled : Settled k) (i : Inum) :
    openFiles k i = k.table.inodes i := by
  rw [openFiles, card_filter]
  apply sum_congr rfl
  intro f _
  apply if_congr _ rfl rfl
  constructor
  · exact fun both => both.2
  · intro kind
    refine ⟨pos_of_ne_zero fun zero => ?_, kind⟩
    rw [settled.table.closed f zero] at kind
    cases kind

theorem Settled.ref_eq (settled : Settled k) (i : Inum) :
    k.ref i = openFiles k i + workers k i := by
  have count := settled.exact i
  have noCalls : holds k.held i = 0 := sum_eq_zero fun q _ => settled.held q i
  rw [noCalls, add_zero] at count
  rw [count, settled.openFiles_eq, workers, card_filter, add_comm]
  rfl

theorem reference_counts_exact (files : Files) {m : Machine}
    (reachable : files.sequential.Reachable m) :
    (∀ f, (m.kernel.table.files f).ref = descriptors m.kernel f) ∧
    (∀ f, (m.kernel.table.files f).ref = 0 → (m.kernel.table.files f).kind = .none) ∧
    (∀ i, m.kernel.ref i = openFiles m.kernel i + workers m.kernel i) ∧
    (∀ page, (∃ pipe, m.kernel.table.pipes page = some pipe ∧
        (pipe.readopen = true ↔ HasEnd m.kernel page false) ∧
        (pipe.writeopen = true ↔ HasEnd m.kernel page true) ∧
        (HasEnd m.kernel page false ∨ HasEnd m.kernel page true) ∧
        m.kernel.allocs page = m.kernel.frees page + 1) ∨
      (m.kernel.table.pipes page = none ∧
        ¬ HasEnd m.kernel page false ∧ ¬ HasEnd m.kernel page true ∧
        m.kernel.allocs page = m.kernel.frees page)) := by
  have settled := reachable_settled reachable
  refine ⟨fun f => ?_, settled.table.closed, settled.ref_eq, fun page => ?_⟩
  · rw [settled.table.refs f, count_nil, add_zero, descriptors, card_filter,
      slots]
  · have readEnd := settled.hasEnd_iff page false
    have writeEnd := settled.hasEnd_iff page true
    have pages := settled.pages page
    rw [live] at pages
    cases found : m.kernel.table.pipes page with
    | none =>
      rw [found] at readEnd writeEnd pages
      right
      exact ⟨rfl, fun hasEnd => Bool.false_ne_true (readEnd.mp hasEnd),
        fun hasEnd => Bool.false_ne_true (writeEnd.mp hasEnd), pages⟩
    | some pipe =>
      rw [found] at readEnd writeEnd
      rw [found] at pages
      left
      refine ⟨pipe, rfl, readEnd.symm, writeEnd.symm, ?_, pages⟩
      cases settled.table.live page pipe found with
      | inl reads => exact .inl (readEnd.mpr reads)
      | inr writes => exact .inr (writeEnd.mpr writes)

def noFiles : Files := ⟨[], by decide, nofun⟩

/-- A pipe, a second descriptor for its read end, and a child with the same descriptors. -/
theorem piped_child_counts :
    ∃ m, noFiles.sequential.Reachable m ∧
      (m.kernel.table.files ⟨0, by decide⟩).ref = 4 ∧
      (m.kernel.table.files ⟨0, by decide⟩).ref = descriptors m.kernel ⟨0, by decide⟩ := by
  have ran : ∃ m ∈ noFiles.sequential.runWhen (fun _ _ => True) ⟨noFiles.boot, fun _ => none⟩
      [⟨initproc, .pipe (some 7)⟩, ⟨initproc, .dup 0⟩, ⟨initproc, .fork true⟩],
      (m.kernel.table.files ⟨0, by decide⟩).ref = 4 := by
    decide +kernel
  obtain ⟨m, reachable, count⟩ := System.ReachableWhen.exists_of_runWhen (.init rfl) ran
  exact ⟨m, reachable, count, (reference_counts_exact noFiles reachable).1 _⟩

end Laboratorio.Xv6.Fs
