import Laboratorio.Xv6.Fs.Changes
import Laboratorio.Xv6.Fs.Sequential

/-! # Every call keeps the inode table and the cache in order

The calls that do not change directories keep `Tidy` since they change neither an inode nor a
count but through `iget` and `iput`; those that do keep it under the conditions of
`Xv6/Fs/Changes`, collected in `Permitted`.
-/

namespace Laboratorio.Xv6.Fs

open Laboratorio.Lib Laboratorio.Lib.Prog Laboratorio.Xv6.Ftable Option

section

variable {strict dots : Bool} {k₀ k k' : Kernel} {p : Pid} {ip : Inum}

/-! ## Files -/

theorem letGoAll_inodes (k : Kernel) (p : Pid) (released : List (Released Inum)) :
    (k.letGoAll p released).dinodes = k.dinodes ∧ (k.letGoAll p released).ref = k.ref ∧
      (k.letGoAll p released).valid = k.valid := by
  induction released generalizing k with
  | nil => exact ⟨rfl, rfl, rfl⟩
  | cons first rest ih =>
    obtain ⟨dinodes, ref, valid⟩ := ih (k.letGo p first)
    cases first <;> exact ⟨dinodes, ref, valid⟩

section

variable (tidy : Tidy strict dots none k)
include tidy

theorem Tidy.letGoAll (p : Pid)
    (released : List (Released Inum)) : Tidy strict dots none (k.letGoAll p released) := by
  obtain ⟨dinodes, ref, valid⟩ := letGoAll_inodes k p released
  exact tidy.of_same dinodes ref valid

theorem closing_tidy (close : Table Inum → Option (Released Inum × Table Inum)) :
    Runs dots p (closing p close) (fun _ => Tidy strict dots none) k := by
  apply Ends.act
  cases closed : close k.table with
  | none => exact .panic (other_panics _ nofun)
  | some result =>
    obtain ⟨released, table⟩ := result
    have closed : Tidy strict dots none ((k.setTable table).letGo p released) :=
      Tidy.letGoAll (k := k.setTable table) (tidy.of_same rfl rfl rfl) p [released]
    cases released with
    | nothing => exact .ret closed
    | page page => exact .ret closed
    | inode i => exact iput_tidy closed

theorem openInode_tidy (omode : UInt32) :
    Runs dots p (openInode p ip omode) (fun _ => Tidy strict dots none) k := by
  apply Ends.bind
  apply Ends.act
  apply Ends.ret
  have allocated : Tidy strict dots none (k.setTable k.table.filealloc.2) := tidy.of_same rfl rfl rfl
  cases k.table.filealloc.1 with
  | none =>
    exact .andRet (iunlockput_tidy allocated)
  | some f =>
    apply Ends.bind
    apply Ends.act
    apply Ends.ret
    have given : Tidy strict dots none ((k.setTable k.table.filealloc.2).setTable
        ((k.setTable k.table.filealloc.2).table.fdalloc p f).2) := allocated.of_same rfl rfl rfl
    cases ((k.setTable k.table.filealloc.2).table.fdalloc p f).1 with
    | none =>
      apply Ends.seq (closing_tidy given fun table => table.fileclose f)
      intro _ k₁ tidy
      exact .andRet (iunlockput_tidy tidy)
    | some fd =>
      apply Ends.seq (iunlock_tidy given)
      intro _ k₁ tidy
      apply Ends.bind
      apply Ends.modify
      exact .ret (tidy.of_same rfl rfl rfl)

theorem sysClose_tidy (fd : Nat) :
    Runs dots p (sysClose p fd) (fun _ => Tidy strict dots none) k := by
  apply Ends.act
  split
  case h_1 => exact .ret tidy
  case h_2 =>
    exact .andRet (closing_tidy tidy _)

theorem sysDup_tidy (fd : Nat) : Runs dots p (sysDup p fd) (fun _ => Tidy strict dots none) k := by
  apply Ends.act
  cases k.table.dup p fd with
  | none => exact .panic (other_panics _ nofun)
  | some result => exact .ret (tidy.of_same rfl rfl rfl)

theorem Tidy.pipe {page : Option Nat} {answer : Int}
    (made : k.pipe p page = some (answer, k')) : Tidy strict dots none k' := by
  simp only [Kernel.pipe] at made
  split at made
  case h_1 => cases made
  case h_2 released table _ =>
    cases made
    apply Tidy.letGoAll
    exact tidy.of_same rfl rfl rfl
  case h_3 =>
    split at made
    case h_1 =>
      obtain ⟨⟨released, table⟩, -, same⟩ := map_eq_some_iff.mp made
      cases same
      apply Tidy.letGoAll
      exact tidy.of_same rfl rfl rfl
    case h_2 =>
      obtain ⟨⟨answer', released, table⟩, -, same⟩ := map_eq_some_iff.mp made
      cases same
      apply Tidy.letGoAll
      exact tidy.of_same rfl rfl rfl

theorem sysPipe_tidy (page : Option Nat) :
    Runs dots p (sysPipe p page) (fun _ => Tidy strict dots none) k := by
  apply Ends.act
  cases made : k.pipe p page with
  | none => exact .panic (other_panics _ nofun)
  | some result => exact .ret (tidy.pipe made)

/-! ## Processes -/

theorem takeCwd_tidy : Runs dots p (takeCwd p) (fun _ => Tidy strict dots none) k := by
  apply Ends.act
  cases k.cwd p with
  | none => exact .panic (other_panics _ nofun)
  | some old => exact .ret (tidy.of_same rfl rfl rfl)

theorem closeAll_tidy (fds : List Fd) :
    Runs dots p (closeAll p fds) (fun _ => Tidy strict dots none) k := by
  induction fds generalizing k with
  | nil => exact .ret tidy
  | cons fd rest ih =>
    apply Ends.seq (closing_tidy tidy fun table => table.closeSlot p fd)
    exact fun _ _ tidy => ih tidy

theorem sysExit_tidy : Runs dots p (sysExit p) (fun _ => Tidy strict dots none) k := by
  rw [sysExit]
  split
  case isTrue => exact .panic (other_panics _ nofun)
  case isFalse =>
    apply Ends.seq (closeAll_tidy tidy (List.finRange nofile))
    intro _ k₁ tidy
    apply Ends.seq (takeCwd_tidy tidy)
    intro old k₂ tidy
    apply Ends.seq (iput_tidy tidy)
    intro _ k₃ tidy
    apply Ends.bind
    apply Ends.modify
    exact .ret (tidy.of_same rfl rfl rfl)

theorem Tidy.copyProc (exact : RefsExact k) {child : Pid}
    (copied : k.copyProc p child = some k') : Tidy strict dots none k' := by
  obtain ⟨table, -, same⟩ := map_eq_some_iff.mp copied
  subst same
  cases home : k.cwd p with
  | none => exact tidy.of_same rfl rfl rfl
  | some start =>
    have referred : 0 < k.ref start := exact.cwd_referred home
    have taken := tidy.taken p fun isDots => tidy.cached.pinned isDots start referred
    rw [Kernel.taken, if_pos referred] at taken
    exact taken.of_same rfl rfl rfl

theorem sysFork_tidy (exact : RefsExact k) (room : Bool) :
    Runs dots p (sysFork p room) (fun _ => Tidy strict dots none) k := by
  apply Ends.act
  cases found : freeSlot k with
  | none => exact .ret tidy
  | some child =>
    cases room with
    | false => exact .ret tidy
    | true =>
      simp only [if_true]
      cases copied : k.copyProc p child with
      | none => exact .panic (other_panics _ (by rintro ⟨⟩))
      | some k' => exact .ret (tidy.copyProc exact copied)

end

/-! ## Calls with paths -/

theorem sysChdir_tidy (walking : Walking strict dots none k₀ p [] k) (path : Path) :
    Runs dots p (sysChdir p path) (fun _ => Tidy strict dots none) k := by
  apply Ends.seq (namei_tidy walking path)
  intro found k₁ tidy
  cases found with
  | none => exact .ret tidy
  | some ip =>
    apply Ends.seq (ilock_tidy tidy)
    intro _ k₂ tidy
    apply Ends.bind
    apply Ends.get
    split
    case isTrue =>
      exact .andRet (iunlockput_tidy tidy)
    case isFalse =>
      apply Ends.seq (iunlock_tidy tidy)
      intro _ k₃ tidy
      apply Ends.seq (takeCwd_tidy tidy)
      intro old k₄ tidy
      apply Ends.seq (iput_tidy tidy)
      intro _ k₅ tidy
      apply Ends.bind
      apply Ends.modify
      exact .ret (tidy.of_same rfl rfl rfl)

/-! ## All calls -/

/-- Whether a path leads to a removed directory, in which its last element is not there. -/
def Kernel.addsToRemoved (k : Kernel) (p : Pid) (path : Path) : Bool :=
  match k.resolve p path with
  | some (dp, name) =>
    (k.dinodes dp).any fun inode =>
      decide (inode.nlink = 0) && (lookup inode.slots name).isNone
  | none => false

/-- Whether an inode is `..` of another directory that has been removed, but not freed. -/
def Kernel.aboveRemoved (k : Kernel) (ip : Inum) : Bool :=
  (List.finRange ninodes).any fun j =>
    decide (j ≠ ip) && (k.dinodes j).any fun other =>
      decide (other.type = .dir ∧ other.nlink = 0 ∧ parentOf other = some ip)

/-- Whether a path names an empty directory that is `..` of another removed one. -/
def Kernel.removesAbove (k : Kernel) (p : Pid) (path : Path) : Bool :=
  match k.resolve p path with
  | some (dp, name) =>
    proper name && (k.dinodes dp).any fun inode =>
      (lookup inode.slots name).any fun (_, ip) =>
        (k.dinodes ip).any fun target =>
          decide (target.type = .dir) && isdirempty target && k.aboveRemoved ip
  | none => false

/-- What a call may add and remove, for each of the two sets of invariants. -/
def Permitted (strict dots : Bool) (k : Kernel) (p : Pid) : Call → Prop
  | .open path omode =>
    strict = true → omode &&& openCreate ≠ 0 → k.addsToRemoved p path = false
  | .mkdir path => k.addsToRemoved p path = false
  | .mknod path _ => strict = true → k.addsToRemoved p path = false
  | .link _ new => strict = true → k.addsToRemoved p new = false
  | .unlink path => dots = true → k.removesAbove p path = false
  | _ => True

theorem linked_of_not_addsToRemoved (tidy : Tidy strict dots none k) {path : Path}
    (notRemoved : k.addsToRemoved p path = false) {dp : Inum} {name : Name} {inode : Inode}
    (resolved : k.resolve p path = some (dp, name)) (found : k.dinodes dp = some inode)
    (absent : lookup inode.slots name = none) : 0 < inode.nlink := by
  have nonneg := tidy.sound.links.nlink_nonneg found
  rw [Kernel.addsToRemoved, resolved] at notRemoved
  simp only [found, any_some, absent, isNone_none, Bool.and_true,
    decide_eq_false_iff_not] at notRemoved
  omega

theorem noneBelow_of_not_removesAbove {path : Path} (notAbove : k.removesAbove p path = false)
    {dp ip : Inum} {name : Name} {inode target : Inode} {off : Nat}
    (resolved : k.resolve p path = some (dp, name)) (isProper : proper name = true)
    (found : k.dinodes dp = some inode) (entry : lookup inode.slots name = some (off, ip))
    (targetFound : k.dinodes ip = some target) (targetDir : target.type = .dir)
    (empty : isdirempty target = true) (j : Inum) (other : Inode) (different : j ≠ ip)
    (otherFound : k.dinodes j = some other) (otherDir : other.type = .dir)
    (unlinked : other.nlink = 0) : parentOf other ≠ some ip := by
  intro below
  have above : k.aboveRemoved ip = true := by
    rw [Kernel.aboveRemoved, List.any_eq_true]
    refine ⟨j, List.mem_finRange j, ?_⟩
    simp [different, otherFound, otherDir, unlinked, below]
  rw [Kernel.removesAbove, resolved] at notAbove
  simp only [isProper, found, entry, targetFound, targetDir, empty, above, any_some,
    decide_true, Bool.and_self, Bool.true_eq_false] at notAbove

theorem sysCall_tidy (settled : Settled k) (alive : k.procs p ≠ none)
    (tidy : Tidy strict dots none k) {call : Call} (permitted : Permitted strict dots k p call) :
    Runs dots p (sysCall p call) (fun _ => Tidy strict dots none) k := by
  have walking : Walking strict dots none k p [] k := .start settled alive tidy
  have kept := kept_tidy strict dots p
  cases call with
  | «open» path omode =>
    have opened : Runs dots p (openTarget p path omode) (fun _ => Tidy strict dots none) k := by
      rw [openTarget]
      split
      case isTrue creates =>
        apply create_tidy walking path
        intro dp name inode resolved found absent exact
        cases exact with
        | inl isStrict =>
          exact linked_of_not_addsToRemoved tidy (permitted isStrict creates) resolved found absent
        | inr isDir => cases isDir
      case isFalse => exact kept.openFound [] (namei_tidy walking path)
    apply Ends.seq opened
    intro found k₁ tidy
    cases found with
    | none => exact .ret tidy
    | some ip => exact openInode_tidy tidy omode
  | mkdir path =>
    apply kept.makeNode []
    apply create_tidy walking path
    exact fun _ _ _ resolved found absent _ =>
      linked_of_not_addsToRemoved tidy permitted resolved found absent
  | mknod path major =>
    apply kept.makeNode []
    apply create_tidy walking path
    intro dp name inode resolved found absent exact
    cases exact with
    | inl isStrict =>
      exact linked_of_not_addsToRemoved tidy (permitted isStrict) resolved found absent
    | inr isDir => cases isDir
  | link old new =>
    apply sysLink_tidy walking old new
    exact fun _ _ _ resolved found absent isStrict =>
      linked_of_not_addsToRemoved tidy (permitted isStrict) resolved found absent
  | unlink path =>
    apply sysUnlink_tidy walking path
    exact fun isDots _ _ _ _ _ _ resolved isProper found entry targetFound targetDir empty =>
      noneBelow_of_not_removesAbove (permitted isDots) resolved isProper found entry targetFound
        targetDir empty
  | chdir path => exact sysChdir_tidy walking path
  | close fd => exact sysClose_tidy tidy fd
  | exit => exact sysExit_tidy tidy
  | exec path loads => exact kept.sysExec [] (namei_tidy walking path)
  | read fd => exact kept.sysRead [] tidy fd
  | write fd rounds => exact kept.sysWrite [] tidy fd rounds
  | dup fd => exact sysDup_tidy tidy fd
  | pipe page => exact sysPipe_tidy tidy page
  | fork room => exact sysFork_tidy tidy settled.exact room

theorem program_tidy (settled : Settled k) (alive : k.procs p ≠ none)
    (tidy : Tidy strict dots none k) {call : Call} (permitted : Permitted strict dots k p call) :
    Runs dots p (program p call) (fun _ => Tidy strict dots none) k := by
  apply Ends.seq (sysCall_tidy settled alive tidy permitted)
  exact fun _ _ tidy => .mark (.ret tidy)

end

end Laboratorio.Xv6.Fs
