import Laboratorio.Xv6.Fs.Model
import Laboratorio.Xv6.Ftable.Counts

/-! # Reference counts

`ref` of an inode is the number of current directories and open files that point to it
plus the references that calls under way hold.  Every action of the programs keeps it
so, whoever runs it and whatever the others do in between.
-/

namespace Laboratorio.Xv6.Fs

open Laboratorio.Lib Laboratorio.Xv6.Ftable Function

/-- The processes whose current directory is the inode. -/
def cwds (procs : Pid → Option Proc) (i : Inum) : Nat :=
  ∑ p, if (procs p).bind Proc.cwd = some i then 1 else 0

/-- The references that calls hold. -/
def holds (held : Pid → Inum → Nat) (i : Inum) : Nat :=
  ∑ p, held p i

def RefsExact (k : Kernel) : Prop :=
  ∀ i, k.ref i = cwds k.procs i + k.table.inodes i + holds k.held i

theorem cwds_update (procs : Pid → Option Proc) (p : Pid) (proc : Option Proc) (i : Inum) :
    cwds (update procs p proc) i +
        (if (procs p).bind Proc.cwd = some i then 1 else 0) =
      cwds procs i + (if proc.bind Proc.cwd = some i then 1 else 0) :=
  sum_update (fun proc : Option Proc => if proc.bind Proc.cwd = some i then 1 else 0) procs p proc

theorem holds_update (held : Pid → Inum → Nat) (p : Pid) (counts : Inum → Nat) (i : Inum) :
    holds (update held p counts) i + held p i = holds held i + counts i :=
  sum_update (fun counts : Inum → Nat => counts i) held p counts

theorem held_le_holds (held : Pid → Inum → Nat) (p : Pid) (i : Inum) : held p i ≤ holds held i :=
  le_sum (fun p => held p i) p

theorem holds_gain (held : Pid → Inum → Nat) (p : Pid) (i other : Inum) :
    holds (update held p (update (held p) i (held p i + 1))) other =
      holds held other + if i = other then 1 else 0 := by
  have sum := holds_update held p (update (held p) i (held p i + 1)) other
  induction other using update_cases with
  | own =>
    rw [if_pos rfl]
    omega
  | others other same =>
    rw [if_neg (Ne.symm same)]
    omega

theorem holds_drop {held : Pid → Inum → Nat} {p : Pid} {i : Inum} (holding : 0 < held p i)
    (other : Inum) :
    holds (update held p (update (held p) i (held p i - 1))) other +
        (if i = other then 1 else 0) = holds held other := by
  have sum := holds_update held p (update (held p) i (held p i - 1)) other
  induction other using update_cases with
  | own =>
    rw [if_pos rfl]
    omega
  | others other same =>
    rw [if_neg (Ne.symm same)]
    omega

namespace RefsExact

variable {k : Kernel} {p : Pid} {i : Inum} {table : Ftable.Table Inum} {proc : Option Proc}

theorem cwd_referred (exact : RefsExact k) (home : k.cwd p = some i) : 0 < k.ref i := by
  have count := exact i
  have one := le_sum (fun q => if (k.procs q).bind Proc.cwd = some i then 1 else 0) p
  rw [Kernel.cwd] at home
  simp only [home, if_true] at one
  rw [cwds] at count
  omega

theorem addRef (exact : RefsExact k) (p : Pid) (i : Inum) : RefsExact (k.addRef p i) := by
  intro other
  have count := exact other
  simp only [Kernel.addRef, holds_gain]
  induction other using update_cases with
  | own =>
    rw [if_pos rfl]
    omega
  | others other same =>
    rw [if_neg (Ne.symm same)]
    omega

theorem dropRef (exact : RefsExact k) (holding : 0 < k.held p i) : RefsExact (k.dropRef p i) := by
  intro other
  have count := exact other
  have dropped := holds_drop holding other
  simp only [Kernel.dropRef]
  induction other using update_cases with
  | own =>
    rw [if_pos rfl] at dropped
    omega
  | others other same =>
    rw [if_neg (Ne.symm same)] at dropped
    omega

theorem setTable (exact : RefsExact k)
    (same : ∀ i, table.inodes i = k.table.inodes i) : RefsExact (k.setTable table) := by
  intro other
  have count := exact other
  rw [← same other] at count
  exact count

/-- The call takes over what closed files have let go of. -/
theorem letGoAll {released : List (Released Inum)}
    (short : ∀ i, k.ref i =
      cwds k.procs i + k.table.inodes i + holds k.held i + released.count (.inode i)) :
    RefsExact (k.letGoAll p released) := by
  induction released generalizing k with
  | nil =>
    intro other
    have count := short other
    rw [List.count_nil, Nat.add_zero] at count
    exact count
  | cons first rest ih =>
    apply ih (k := k.letGo p first)
    intro other
    have count := short other
    rw [List.count_cons] at count
    cases first with
    | nothing =>
      exact count
    | page page =>
      exact count
    | inode i =>
      simp only [beq_iff_eq, Released.inode.injEq] at count
      simp only [Kernel.letGo, holds_gain]
      omega

theorem setProc (exact : RefsExact k)
    (same : proc.bind Proc.cwd = k.cwd p) : RefsExact (k.setProc p proc) := by
  intro other
  have count := exact other
  have sum := cwds_update k.procs p proc other
  rw [same, Kernel.cwd] at sum
  simp only [Kernel.setProc]
  omega

theorem openFile (exact : RefsExact k) {f : FileIndex} {omode : UInt32}
    (closed : (k.table.files f).kind = .none) (holding : 0 < k.held p i) :
    RefsExact (k.openFile p f i omode) := by
  intro other
  have count := exact other
  have sum := Table.inodes_setFile k.table f
    { k.table.files f with
      kind := .inode i
      readable := decide (omode &&& openWrite = 0)
      writable := decide (omode &&& openWrite ≠ 0) || decide (omode &&& openReadWrite ≠ 0) } other
  have handed := holds_drop holding other
  simp only [closed, reduceCtorEq, if_false, Kind.inode.injEq] at sum
  simp only [Kernel.openFile, Kernel.setTable]
  omega

theorem leaveCwd (exact : RefsExact k) (home : k.cwd p = some i) (away : proc.bind Proc.cwd = none) :
    RefsExact { k.setProc p proc with
      held := update k.held p (update (k.held p) i (k.held p i + 1)) } := by
  intro other
  have count := exact other
  have sum := cwds_update k.procs p proc other
  rw [Kernel.cwd] at home
  simp only [home, away, reduceCtorEq, if_false, Option.some.injEq] at sum
  simp only [Kernel.setProc, holds_gain]
  omega

theorem enter (exact : RefsExact k) {proc : Proc} (alive : k.procs p = some proc)
    (away : proc.cwd = none) (holding : 0 < k.held p i) : RefsExact (k.enter p i) := by
  intro other
  have count := exact other
  have sum := cwds_update k.procs p ((k.procs p).map fun proc => { proc with cwd := some i }) other
  have handed := holds_drop holding other
  simp only [alive, away, Option.map_some, Option.bind_some, reduceCtorEq, if_false,
    Option.some.injEq] at sum
  simp only [Kernel.enter, Kernel.setProc, alive, Option.map_some]
  omega

theorem copyProc (exact : RefsExact k) {child : Pid} (free : k.procs child = none)
    (same : ∀ i, table.inodes i = k.table.inodes i) :
    RefsExact { k.setTable table with
      ref := match k.cwd p with
        | some i => update k.ref i (k.ref i + 1)
        | none => k.ref
      procs := update k.procs child (k.procs p) } := by
  intro other
  have count := exact other
  have sum := cwds_update k.procs child (k.procs p) other
  simp only [free, Option.bind_none, reduceCtorEq, if_false] at sum
  rw [← same other] at count
  cases home : k.cwd p with
  | none =>
    rw [Kernel.cwd] at home
    simp only [home, reduceCtorEq, if_false, Kernel.setTable] at sum ⊢
    omega
  | some i =>
    rw [Kernel.cwd] at home
    simp only [home, Option.some.injEq, Kernel.setTable] at sum ⊢
    induction other using update_cases with
    | own =>
      simp only [if_true] at sum
      omega
    | others other same =>
      simp only [Ne.symm same, if_false] at sum
      omega

end RefsExact

end Laboratorio.Xv6.Fs
