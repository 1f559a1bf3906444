import Mathlib.Data.Fintype.Prod
import Laboratorio.Lib.Sum
import Laboratorio.Xv6.Ftable.Model

/-! # Reference counts of open files

`Exact` — the count of a file is the number of descriptors that point to it plus the
references that the running call holds, a file without references is not open on anything,
and the flags of a pipe say how many files are open on each of its ends.

Every operation of the table keeps it, and moves a reference between descriptors and the
call or drops it.
-/

namespace Laboratorio.Xv6.Ftable

open Laboratorio.Lib Function Option List Table Nat

variable {pipe : Pipe} {writable : Bool} {page : Nat} {p : Pid} {fd : Fd} {held' : List FileIndex}
  {slot : Pid × Fd} {rf wf : FileIndex} {answer : Int}

variable {I : Type} {list : List (Released I)}

def Pipe.isOpen (pipe : Pipe) (writable : Bool) : Bool :=
  if writable then pipe.writeopen else pipe.readopen

/-! ## What the operations return -/

namespace Table

variable {t t' : Table I} {f : FileIndex}

/-- What closing an end leaves of a pipe. -/
def leftOf (pipe : Pipe) (writable : Bool) : Option Pipe :=
  let pipe := if writable then { pipe with writeopen := false } else { pipe with readopen := false }
  if pipe.readopen = false ∧ pipe.writeopen = false then none else some pipe

theorem leftOf_isOpen (pipe : Pipe) (writable other : Bool) :
    (leftOf pipe writable).any (·.isOpen other) =
      (pipe.isOpen other && decide (other ≠ writable)) := by
  obtain ⟨readopen, writeopen⟩ := pipe
  revert readopen writeopen writable other
  decide

theorem leftOf_live {left : Pipe} (found : leftOf pipe writable = some left) :
    left.readopen = true ∨ left.writeopen = true := by
  obtain ⟨readopen, writeopen⟩ := pipe
  obtain ⟨readopen', writeopen'⟩ := left
  revert readopen writeopen readopen' writeopen' writable
  decide

theorem pipeclose_eq (found : t.pipes page = some pipe) (writable : Bool) :
    t.pipeclose page writable =
      some (if (leftOf pipe writable).isNone then .page page else .nothing,
        t.setPipe page (leftOf pipe writable)) := by
  obtain ⟨readopen, writeopen⟩ := pipe
  simp only [pipeclose, found]
  cases readopen <;> cases writeopen <;> cases writable <;> rfl

theorem fileclose_cases {released : Released I} (result : t.fileclose f = some (released, t')) :
    (0 < (t.files f).ref - 1 ∧ released = .nothing ∧
        t' = t.setFile f { t.files f with ref := (t.files f).ref - 1 }) ∨
      (¬ 0 < (t.files f).ref - 1 ∧
        (((t.files f).kind = .none ∧ released = .nothing ∧ t' = t.clearFile f) ∨
          (∃ ip, (t.files f).kind = .inode ip ∧ released = .inode ip ∧ t' = t.clearFile f) ∨
          ∃ page pipe, (t.files f).kind = .pipe page ∧ t.pipes page = some pipe ∧
            released =
              (if (leftOf pipe (t.files f).writable).isNone then .page page else .nothing) ∧
            t' = (t.clearFile f).setPipe page (leftOf pipe (t.files f).writable))) := by
  obtain ⟨-, result⟩ := ite_none_left_eq_some.mp result
  split at result
  case isTrue others =>
    cases result
    exact .inl ⟨others, rfl, rfl⟩
  case isFalse only =>
    refine .inr ⟨only, ?_⟩
    split at result
    case h_1 kind =>
      cases result
      exact .inl ⟨kind, rfl, rfl⟩
    case h_2 page kind =>
      cases found : t.pipes page with
      | none =>
        have found' : (t.clearFile f).pipes page = none := found
        rw [pipeclose, found'] at result
        cases result
      | some pipe =>
        rw [pipeclose_eq (t := t.clearFile f) found] at result
        cases result
        exact .inr (.inr ⟨page, pipe, kind, found, rfl, rfl⟩)
    case h_3 ip kind =>
      cases result
      exact .inr (.inl ⟨ip, kind, rfl, rfl⟩)

theorem filealloc_none (result : t.filealloc = (none, t')) : t' = t := by
  simp only [filealloc] at result
  split at result
  case h_1 => cases result
  case h_2 =>
    cases result
    rfl

theorem fdalloc_some (result : t.fdalloc p f = (some fd, t')) :
    t.ofile (p, fd) = none ∧ t' = t.setSlot (p, fd) (some f) := by
  simp only [fdalloc] at result
  split at result
  case h_2 => cases result
  case h_1 fd' found =>
    cases result
    have passes := find?_some found
    exact ⟨isNone_iff_eq_none.mp passes, rfl⟩

theorem fdalloc_none (result : t.fdalloc p f = (none, t')) : t' = t := by
  simp only [fdalloc] at result
  split at result
  case h_1 => cases result
  case h_2 =>
    cases result
    rfl

/-- The descriptors that point to a file. -/
def slots (t : Table I) (f : FileIndex) : Nat :=
  ∑ slot, if t.ofile slot = some f then 1 else 0

theorem slots_setSlot (t : Table I) (slot : Pid × Fd) (new : Option FileIndex) (f : FileIndex) :
    (t.setSlot slot new).slots f + (if t.ofile slot = some f then 1 else 0) =
      t.slots f + (if new = some f then 1 else 0) :=
  sum_update (fun entry : Option FileIndex => if entry = some f then 1 else 0) t.ofile slot new

theorem pipes_setPipe_self (t : Table I) (page : Nat) (pipe : Option Pipe) :
    (t.setPipe page pipe).pipes page = pipe :=
  update_self _ _ _

theorem pipes_setPipe_of_ne (t : Table I) {page' : Nat} (different : page' ≠ page)
    {pipe : Option Pipe} : (t.setPipe page pipe).pipes page' = t.pipes page' :=
  update_of_ne different _ _

theorem filealloc_some_eq (result : t.filealloc = (some f, t')) :
    (t.files f).ref = 0 ∧ t' = t.setFile f { t.files f with ref := 1 } := by
  simp only [filealloc] at result
  split at result
  case h_2 => cases result
  case h_1 f' found =>
    cases result
    have passes := find?_some found
    exact ⟨by simpa using passes, rfl⟩

theorem filedup_eq (result : t.filedup f = some t') :
    t' = t.setFile f { t.files f with ref := (t.files f).ref + 1 } := by
  simp only [filedup] at result
  split at result
  case isTrue => cases result
  case isFalse =>
    cases result
    rfl

theorem ofile_filedup (result : t.filedup f = some t') : t'.ofile = t.ofile := by
  rw [filedup_eq result]
  rfl

theorem filedup_setSlot (t : Table I) (slot : Pid × Fd) (new : Option FileIndex) (f : FileIndex) :
    (t.setSlot slot new).filedup f = (t.filedup f).map fun t => t.setSlot slot new := by
  simp only [filedup]
  by_cases isOpen : (t.files f).ref < 1
  · rw [if_pos isOpen]
    exact if_pos isOpen
  · rw [if_neg isOpen]
    exact if_neg isOpen

theorem pipeclose_setSlot (t : Table I) (slot : Pid × Fd) (new : Option FileIndex) (page : Nat)
    (writable : Bool) :
    (t.setSlot slot new).pipeclose page writable =
      (t.pipeclose page writable).map fun (released, t) => (released, t.setSlot slot new) := by
  cases found : t.pipes page with
  | none =>
    have found' : (t.setSlot slot new).pipes page = none := found
    simp [pipeclose, found, found']
  | some pipe =>
    rw [pipeclose_eq found, pipeclose_eq (t := t.setSlot slot new) found]
    rfl

theorem fileclose_setSlot (t : Table I) (slot : Pid × Fd) (new : Option FileIndex) (f : FileIndex) :
    (t.setSlot slot new).fileclose f =
      (t.fileclose f).map fun (released, t) => (released, t.setSlot slot new) := by
  have same : (t.setSlot slot new).files f = t.files f := rfl
  rw [fileclose, fileclose, same]
  dsimp only
  split
  case isTrue => rfl
  case isFalse =>
    split
    case isTrue => rfl
    case isFalse =>
      cases (t.files f).kind with
      | none => rfl
      | inode ip => rfl
      | pipe page => exact pipeclose_setSlot (t.clearFile f) slot new page (t.files f).writable

theorem pipes_clearFile (t : Table I) (f : FileIndex) : (t.clearFile f).pipes = t.pipes := rfl

/-- Only descriptors of one process differ. -/
def Others (p : Pid) (t t' : Table I) : Prop :=
  ∀ slot : Pid × Fd, slot.1 ≠ p → t'.ofile slot = t.ofile slot

theorem others_setSlot (t : Table I) (fd : Fd) (f : Option FileIndex) :
    Others p t (t.setSlot (p, fd) f) := by
  intro slot other
  apply update_of_ne
  intro same
  rw [same] at other
  exact other rfl

/-- What the loop of `exit` has passed stays empty when it clears the next descriptor. -/
theorem passed_of_slots {fd' : Fd} {rest : List Fd}
    (slots : t'.ofile = update t.ofile (p, fd) none)
    (passed : fd' ∈ fd :: rest ∨ t.ofile (p, fd') = none) :
    fd' ∈ rest ∨ t'.ofile (p, fd') = none := by
  rw [slots]
  by_cases same : fd' = fd
  · right
    rw [same, update_self]
  · refine passed.imp (fun member => (mem_cons.mp member).resolve_left same) fun empty => ?_
    rw [update_of_ne fun both => same (congrArg Prod.snd both)]
    exact empty

/-! ## The ends of a pipe -/

theorem pipes_connect_self : (t.connect rf wf page).pipes page = some ⟨true, true⟩ :=
  update_self _ _ _

theorem pipes_connect_of_ne {page' : Nat} (different : page' ≠ page) :
    (t.connect rf wf page).pipes page' = t.pipes page' :=
  update_of_ne different _ _

theorem files_setEnd_of_ne {f' : FileIndex} (different : f' ≠ f) :
    (t.setEnd f page writable).files f' = t.files f' :=
  update_of_ne different _ _

theorem ref_setEnd (f' : FileIndex) :
    ((t.setEnd f page writable).files f').ref = (t.files f').ref := by
  simp only [setEnd, setFile]
  induction f' using update_cases with
  | own => rfl
  | others f' _ => rfl

/-- The second file is not open on anything when the first has become an end. -/
theorem kind_setEnd_first (different : rf ≠ wf) (none : (t.files wf).kind = .none) (page : Nat) :
    (((t.setPipe page (some ⟨true, true⟩)).setEnd rf page false).files wf).kind = .none := by
  rw [files_setEnd_of_ne (Ne.symm different)]
  exact none

theorem files_connect_of_ne (notRead : f ≠ rf) (notWrite : f ≠ wf) :
    (t.connect rf wf page).files f = t.files f := by
  rw [connect, files_setEnd_of_ne notWrite, files_setEnd_of_ne notRead]
  rfl

theorem ref_connect (f : FileIndex) :
    ((t.connect rf wf page).files f).ref = (t.files f).ref := by
  rw [connect, ref_setEnd, ref_setEnd]
  rfl

theorem kind_setEnd_self : ((t.setEnd f page writable).files f).kind = .pipe page := by
  simp [setEnd, setFile]

theorem noInode_connect (isEnd : f = rf ∨ f = wf) (i : I) :
    ((t.connect rf wf page).files f).kind ≠ .inode i := by
  have kind : ((t.connect rf wf page).files f).kind = .pipe page := by
    rw [connect]
    by_cases isWrite : f = wf
    · rw [isWrite]
      exact kind_setEnd_self
    · rw [files_setEnd_of_ne isWrite, isEnd.resolve_right isWrite]
      exact kind_setEnd_self
  rw [kind]
  exact nofun

/-! ## Files that are open on no inode -/

theorem files_fileclose_of_ne {released : Released I} (result : t.fileclose f = some (released, t')) {f' : FileIndex}
    (different : f' ≠ f) : t'.files f' = t.files f' := by
  obtain ⟨-, -, rfl⟩ | ⟨-, ⟨-, -, rfl⟩ | ⟨ip, -, -, rfl⟩ | ⟨page, pipe, -, -, -, rfl⟩⟩ :=
    fileclose_cases result
  all_goals exact update_of_ne different _ _

/-- Only a file that is open on an inode lets go of one. -/
theorem kind_of_released {i : I} (result : t.fileclose f = some (.inode i, t')) :
    (t.files f).kind = .inode i := by
  obtain ⟨-, isNothing, -⟩ | ⟨-, ⟨-, isNothing, -⟩ | ⟨ip, kind, same, -⟩ |
    ⟨page, pipe, -, -, isPage, -⟩⟩ := fileclose_cases result
  · cases isNothing
  · cases isNothing
  · cases same
    exact kind
  · split at isPage <;> cases isPage

def NoInode (t : Table I) (f : FileIndex) : Prop := ∀ i, (t.files f).kind ≠ .inode i

theorem closeBoth_noInode {first second : FileIndex}
    (different : second ≠ first) (noFirst : t.NoInode first) (noSecond : t.NoInode second)
    (result : t.closeBoth first second = some (list, t')) (i : I) : .inode i ∉ list := by
  simp only [closeBoth] at result
  split at result
  case h_1 => cases result
  case h_2 released₁ t₁ closed₁ =>
    split at result
    case h_1 => cases result
    case h_2 released₂ t₂ closed₂ =>
      cases result
      intro member
      cases mem_cons.mp member with
      | inl same =>
        subst same
        exact noFirst i (kind_of_released closed₁)
      | inr rest =>
        have same := mem_singleton.mp rest
        subst same
        have kind := kind_of_released closed₂
        rw [files_fileclose_of_ne closed₁ different] at kind
        exact noSecond i kind

theorem attach_noInode (different : wf ≠ rf) (noRead : t.NoInode rf) (noWrite : t.NoInode wf)
    (result : t.attach p rf wf = some (answer, list, t')) (i : I) : .inode i ∉ list := by
  simp only [attach] at result
  split at result
  case h_1 noFd =>
    obtain ⟨⟨released₁, t₁⟩, closed, same⟩ := map_eq_some_iff.mp result
    cases same
    rw [fdalloc_none noFd] at closed
    exact closeBoth_noInode different noRead noWrite closed i
  case h_2 fd0 t₁ allocated =>
    obtain ⟨-, isSet⟩ := fdalloc_some allocated
    subst isSet
    split at result
    case h_1 noFd =>
      obtain ⟨⟨released₂, t₂⟩, closed, same⟩ := map_eq_some_iff.mp result
      cases same
      rw [fdalloc_none noFd] at closed
      exact closeBoth_noInode (t := (t.setSlot (p, fd0) (some rf)).setSlot (p, fd0) none) different
        noRead noWrite closed i
    case h_2 =>
      cases result
      exact not_mem_nil

end Table

/-! ## The counts -/

variable [DecidableEq I] {file : File I}

namespace Table

/-- Whether a file is an end of a pipe. -/
def isEnd (page : Nat) (writable : Bool) (file : File I) : Nat :=
  if file.kind = .pipe page ∧ file.writable = writable then 1 else 0

/-- The files open on an end of a pipe. -/
def ends (t : Table I) (page : Nat) (writable : Bool) : Nat :=
  ∑ f, isEnd page writable (t.files f)

def live (t : Table I) (page : Nat) : Nat :=
  if (t.pipes page).isSome then 1 else 0

/-- The files open on an inode. -/
def inodes (t : Table I) (i : I) : Nat :=
  ∑ f, if (t.files f).kind = .inode i then 1 else 0

theorem ends_setFile (t : Table I) (f : FileIndex) (file : File I) (page : Nat) (writable : Bool) :
    (t.setFile f file).ends page writable + isEnd page writable (t.files f) =
      t.ends page writable + isEnd page writable file :=
  sum_update (isEnd page writable) t.files f file

theorem inodes_setFile (t : Table I) (f : FileIndex) (file : File I) (i : I) :
    (t.setFile f file).inodes i + (if (t.files f).kind = .inode i then 1 else 0) =
      t.inodes i + (if file.kind = .inode i then 1 else 0) :=
  sum_update (fun file : File I => if file.kind = .inode i then 1 else 0) t.files f file

theorem isEnd_none (none : file.kind = .none) (page : Nat) (writable : Bool) :
    isEnd page writable file = 0 := by
  rw [isEnd, none, if_neg (fun isPipe => nomatch isPipe.1)]

theorem isEnd_pipe (kind : file.kind = .pipe page) (page' : Nat) (writable : Bool) :
    isEnd page' writable file = if page' = page ∧ writable = file.writable then 1 else 0 := by
  rw [isEnd, kind]
  apply if_congr _ rfl rfl
  rw [Kind.pipe.injEq]
  exact and_congr eq_comm eq_comm

theorem isEnd_inode {i : I} (kind : file.kind = .inode i) (page : Nat)
    (writable : Bool) : isEnd page writable file = 0 := by
  rw [isEnd, kind, if_neg (fun isPipe => nomatch isPipe.1)]

structure Exact (t : Table I) (held : List FileIndex) : Prop where
  refs : ∀ f, (t.files f).ref = t.slots f + held.count f
  closed : ∀ f, (t.files f).ref = 0 → (t.files f).kind = .none
  ends : ∀ page writable, t.ends page writable =
    if (t.pipes page).any (·.isOpen writable) then 1 else 0
  live : ∀ page pipe, t.pipes page = some pipe → pipe.readopen = true ∨ pipe.writeopen = true

variable {t t' : Table I} {held : List FileIndex} {f : FileIndex} {released : List (Released I)}

theorem exact_empty : Exact (Table.empty I) [] where
  refs f := by
    have none : ∀ slot : Pid × Fd, (if (empty I).ofile slot = some f then 1 else 0) = 0 :=
      fun slot => if_neg nofun
    rw [slots, Finset.sum_congr rfl fun slot _ => none slot, Finset.sum_const_zero]
    rfl
  closed f _ := rfl
  ends page writable := by
    have none : ∀ f : FileIndex, isEnd page writable ((empty I).files f) = 0 :=
      fun f => isEnd_none rfl page writable
    rw [ends, Finset.sum_congr rfl fun f _ => none f]
    rfl
  live page pipe found := by cases found

namespace Exact

section

variable (exact : Exact t held)
include exact

theorem ref_pos (member : f ∈ held) : 0 < (t.files f).ref := by
  have count := exact.refs f
  have positive := count_pos_iff.mpr member
  omega

theorem pipe_of_file (kind : (t.files f).kind = .pipe page) :
    ∃ pipe, t.pipes page = some pipe ∧ pipe.isOpen (t.files f).writable = true := by
  have count := exact.ends page (t.files f).writable
  have part := le_sum (fun f' => isEnd page (t.files f).writable (t.files f')) f
  simp only [isEnd_pipe kind, and_self, if_true] at part
  rw [Table.ends] at count
  split at count
  case isFalse => omega
  case isTrue isOpen =>
    obtain ⟨pipe, found, isOpen⟩ := (Option.any_eq_true _ _).mp isOpen
    exact ⟨pipe, found, isOpen⟩

/-! ## Changes of one file -/

theorem refs_setFile (own : file.ref = t.slots f + held'.count f)
    (others : ∀ f', f' ≠ f → held'.count f' = held.count f') (f' : FileIndex) :
    ((t.setFile f file).files f').ref = t.slots f' + held'.count f' := by
  simp only [setFile]
  induction f' using update_cases with
  | own => exact own
  | others f' different => rw [exact.refs f', others f' different]

theorem closed_setFile (closed : file.ref = 0 → file.kind = .none) (f' : FileIndex)
    (isZero : ((t.setFile f file).files f').ref = 0) :
    ((t.setFile f file).files f').kind = .none := by
  simp only [setFile] at isZero ⊢
  induction f' using update_cases with
  | own => exact closed isZero
  | others f' _ => exact exact.closed f' isZero

theorem of_sameKinds
    (kind : file.kind = (t.files f).kind) (writable : file.writable = (t.files f).writable)
    (refs : ∀ f', ((t.setFile f file).files f').ref = t.slots f' + held'.count f')
    (closed : file.ref = 0 → file.kind = .none) : Exact (t.setFile f file) held' where
  refs := refs
  closed := exact.closed_setFile closed
  ends page writable' := by
    have change := ends_setFile t f file page writable'
    have same : isEnd page writable' file = isEnd page writable' (t.files f) := by
      rw [isEnd, isEnd, kind, writable]
    rw [same] at change
    rw [add_right_cancel change, exact.ends page writable']
    rfl
  live := exact.live

theorem gain {ref : Nat} (one : ref = (t.files f).ref + 1) :
    Exact (t.setFile f { t.files f with ref }) (f :: held) := by
  have count := exact.refs f
  refine exact.of_sameKinds rfl rfl (exact.refs_setFile ?_ ?_) ?_
  · show ref = _
    rw [count_cons_self]
    omega
  · intro f' other
    exact count_cons_of_ne other.symm
  · intro isZero
    rw [one] at isZero
    cases isZero

theorem filealloc_some (result : t.filealloc = (some f, t')) :
    Exact t' (f :: held) ∧ (t'.files f).kind = .none := by
  obtain ⟨isZero, isSet⟩ := filealloc_some_eq result
  subst isSet
  refine ⟨exact.gain (by rw [isZero]), ?_⟩
  simp only [setFile, update_self]
  exact exact.closed f isZero

theorem filedup (result : t.filedup f = some t') : Exact t' (f :: held) := by
  rw [filedup_eq result]
  exact exact.gain rfl

/-! ## Descriptors -/

theorem setSlot {new : Option FileIndex}
    (moved : ∀ f', held'.count f' + (if new = some f' then 1 else 0) =
      held.count f' + (if t.ofile slot = some f' then 1 else 0)) :
    Exact (t.setSlot slot new) held' where
  refs f' := by
    have count := exact.refs f'
    have change := slots_setSlot t slot new f'
    have moved := moved f'
    show (t.files f').ref = _
    omega
  closed := exact.closed
  ends := exact.ends
  live := exact.live

theorem take (points : t.ofile slot = some f) : Exact (t.setSlot slot none) (f :: held) := by
  apply exact.setSlot
  intro f'
  rw [points, count_cons]
  simp

end

theorem give (exact : Exact t (f :: held)) (free : t.ofile slot = none) :
    Exact (t.setSlot slot (some f)) held := by
  apply exact.setSlot
  intro f'
  rw [free, count_cons]
  simp

/-! ## Closing -/

theorem refs_drop (exact : Exact t (f :: held)) (one : file.ref = (t.files f).ref - 1)
    (f' : FileIndex) : ((t.setFile f file).files f').ref = t.slots f' + held.count f' := by
  have count := exact.refs f
  rw [count_cons_self] at count
  refine exact.refs_setFile (by omega) (fun f' other => ?_) f'
  exact (count_cons_of_ne other.symm).symm

theorem drop (exact : Exact t (f :: held)) (others : 0 < (t.files f).ref - 1) :
    Exact (t.setFile f { t.files f with ref := (t.files f).ref - 1 }) held :=
  exact.of_sameKinds rfl rfl (exact.refs_drop rfl) fun isZero => absurd isZero (ne_of_gt others)

/-- The last reference is dropped: what is left but for the pipe. -/
theorem last (exact : Exact t (f :: held)) (only : ¬ 0 < (t.files f).ref - 1) (f' : FileIndex) :
    ((t.clearFile f).files f').ref = t.slots f' + held.count f' :=
  exact.refs_drop (Nat.eq_zero_of_not_pos only).symm f'

theorem closed_last (exact : Exact t held) (f' : FileIndex)
    (isZero : ((t.clearFile f).files f').ref = 0) : ((t.clearFile f).files f').kind = .none :=
  exact.closed_setFile (fun _ => rfl) f' isZero

theorem ends_clearFile (t : Table I) (f : FileIndex) (page : Nat) (writable : Bool) :
    (t.clearFile f).ends page writable + isEnd page writable (t.files f) =
      t.ends page writable := by
  have change := ends_setFile t f { t.files f with ref := 0, kind := .none } page writable
  have cleared : isEnd page writable ({ t.files f with ref := 0, kind := .none } : File I) = 0 :=
    isEnd_none rfl page writable
  rw [cleared, add_zero] at change
  exact change

theorem inodes_clearFile (t : Table I) (f : FileIndex) (i : I) :
    (t.clearFile f).inodes i + (if (t.files f).kind = .inode i then 1 else 0) = t.inodes i := by
  have change := inodes_setFile t f { t.files f with ref := 0, kind := .none } i
  rw [if_neg (show ¬ (Kind.none : Kind I) = .inode i from nofun), add_zero] at change
  exact change

theorem closeEnd (exact : Exact t (f :: held)) (only : ¬ 0 < (t.files f).ref - 1)
    (kind : (t.files f).kind = .pipe page) (found : t.pipes page = some pipe)
    (isOpen : pipe.isOpen (t.files f).writable = true) :
    Exact ((t.clearFile f).setPipe page (leftOf pipe (t.files f).writable)) held where
  refs := exact.last only
  closed := exact.closed_last
  ends page' writable := by
    have change := ends_clearFile t f page' writable
    rw [isEnd_pipe kind, exact.ends] at change
    show (t.clearFile f).ends page' writable = _
    by_cases samePage : page' = page
    · subst samePage
      rw [pipes_setPipe_self, leftOf_isOpen]
      rw [found, any_some] at change
      by_cases sameEnd : writable = (t.files f).writable
      · subst sameEnd
        simp only [isOpen, and_self, ne_eq, not_true_eq_false, decide_false, Bool.and_false,
          Bool.false_eq_true, if_false] at change ⊢
        omega
      · simp only [sameEnd, and_false, if_false, ne_eq, not_false_eq_true, decide_true,
          Bool.and_true] at change ⊢
        omega
    · rw [if_neg (fun same => samePage same.1)] at change
      rw [pipes_setPipe_of_ne _ samePage, pipes_clearFile]
      omega
  live page' pipe' found' := by
    by_cases samePage : page' = page
    · rw [samePage, pipes_setPipe_self] at found'
      exact leftOf_live found'
    · rw [pipes_setPipe_of_ne _ samePage] at found'
      exact exact.live page' pipe' found'

theorem closeOther (exact : Exact t (f :: held)) (only : ¬ 0 < (t.files f).ref - 1)
    (notPipe : ∀ page, (t.files f).kind ≠ .pipe page) : Exact (t.clearFile f) held where
  refs := exact.last only
  closed := exact.closed_last
  ends page writable := by
    have change := ends_clearFile t f page writable
    have noEnd : isEnd page writable (t.files f) = 0 := if_neg fun isPipe => notPipe page isPipe.1
    rw [exact.ends] at change
    rw [pipes_clearFile]
    omega
  live := exact.live

end Exact

/-- `released` lists what is not open any more: the pipes whose page was freed and the inodes
that files let go of. -/
structure Lets (t t' : Table I) (released : List (Released I)) : Prop where
  pipes : ∀ page, t.live page = t'.live page + released.count (.page page)
  inodes : ∀ i, t.inodes i = t'.inodes i + released.count (.inode i)

namespace Lets

theorem refl (t : Table I) : Lets t t [] where
  pipes page := by rw [count_nil, add_zero]
  inodes i := by rw [count_nil, add_zero]

theorem trans {t'' : Table I} {released' : List (Released I)} (first : Lets t t' released)
    (second : Lets t' t'' released') : Lets t t'' (released ++ released') where
  pipes page := by rw [first.pipes, second.pipes, count_append]; omega
  inodes i := by rw [first.inodes, second.inodes, count_append]; omega

theorem of_same (pipes : t'.pipes = t.pipes) (inodes : ∀ i, t'.inodes i = t.inodes i) :
    Lets t t' [] where
  pipes page := by rw [live, live, pipes, count_nil, add_zero]
  inodes i := by rw [inodes, count_nil, add_zero]

theorem setSlot (t : Table I) (slot : Pid × Fd) (new : Option FileIndex) :
    Lets t (t.setSlot slot new) [] :=
  .of_same rfl fun _ => rfl

theorem pipes_none (lets : Lets t t' []) (before : t.pipes page = none) : t'.pipes page = none := by
  have same := lets.pipes page
  rw [live, live, before] at same
  cases found : t'.pipes page with
  | none => rfl
  | some pipe =>
    rw [found] at same
    cases same

theorem of_nothing (lets : Lets t t' []) : Lets t t' [.nothing] where
  pipes page := by
    rw [lets.pipes, count_nil, count_singleton, if_neg (by simp)]
  inodes i := by
    rw [lets.inodes, count_nil, count_singleton, if_neg (by simp)]

end Lets

theorem lets_filealloc (result : t.filealloc = (some f, t')) : Lets t t' [] := by
  obtain ⟨-, isSet⟩ := filealloc_some_eq result
  rw [isSet]
  refine .of_same rfl fun i => ?_
  exact add_right_cancel (inodes_setFile t f { t.files f with ref := 1 } i)

theorem lets_filedup (result : t.filedup f = some t') : Lets t t' [] := by
  rw [filedup_eq result]
  refine .of_same rfl fun i => ?_
  exact add_right_cancel
    (inodes_setFile t f { t.files f with ref := (t.files f).ref + 1 } i)

omit [DecidableEq I] in
theorem live_connect (fresh : t.pipes page = none) (page' : Nat) :
    (t.connect rf wf page).live page' = t.live page' + if page = page' then 1 else 0 := by
  rw [live, live]
  by_cases same : page = page'
  · rw [← same, pipes_connect_self, fresh, if_pos rfl]
    rfl
  · rw [pipes_connect_of_ne (Ne.symm same), if_neg same, add_zero]

section connect

/-- A file that is not open on anything becomes an end of a pipe. -/
theorem ends_setEnd (none : (t.files f).kind = .none) (page' : Nat) (writable writable' : Bool) :
    (t.setEnd f page writable).ends page' writable' =
      t.ends page' writable' + if page' = page ∧ writable' = writable then 1 else 0 := by
  have change := ends_setFile t f
    { t.files f with kind := .pipe page, readable := !writable, writable } page' writable'
  rw [isEnd_none none, isEnd_pipe rfl, add_zero] at change
  exact change

theorem inodes_setEnd (none : (t.files f).kind = .none) (writable : Bool) (i : I) :
    (t.setEnd f page writable).inodes i = t.inodes i := by
  have change := inodes_setFile t f
    { t.files f with kind := .pipe page, readable := !writable, writable } i
  rw [none, if_neg nofun, if_neg nofun, add_zero, add_zero] at change
  exact change

variable (different : rf ≠ wf) (readKind : (t.files rf).kind = .none)
  (writeKind : (t.files wf).kind = .none)
include different readKind writeKind

/-- Each end of the new pipe has one file. -/
theorem ends_connect (page' : Nat) (writable : Bool) :
    (t.connect rf wf page).ends page' writable =
      t.ends page' writable + if page' = page then 1 else 0 := by
  have readNone : ((t.setPipe page (some ⟨true, true⟩)).files rf).kind = .none := readKind
  rw [connect, ends_setEnd (kind_setEnd_first different writeKind page), ends_setEnd readNone]
  have same : (t.setPipe page (some ⟨true, true⟩)).ends page' writable = t.ends page' writable := rfl
  rw [same]
  cases writable <;> simp

theorem inodes_connect (i : I) : (t.connect rf wf page).inodes i = t.inodes i := by
  have readNone : ((t.setPipe page (some ⟨true, true⟩)).files rf).kind = .none := readKind
  rw [connect, inodes_setEnd (kind_setEnd_first different writeKind page),
    inodes_setEnd readNone]
  rfl

end connect

namespace Exact

theorem perm (exact : Exact t held) (perm : held.Perm held') : Exact t held' where
  refs f := by rw [exact.refs f, perm.count_eq]
  closed := exact.closed
  ends := exact.ends
  live := exact.live

theorem fileclose (exact : Exact t (f :: held)) {released : Released I}
    (result : t.fileclose f = some (released, t')) :
    Exact t' held ∧ t'.ofile = t.ofile ∧ Lets t t' [released] := by
  have change := inodes_clearFile t f
  obtain ⟨others, rfl, rfl⟩ | ⟨only, ⟨kind, rfl, rfl⟩ | ⟨ip, kind, rfl, rfl⟩ |
    ⟨page, pipe, kind, found, rfl, rfl⟩⟩ := fileclose_cases result
  · refine ⟨exact.drop others, rfl, .of_nothing (.of_same rfl fun i => ?_)⟩
    exact add_right_cancel
      (inodes_setFile t f { t.files f with ref := (t.files f).ref - 1 } i)
  · refine ⟨exact.closeOther only (by rw [kind]; exact nofun), rfl,
      .of_nothing (.of_same rfl fun i => ?_)⟩
    have change := change i
    rw [kind, if_neg nofun, add_zero] at change
    exact change
  · refine ⟨exact.closeOther only (by rw [kind]; exact nofun), rfl, fun page => ?_, fun i => ?_⟩
    · rw [count_singleton]
      rfl
    rw [count_singleton, ← change i, kind]
    simp
  · obtain ⟨pipe', found', openThere⟩ := exact.pipe_of_file kind
    cases found.symm.trans found'
    refine ⟨exact.closeEnd only kind found openThere, rfl, fun page' => ?_, fun i => ?_⟩
    · rw [Table.live, Table.live, List.count_singleton]
      by_cases same : page' = page
      · subst same
        rw [pipes_setPipe_self, found]
        cases leftOf pipe (t.files f).writable <;> simp
      · rw [pipes_setPipe_of_ne _ same, pipes_clearFile]
        cases leftOf pipe (t.files f).writable <;> simp [Ne.symm same]
    · have change := change i
      rw [kind, if_neg nofun, add_zero] at change
      rw [count_singleton, if_neg (by cases leftOf pipe (t.files f).writable <;> simp),
        add_zero, ← change]
      rfl

/-- A file that is not open on anything yet becomes one of an inode. -/
theorem openInode (exact : Exact t held) (isOpen : 0 < (t.files f).ref)
    (kind : (t.files f).kind = .none) {i : I} {readable : Bool} :
    Exact (t.setFile f { t.files f with kind := .inode i, readable, writable }) held where
  refs := exact.refs_setFile (exact.refs f) fun _ _ => rfl
  closed := exact.closed_setFile fun isZero => absurd isZero (ne_of_gt isOpen)
  ends page writable' := by
    have change := ends_setFile t f { t.files f with kind := .inode i, readable, writable } page
      writable'
    have isInode : isEnd page writable'
        ({ t.files f with kind := .inode i, readable, writable } : File I) = 0 :=
      isEnd_inode rfl page writable'
    rw [isEnd_none kind, isInode, add_zero, add_zero] at change
    rw [change]
    exact exact.ends page writable'
  live := exact.live

end Exact

/-! ## The calls -/

theorem Exact.reserve_noInode (exact : Exact t held)
    (result : t.reserve = some (none, list, t')) (i : I) : .inode i ∉ list := by
  simp only [reserve] at result
  split at result
  case h_1 =>
    cases result
    exact not_mem_nil
  case h_2 rf t₁ allocated =>
    obtain ⟨-, kind⟩ := exact.filealloc_some allocated
    split at result
    case h_2 => cases result
    case h_1 noFile =>
      obtain ⟨⟨released₁, t₂⟩, closed, same⟩ := map_eq_some_iff.mp result
      cases same
      rw [filealloc_none noFile] at closed
      intro member
      have same := mem_singleton.mp member
      subst same
      rw [kind_of_released closed] at kind
      cases kind

namespace Exact

theorem close (exact : Exact t held) {fd : Nat} {released : Released I}
    (result : t.close p fd = some (released, t')) :
    Exact t' held ∧ Lets t t' [released] ∧ Others p t t' := by
  simp only [Table.close] at result
  split at result
  case h_1 =>
    cases result
    exact ⟨exact, .of_nothing (.refl t), fun _ _ => rfl⟩
  case h_2 fd' f found =>
    have points : t.ofile (p, fd') = some f := by
      simp only [argfd] at found
      split at found
      case isFalse => cases found
      case isTrue =>
        obtain ⟨f', points, same⟩ := map_eq_some_iff.mp found
        cases same
        exact points
    obtain ⟨exact', slots, lets⟩ := (exact.take points).fileclose result
    refine ⟨exact', (Lets.setSlot t (p, fd') none).trans lets, fun slot other => ?_⟩
    rw [slots]
    exact others_setSlot t fd' none slot other

theorem share (exact : Exact t held) (free : t.ofile slot = none)
    (counted : t.filedup f = some t') :
    Exact (t'.setSlot slot (some f)) held ∧ Lets t (t'.setSlot slot (some f)) [] ∧
      ∀ other, other ≠ slot → (t'.setSlot slot (some f)).ofile other = t.ofile other := by
  have slotFree : t'.ofile slot = none := by rw [ofile_filedup counted, free]
  refine ⟨(exact.filedup counted).give slotFree,
    (lets_filedup counted).trans (Lets.setSlot t' slot (some f)), fun other different => ?_⟩
  rw [← ofile_filedup counted]
  exact update_of_ne different _ _

theorem dup (exact : Exact t held) {fd : Nat} (result : t.dup p fd = some (answer, t')) :
    Exact t' held ∧ Lets t t' [] ∧ Others p t t' := by
  simp only [Table.dup] at result
  split at result
  case h_1 =>
    cases result
    exact ⟨exact, .refl t, fun _ _ => rfl⟩
  case h_2 f found =>
    split at result
    case h_1 noFd =>
      cases result
      rw [fdalloc_none noFd]
      exact ⟨exact, .refl t, fun _ _ => rfl⟩
    case h_2 fd' t₁ allocated =>
      obtain ⟨free, isSet⟩ := fdalloc_some allocated
      subst isSet
      obtain ⟨t₂, dupped, same⟩ := map_eq_some_iff.mp result
      cases same
      -- the descriptor is set before the reference is counted; the order does not matter
      rw [filedup_setSlot] at dupped
      obtain ⟨t₃, counted, isSet⟩ := map_eq_some_iff.mp dupped
      subst isSet
      obtain ⟨exact', lets, same⟩ := exact.share free counted
      exact ⟨exact', lets, fun slot other => same slot fun isSlot => other (by rw [isSlot])⟩

theorem closeBoth {first second : FileIndex} (exact : Exact t (first :: second :: held))
    (result : t.closeBoth first second = some (released, t')) :
    Exact t' held ∧ t'.ofile = t.ofile ∧ Lets t t' released := by
  simp only [Table.closeBoth] at result
  split at result
  case h_1 => cases result
  case h_2 released₁ t₁ closed₁ =>
    obtain ⟨exact₁, slots₁, lets₁⟩ := exact.fileclose closed₁
    split at result
    case h_1 => cases result
    case h_2 released₂ t₂ closed₂ =>
      obtain ⟨exact₂, slots₂, lets₂⟩ := exact₁.fileclose closed₂
      cases result
      exact ⟨exact₂, slots₂.trans slots₁, lets₁.trans lets₂⟩

theorem reserve_none (exact : Exact t held) (result : t.reserve = some (none, released, t')) :
    Exact t' held ∧ Lets t t' released ∧ t'.ofile = t.ofile := by
  simp only [reserve] at result
  split at result
  case h_1 noFile =>
    cases result
    rw [filealloc_none noFile]
    exact ⟨exact, .refl t, rfl⟩
  case h_2 rf t₁ allocated =>
    obtain ⟨exact₁, -⟩ := exact.filealloc_some allocated
    split at result
    case h_2 => cases result
    case h_1 noFile =>
      obtain ⟨⟨released₁, t₂⟩, closed, same⟩ := map_eq_some_iff.mp result
      cases same
      rw [filealloc_none noFile] at closed
      obtain ⟨exact₂, slots, lets⟩ := exact₁.fileclose closed
      refine ⟨exact₂, (lets_filealloc allocated).trans lets, ?_⟩
      rw [slots, (filealloc_some_eq allocated).2]
      rfl

theorem reserve_some (exact : Exact t held)
    (result : t.reserve = some (some (rf, wf), released, t')) :
    released = [] ∧ Exact t' (wf :: rf :: held) ∧ Lets t t' [] ∧ t'.ofile = t.ofile ∧ rf ≠ wf ∧
      (t'.files rf).kind = .none ∧ (t'.files wf).kind = .none := by
  simp only [reserve] at result
  split at result
  case h_1 => cases result
  case h_2 rf' t₁ allocated =>
    obtain ⟨exact₁, kind₁⟩ := exact.filealloc_some allocated
    split at result
    case h_1 noFile =>
      obtain ⟨⟨released₁, t₂⟩, closed, same⟩ := map_eq_some_iff.mp result
      cases same
    case h_2 wf' t₂ allocated' =>
      cases result
      obtain ⟨exact₂, kind₂⟩ := exact₁.filealloc_some allocated'
      obtain ⟨isZero, isSet⟩ := filealloc_some_eq allocated'
      have different : rf ≠ wf := by
        intro same
        have positive := exact₁.ref_pos mem_cons_self
        rw [same, isZero] at positive
        exact absurd positive (lt_irrefl 0)
      refine ⟨rfl, exact₂, (lets_filealloc allocated).trans (lets_filealloc allocated'), ?_,
        different, ?_, kind₂⟩
      · rw [isSet, (filealloc_some_eq allocated).2]
        rfl
      · rw [isSet]
        simp only [setFile, update_of_ne different]
        exact kind₁

theorem connect (exact : Exact t (wf :: rf :: held))
    (fresh : t.pipes page = none) (different : rf ≠ wf) (readKind : (t.files rf).kind = .none)
    (writeKind : (t.files wf).kind = .none) : Exact (t.connect rf wf page) (wf :: rf :: held) where
  refs f := by rw [ref_connect, exact.refs f]; rfl
  closed f isZero := by
    rw [ref_connect] at isZero
    have notWrite : f ≠ wf := by
      intro same
      have positive := exact.ref_pos mem_cons_self
      rw [same] at isZero
      omega
    have notRead : f ≠ rf := by
      intro same
      have positive := exact.ref_pos (mem_cons_of_mem wf mem_cons_self)
      rw [same] at isZero
      omega
    rw [files_connect_of_ne notRead notWrite]
    exact exact.closed f isZero
  ends page' writable := by
    have count := exact.ends page' writable
    have change : (t.connect rf wf page).ends page' writable =
        t.ends page' writable + if page' = page then 1 else 0 :=
      ends_connect different readKind writeKind page' writable
    by_cases same : page' = page
    · subst same
      rw [fresh] at count
      rw [pipes_connect_self]
      cases writable <;> simp only [Pipe.isOpen] at count ⊢ <;>
        simpa [count] using change
    · rw [if_neg same] at change
      rw [pipes_connect_of_ne same, change, count, add_zero]
  live page' pipe found := by
    by_cases same : page' = page
    · rw [same, pipes_connect_self] at found
      cases found
      exact .inl rfl
    · rw [pipes_connect_of_ne same] at found
      exact exact.live page' pipe found

theorem attach (exact : Exact t (wf :: rf :: held))
    (result : t.attach p rf wf = some (answer, released, t')) :
    Exact t' held ∧ Lets t t' released ∧ Others p t t' := by
  have swapped : Exact t (rf :: wf :: held) := exact.perm (List.Perm.swap rf wf held)
  simp only [Table.attach] at result
  split at result
  case h_1 noFd =>
    obtain ⟨⟨released₁, t₁⟩, closed, same⟩ := map_eq_some_iff.mp result
    cases same
    rw [fdalloc_none noFd] at closed
    obtain ⟨exact₁, slots, lets⟩ := swapped.closeBoth closed
    exact ⟨exact₁, lets, fun slot _ => congrFun slots slot⟩
  case h_2 fd0 t₁ allocated =>
    obtain ⟨free₁, isSet⟩ := fdalloc_some allocated
    subst isSet
    have exact₁ := swapped.give free₁
    have lets₁ := Lets.setSlot t (p, fd0) (some rf)
    have others₁ : Others p t (t.setSlot (p, fd0) (some rf)) := others_setSlot t fd0 (some rf)
    split at result
    case h_1 noFd =>
      obtain ⟨⟨released₂, t₂⟩, closed, same⟩ := map_eq_some_iff.mp result
      cases same
      rw [fdalloc_none noFd] at closed
      -- the descriptor is cleared again before both files are closed
      have taken := exact₁.take (update_self _ _ _)
      obtain ⟨exact₂, slots, lets⟩ := taken.closeBoth closed
      refine ⟨exact₂, lets₁.trans ((Lets.setSlot _ (p, fd0) none).trans lets), fun slot other => ?_⟩
      rw [slots, others_setSlot _ fd0 none slot other, others₁ slot other]
    case h_2 fd1 t₂ allocated' =>
      obtain ⟨free₂, isSet⟩ := fdalloc_some allocated'
      subst isSet
      cases result
      refine ⟨exact₁.give free₂, lets₁.trans (Lets.setSlot _ (p, fd1) (some wf)),
        fun slot other => ?_⟩
      rw [others_setSlot _ fd1 (some wf) slot other, others₁ slot other]

/-! ## Fork and exit -/

theorem copySlot (exact : Exact t held) {child : Pid} (free : t.ofile (child, fd) = none)
    (result : t.copySlot p child fd = some t') : Exact t' held ∧ Lets t t' [] ∧
      ∀ slot, slot ≠ (child, fd) → t'.ofile slot = t.ofile slot := by
  simp only [Table.copySlot] at result
  split at result
  case h_1 =>
    cases result
    exact ⟨exact, .refl t, fun slot _ => rfl⟩
  case h_2 f points =>
    obtain ⟨t₁, counted, isSet⟩ := map_eq_some_iff.mp result
    subst isSet
    exact exact.share free counted

theorem copySlots {child : Pid} {fds : List Fd} (distinct : fds.Nodup) (exact : Exact t held)
    (free : ∀ fd ∈ fds, t.ofile (child, fd) = none) (result : copySlots p child fds t = some t') :
    Exact t' held ∧ Lets t t' [] ∧ Others child t t' := by
  induction fds generalizing t with
  | nil =>
    cases result
    exact ⟨exact, .refl _, fun slot _ => rfl⟩
  | cons fd fds ih =>
    obtain ⟨t₁, first, rest⟩ := bind_eq_some_iff.mp result
    obtain ⟨exact₁, lets₁, same₁⟩ := exact.copySlot (free fd mem_cons_self) first
    have free₁ : ∀ fd' ∈ fds, t₁.ofile (child, fd') = none := by
      intro fd' member
      rw [same₁ (child, fd') ?_]
      · exact free fd' (mem_cons_of_mem fd member)
      · intro same
        cases same
        exact (nodup_cons.mp distinct).1 member
    obtain ⟨exact₂, lets₂, same₂⟩ := ih (nodup_cons.mp distinct).2 exact₁ free₁ rest
    refine ⟨exact₂, lets₁.trans lets₂, fun slot other => ?_⟩
    rw [same₂ slot other]
    apply same₁
    intro same
    rw [same] at other
    exact other rfl

theorem closeSlot (exact : Exact t held) {released : Released I}
    (result : t.closeSlot p fd = some (released, t')) :
    Exact t' held ∧ Lets t t' [released] ∧
      t'.ofile = update t.ofile (p, fd) none := by
  simp only [Table.closeSlot] at result
  split at result
  case h_1 empty =>
    cases result
    refine ⟨exact, .of_nothing (.refl t), ?_⟩
    rw [← empty, update_eq_self]
  case h_2 f points =>
    -- the descriptor is cleared after the file is closed; the order does not matter
    rw [← fileclose_setSlot] at result
    obtain ⟨exact₁, slots, lets⟩ := (exact.take points).fileclose result
    exact ⟨exact₁, (Lets.setSlot t (p, fd) none).trans lets, slots⟩

end Exact

end Table

end Laboratorio.Xv6.Ftable
