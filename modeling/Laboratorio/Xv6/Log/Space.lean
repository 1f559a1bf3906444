import Laboratorio.Lib.Sum
import Laboratorio.Xv6.Log.Ops

/-! # Is the reservation of `begin_op` sufficient?

`begin_op` reserves `MAXOPBLOCKS` blocks for each operation out of `LOGSIZE`, but a log
of `nlog = LOGSIZE` blocks has one block less for data, and `log_write` tests for room
before it knows whether the block is logged already.  Three operations of ten blocks
fill the log up to the thirtieth block, whose `log_write` panics
(`three_full_operations_panic`).

With one block less in each operation the reservation is sufficient
(`reservation_sufficient_below_max`).  The invariant counts the blocks in the log
together with the room that the operations under way still have: `begin_op` admits one
only if that sum stays two below `nlog`.
-/

namespace Laboratorio.Xv6.Logs

open Laboratorio.Lib Function Kernel Logs.Frame List

variable {lh logged : List Nat} {frame : Frame} {start size n : Nat} {bufs : Buffers}
  {write : Nat × Block}

/-! ## Counting processes -/

namespace Frame

/-- One for a process between its `begin_op` and its `end_op`. -/
def operating : Frame → Nat
  | .inOp _ | .logWrite _ _ => 1
  | _ => 0

/-- One for a process in the second half of `end_op`. -/
def closing : Frame → Nat
  | .commit | .committed => 1
  | _ => 0

/-- The blocks that an operation of at most `bound` blocks may still log. -/
def room (bound : Nat) : Frame → Nat
  | .inOp logged | .logWrite logged _ => bound - logged.length
  | _ => 0

/-- The blocks an operation has logged are in `lh`, and they are not too many. -/
def Within (bound : Nat) (lh : List Nat) : Frame → Prop
  | .inOp logged => logged.length ≤ bound ∧ ∀ blockno ∈ logged, blockno ∈ lh
  | .logWrite logged blockno => logged.length ≤ bound ∧ (∀ other ∈ logged, other ∈ lh) ∧
      (blockno ∈ logged ∨ logged.length < bound)
  | _ => True

theorem room_le (bound : Nat) (frame : Frame) : frame.room bound ≤ bound * frame.operating := by
  cases frame <;> simp [room, operating]

end Frame

namespace Kernel

variable (kernel : Kernel n) (pid : Fin n) (frame : Frame) (bound : Nat)

/-- The operations under way. -/
def operating : Nat := total fun pid => (kernel.procs pid).operating

def closing : Nat := total fun pid => (kernel.procs pid).closing

def room : Nat := total fun pid => (kernel.procs pid).room bound

theorem operating_goto : (kernel.goto pid frame).operating + (kernel.procs pid).operating =
    kernel.operating + frame.operating :=
  total_update (fun _ => Frame.operating) kernel.procs pid frame

theorem closing_goto : (kernel.goto pid frame).closing + (kernel.procs pid).closing =
    kernel.closing + frame.closing :=
  total_update (fun _ => Frame.closing) kernel.procs pid frame

theorem room_goto : (kernel.goto pid frame).room bound + (kernel.procs pid).room bound =
    kernel.room bound + frame.room bound :=
  total_update (fun _ => Frame.room bound) kernel.procs pid frame

theorem operating_le : (kernel.procs pid).operating ≤ kernel.operating :=
  le_total (fun pid => (kernel.procs pid).operating) pid

theorem closing_le : (kernel.procs pid).closing ≤ kernel.closing :=
  le_total (fun pid => (kernel.procs pid).closing) pid

theorem room_le_operating : kernel.room bound ≤ bound * kernel.operating := by
  rw [room, operating, total, total, Finset.mul_sum]
  exact Finset.sum_le_sum fun pid _ => Frame.room_le bound (kernel.procs pid)

/-- Sleepers count as much as those that come back to the test. -/
theorem weight_wakeup {weight : Frame → Nat} (equal : weight .asleep = weight .beginOp) :
    (fun pid => weight (kernel.wakeup.procs pid)) = fun pid => weight (kernel.procs pid) := by
  funext pid
  simp only [wakeup]
  split
  case isTrue sleeps => rw [sleeps, equal]
  case isFalse => rfl

theorem operating_wakeup : kernel.wakeup.operating = kernel.operating :=
  congrArg total (kernel.weight_wakeup rfl)

theorem closing_wakeup : kernel.wakeup.closing = kernel.closing :=
  congrArg total (kernel.weight_wakeup rfl)

theorem room_wakeup : kernel.wakeup.room bound = kernel.room bound :=
  congrArg total (kernel.weight_wakeup rfl)

end Kernel

/-! ## The counters -/

/-- `outstanding` and `committing` agree with the places of the processes. -/
structure Counts {n : Nat} (kernel : Kernel n) : Prop where
  outstanding : kernel.outstanding = kernel.operating
  closing : kernel.closing = if kernel.committing then 1 else 0
  closed : kernel.committing = true → kernel.operating = 0

theorem wakeup_goto_idle (kernel : Kernel n) (pid : Fin n) :
    (kernel.goto pid .idle).wakeup = kernel.wakeup.goto pid .idle := by
  unfold wakeup goto
  congr 1
  funext other
  by_cases same : other = pid
  · subst same
    simp
  · simp [same]

namespace Counts

variable {n : Nat} {kernel after : Kernel n} {pid : Fin n} {before : Frame}

theorem initial (start : Initial kernel) : Counts kernel := by
  have none : ∀ weight : Frame → Nat, weight .idle = 0 →
      (total fun pid => weight (kernel.procs pid)) = 0 := by
    intro weight zero
    refine total_eq_zero fun pid => ?_
    rw [start.procs pid, zero]
  have noneOperating : kernel.operating = 0 := none _ rfl
  have noneClosing : kernel.closing = 0 := none _ rfl
  refine ⟨?_, ?_, fun _ => noneOperating⟩
  · rw [start.outstanding, noneOperating]
    rfl
  · rw [noneClosing, start.committing]
    rfl

variable (counts : Counts kernel)
include counts

theorem none_outstanding (committing : kernel.committing = true) : kernel.outstanding = 0 := by
  rw [counts.outstanding, counts.closed committing]
  rfl

/-- An operation under way excludes a commit. -/
theorem running_of_operating (place : kernel.procs pid = before) (inside : before.operating = 1) :
    kernel.committing = false := by
  by_contra committing
  have none := counts.closed (by simpa using committing)
  have one := kernel.operating_le pid
  rw [place] at one
  omega

theorem committing_of_closing (place : kernel.procs pid = before) (inside : before.closing = 1) :
    kernel.committing = true := by
  by_contra running
  have closing := counts.closing
  have one := kernel.closing_le pid
  rw [place] at one
  simp only [running, if_false] at closing
  omega

theorem goto (place : kernel.procs pid = before) (same : after.procs = kernel.procs)
    (outstanding : after.outstanding + before.operating = kernel.outstanding + frame.operating)
    (closing : (if after.committing then 1 else 0) + before.closing =
      (if kernel.committing then 1 else 0) + frame.closing)
    (closed : after.committing = true → after.outstanding = 0) :
    Counts (after.goto pid frame) := by
  subst place
  have newOperating := after.operating_goto pid frame
  have newClosing := after.closing_goto pid frame
  rw [same, show after.operating = kernel.operating by simp only [Kernel.operating, same]]
    at newOperating
  rw [same, show after.closing = kernel.closing by simp only [Kernel.closing, same]] at newClosing
  have wasOutstanding := counts.outstanding
  have wasClosing := counts.closing
  have counted : after.outstanding = ((after.goto pid frame).operating : Nat) := by omega
  refine ⟨counted, ?_, fun committing => ?_⟩
  · show (after.goto pid frame).closing = if after.committing then 1 else 0
    omega
  · have none := closed committing
    omega

theorem goto_same (place : kernel.procs pid = before) (operating : frame.operating = before.operating)
    (closing : frame.closing = before.closing) : Counts (kernel.goto pid frame) :=
  counts.goto place rfl (by rw [operating]) (by rw [closing]) counts.none_outstanding

theorem wakeup : Counts kernel.wakeup := by
  refine ⟨?_, ?_, ?_⟩
  · rw [operating_wakeup]
    exact counts.outstanding
  · rw [closing_wakeup]
    exact counts.closing
  · rw [operating_wakeup]
    exact counts.closed

end Counts

/-! ## The invariant -/

/-- One block less than `begin_op` reserves. -/
def opBound : Nat := maxOpBlocks - 1

structure SpaceInv {n : Nat} (kernel : Kernel n) : Prop extends Counts kernel where
  size : kernel.size = nlog
  within : ∀ pid, (kernel.procs pid).Within opBound kernel.lh
  space : kernel.lh.length + kernel.room opBound + 2 ≤ nlog
  empty : kernel.operating = 0 → kernel.committing = false → kernel.lh = []
  cleared : ∀ pid, kernel.procs pid = .committed → kernel.lh = []
  calm : kernel.panic ≠ some .tooBigATransaction

namespace SpaceInv

variable {n : Nat} {kernel : Kernel n} {pid : Fin n} {before : Frame} {procs : Fin n → Frame}

theorem length_le (inv : SpaceInv kernel) : kernel.lh.length + 2 ≤ nlog := by
  have := inv.space
  omega

theorem within_update {lh' : List Nat} (pid : Fin n)
    (within : ∀ other, (procs other).Within opBound lh) (grows : ∀ blockno ∈ lh, blockno ∈ lh')
    (new : frame.Within opBound lh') (other : Fin n) :
    (update procs pid frame other).Within opBound lh' := by
  induction other using update_cases with
  | own => exact new
  | others other _ =>
    have old := within other
    cases place : procs other with
    | inOp logged =>
      rw [place] at old
      exact ⟨old.1, fun blockno member => grows _ (old.2 blockno member)⟩
    | logWrite logged blockno =>
      rw [place] at old
      exact ⟨old.1, fun other member => grows _ (old.2.1 other member), old.2.2⟩
    | _ => trivial

theorem cleared_update (pid : Fin n)
    (cleared : ∀ other, procs other = .committed → lh = []) (new : frame ≠ .committed)
    (other : Fin n) (place : update procs pid frame other = .committed) : lh = [] := by
  induction other using update_cases with
  | own => exact absurd place new
  | others other _ => exact cleared other place

theorem empty_of_none (inv : SpaceInv kernel) (none : kernel.outstanding = 0)
    (running : kernel.committing = false) : kernel.lh = [] := by
  have outstanding := inv.outstanding
  exact inv.empty (by omega) running

theorem move {after : Kernel n} (inv : SpaceInv kernel) (place : kernel.procs pid = before)
    (same : after.procs = kernel.procs ∧ after.size = kernel.size ∧ after.lh = kernel.lh ∧
      after.panic = kernel.panic)
    (counts : Counts (after.goto pid frame)) (within : frame.Within opBound kernel.lh)
    (uncommitted : frame ≠ .committed)
    (space : kernel.lh.length + kernel.room opBound + frame.room opBound + 2 ≤
      nlog + before.room opBound)
    (empty : after.outstanding = 0 → after.committing = false → kernel.lh = []) :
    SpaceInv (after.goto pid frame) := by
  subst place
  obtain ⟨procs, size, lh, panic⟩ := same
  have room := after.room_goto pid frame opBound
  rw [procs, show after.room opBound = kernel.room opBound by simp only [Kernel.room, procs]] at room
  refine ⟨counts, size.trans inv.size, ?_, ?_, ?_, ?_, ?_⟩
  · simp only [goto, procs, lh]
    exact within_update pid inv.within (fun _ => id) within
  · show after.lh.length + (after.goto pid frame).room opBound + 2 ≤ nlog
    rw [lh]
    omega
  · intro none running
    have outstanding := counts.outstanding
    rw [none] at outstanding
    exact lh.trans (empty outstanding running)
  · simp only [goto, procs, lh]
    exact cleared_update pid inv.cleared uncommitted
  · simp only [goto, panic]
    exact inv.calm

theorem space_of_le (inv : SpaceInv kernel) (less : frame.room opBound ≤ before.room opBound) :
    kernel.lh.length + kernel.room opBound + frame.room opBound + 2 ≤
      nlog + before.room opBound := by
  have := inv.space
  omega

theorem goto (inv : SpaceInv kernel) (place : kernel.procs pid = before)
    (outside : before.operating = 0 ∧ before.closing = 0)
    (after : frame.operating = 0 ∧ frame.closing = 0) : SpaceInv (kernel.goto pid frame) := by
  have counts : Counts (kernel.goto pid frame) :=
    inv.toCounts.goto_same place (after.1.trans outside.1.symm) (after.2.trans outside.2.symm)
  have noRoom := room_le opBound frame
  rw [after.1] at noRoom
  refine inv.move place ⟨rfl, rfl, rfl, rfl⟩ counts ?_ ?_ (inv.space_of_le (by omega))
    inv.empty_of_none
  · cases frame <;> first | trivial | cases after.1
  · rintro rfl
    cases after.2

theorem wakeup (inv : SpaceInv kernel) : SpaceInv kernel.wakeup := by
  refine ⟨inv.toCounts.wakeup, inv.size, fun pid => ?_, ?_, ?_, fun pid place => ?_, inv.calm⟩
  · simp only [Kernel.wakeup]
    split
    · trivial
    · exact inv.within pid
  · rw [room_wakeup]
    exact inv.space
  · rw [operating_wakeup]
    exact inv.empty
  · simp only [Kernel.wakeup] at place
    split at place
    · cases place
    · exact inv.cleared pid place

section

variable (inv : SpaceInv kernel)
include inv

theorem beginOp (place : kernel.procs pid = .beginOp) : SpaceInv (kernel.beginOp pid) := by
  unfold Kernel.beginOp
  split
  · exact inv.goto place ⟨rfl, rfl⟩ ⟨rfl, rfl⟩
  · rename_i notCommitting
    have running : kernel.committing = false := by simpa using notCommitting
    split
    · exact inv.goto place ⟨rfl, rfl⟩ ⟨rfl, rfl⟩
    · rename_i admitted
      have outstanding := inv.outstanding
      refine inv.move place ⟨rfl, rfl, rfl, rfl⟩ ?_ ⟨Nat.zero_le _, nofun⟩ nofun ?_ ?_
      · refine inv.toCounts.goto place rfl (Int.add_zero _) rfl fun committing => ?_
        exact absurd committing notCommitting
      · -- what is reserved bounds the room of all operations; without any the log is empty
        have reserved := kernel.room_le_operating opBound
        have empty : kernel.operating = 0 → kernel.lh.length = 0 := by
          intro none
          rw [inv.empty none running, length_nil]
        simp only [opBound, maxOpBlocks, logSize] at reserved admitted
        simp only [Frame.room, nlog, opBound, maxOpBlocks, logSize]
        omega
      · simp only
        omega

theorem checkLogWrite {blockno : Nat} {data : Block}
    (place : kernel.procs pid = .inOp logged) (bound : blockno ∈ logged ∨ logged.length < opBound) :
    SpaceInv (kernel.checkLogWrite pid logged blockno data) := by
  have length := inv.length_le
  have within := inv.within pid
  rw [place] at within
  unfold Kernel.checkLogWrite
  split
  · -- the log has room for one block more
    rename_i full
    rw [inv.size] at full
    simp only [nlog] at full length
    omega
  · split
    · exact ⟨⟨inv.outstanding, inv.closing, inv.closed⟩, inv.size, inv.within, inv.space, inv.empty,
        inv.cleared, by simp⟩
    · refine inv.move place ⟨rfl, rfl, rfl, rfl⟩ ?_ ⟨within.1, within.2, bound⟩ (by rintro ⟨⟩)
        (inv.space_of_le (Nat.le_refl _)) inv.empty_of_none
      exact inv.toCounts.goto place rfl rfl rfl inv.toCounts.none_outstanding

/-- A block that is new to the log is new to the operation, which has room for it. -/
theorem logWrite {blockno : Nat} (place : kernel.procs pid = .logWrite logged blockno) :
    SpaceInv (kernel.logWrite pid logged blockno) := by
  have within := inv.within pid
  rw [place] at within
  obtain ⟨small, inLog, bound⟩ := within
  obtain ⟨logged', isLogged⟩ : ∃ logged', logged' =
      if blockno ∈ logged then logged else logged ++ [blockno] := ⟨_, rfl⟩
  obtain ⟨lh, isLh⟩ : ∃ lh, lh =
      if blockno ∈ kernel.lh then kernel.lh else kernel.lh ++ [blockno] := ⟨_, rfl⟩
  have grows : ∀ other ∈ kernel.lh, other ∈ lh := by
    intro other member
    rw [isLh]
    split
    · exact member
    · exact List.mem_append_left _ member
  have recorded : blockno ∈ lh := by
    rw [isLh]
    split
    · assumption
    · exact List.mem_append_right _ List.mem_cons_self
  have counted : logged'.length ≤ opBound ∧
      lh.length + (opBound - logged'.length) ≤ kernel.lh.length + (opBound - logged.length) := by
    by_cases again : blockno ∈ logged
    · rw [isLogged, isLh, if_pos again, if_pos (inLog blockno again)]
      exact ⟨small, Nat.le_refl _⟩
    · have free := bound.resolve_left again
      have longer : lh.length ≤ kernel.lh.length + 1 := by
        rw [isLh]
        split <;> simp
      rw [isLogged, if_neg again, List.length_append, List.length_singleton]
      omega
  have newWithin : (Frame.inOp logged').Within opBound lh := by
    refine ⟨counted.1, fun other member => ?_⟩
    rw [isLogged] at member
    split at member
    · exact grows other (inLog other member)
    · cases List.mem_append.mp member with
      | inl old => exact grows other (inLog other old)
      | inr new => rw [List.mem_singleton.mp new]; exact recorded
  have room := kernel.room_goto pid (.inOp logged') opBound
  simp only [place, Frame.room] at room
  have counts : Counts (kernel.goto pid (.inOp logged')) := inv.toCounts.goto_same place rfl rfl
  have one := (kernel.goto pid (.inOp logged')).operating_le pid
  rw [show (kernel.goto pid (.inOp logged')).procs pid = .inOp logged' from update_self ..] at one
  unfold Kernel.logWrite
  rw [← isLh, ← isLogged]
  refine ⟨⟨counts.outstanding, counts.closing, counts.closed⟩, inv.size,
    within_update pid inv.within grows newWithin, ?_, fun none _ => ?_, fun other committed => ?_,
    inv.calm⟩
  · have := inv.space
    show lh.length + (kernel.goto pid (.inOp logged')).room opBound + 2 ≤ nlog
    omega
  · have none : (kernel.goto pid (.inOp logged')).operating = 0 := none
    rw [none] at one
    cases one
  · -- no process is in a commit
    have committing : kernel.committing = true := counts.committing_of_closing committed rfl
    have running := inv.toCounts.running_of_operating place rfl
    exact absurd committing (by simp [running])

theorem endOp (place : kernel.procs pid = .inOp logged) : SpaceInv (kernel.endOp pid) := by
  have running := inv.toCounts.running_of_operating place rfl
  unfold Kernel.endOp
  rw [if_neg (by simp [running])]
  have less : ∀ frame : Frame, frame.room opBound = 0 →
      frame.room opBound ≤ (inOp logged).room opBound := by
    omega
  split
  · rename_i last
    refine inv.move place ⟨rfl, rfl, rfl, rfl⟩ ?_ trivial nofun (inv.space_of_le (less _ rfl)) nofun
    refine inv.toCounts.goto place rfl ?_ (by rw [running]; rfl) fun _ => last
    exact (Int.sub_add_cancel _ 1).trans (Int.add_zero _).symm
  · rename_i others
    -- the operation ends first, then the sleepers are woken
    rw [← wakeup_goto_idle]
    apply wakeup
    refine inv.move place ⟨rfl, rfl, rfl, rfl⟩ ?_ trivial nofun (inv.space_of_le (less _ rfl))
      fun none => absurd none others
    refine inv.toCounts.goto place rfl ?_ rfl fun committing => ?_
    · exact (Int.sub_add_cancel _ 1).trans (Int.add_zero _).symm
    · exact absurd committing (by simp [running])

/-- While a process is in the second half of `end_op` no operation is under way. -/
theorem closed_of_closing (place : kernel.procs pid = before) (inside : before.closing = 1) :
    kernel.committing = true ∧ kernel.operating = 0 ∧ kernel.room opBound = 0 := by
  have committing := inv.toCounts.committing_of_closing place inside
  have none := inv.closed committing
  have reserved := kernel.room_le_operating opBound
  rw [none] at reserved
  exact ⟨committing, none, by omega⟩

theorem runCommit (place : kernel.procs pid = .commit) : SpaceInv (kernel.runCommit pid) := by
  obtain ⟨_, none, noRoom⟩ := inv.closed_of_closing place rfl
  have room := kernel.room_goto pid .committed opBound
  simp only [Frame.room] at room
  have counts : Counts (kernel.goto pid .committed) := inv.toCounts.goto_same place rfl rfl
  have within : ∀ other, (kernel.procs other).Within opBound [] := by
    intro other
    have outside := kernel.operating_le other
    rw [none] at outside
    cases frame : kernel.procs other <;> rw [frame] at outside <;> trivial
  refine ⟨⟨counts.outstanding, counts.closing, counts.closed⟩, inv.size,
    within_update pid within (fun _ => id) trivial, ?_, fun _ _ => rfl, fun _ _ => rfl, inv.calm⟩
  show 0 + (kernel.goto pid .committed).room opBound + 2 ≤ nlog
  simp only [nlog, logSize, maxOpBlocks]
  omega

theorem endCommit (place : kernel.procs pid = .committed) : SpaceInv (kernel.endCommit pid) := by
  obtain ⟨committing, none, noRoom⟩ := inv.closed_of_closing place rfl
  unfold Kernel.endCommit
  rw [← wakeup_goto_idle]
  apply wakeup
  refine inv.move place ⟨rfl, rfl, rfl, rfl⟩ ?_ trivial nofun (inv.space_of_le (Nat.le_refl _))
    fun _ _ => inv.cleared pid place
  exact inv.toCounts.goto place rfl rfl (by rw [committing]; rfl) nofun

end

theorem initial (start : Initial kernel) : SpaceInv kernel := by
  have counts := Counts.initial start
  have none : kernel.room opBound = 0 := by
    refine total_eq_zero fun pid => ?_
    rw [start.procs pid]
    rfl
  refine ⟨counts, start.size, fun pid => ?_, ?_, fun _ _ => start.lh, fun _ _ => start.lh, ?_⟩
  · rw [start.procs pid]
    trivial
  · rw [none, start.lh]
    decide
  · simp [start.panic]

theorem step {next : Kernel n} {label : Label n} (inv : SpaceInv kernel)
    (allowed : opsWithin opBound kernel label = true) (taken : Logs.step kernel label = some next) :
    SpaceInv next := by
  unfold Logs.step at taken
  rw [Option.ite_none_left_eq_some] at taken
  replace taken := taken.2
  cases label with
  | call pid =>
    obtain ⟨place, rfl⟩ := of_guard taken
    exact inv.goto place ⟨rfl, rfl⟩ ⟨rfl, rfl⟩
  | logWrite pid blockno data =>
    simp only at taken
    split at taken
    · rename_i logged place
      cases taken
      refine inv.checkLogWrite place ?_
      simpa [opsWithin, place] using allowed
    · cases taken
  | endOp pid =>
    simp only at taken
    split at taken
    · rename_i logged place
      cases taken
      exact inv.endOp place
    · cases taken
  | run pid =>
    simp only at taken
    split at taken
    · rename_i place
      cases taken
      exact inv.beginOp place
    · rename_i logged blockno place
      cases taken
      exact inv.logWrite place
    · rename_i place
      cases taken
      exact inv.runCommit place
    · rename_i place
      cases taken
      exact inv.endCommit place
    all_goals cases taken
  | kill pid =>
    obtain ⟨place, rfl⟩ := of_guard taken
    exact inv.goto place ⟨rfl, rfl⟩ ⟨rfl, rfl⟩

theorem reachable (reachable : (system n).ReachableWhen
    (fun kernel label => opsWithin opBound kernel label = true) kernel) : SpaceInv kernel := by
  refine reachable.invariant initial ?_
  intro kernel label next _ inv allowed taken
  exact inv.step allowed taken

end SpaceInv

/-! ## The blocks `commit` writes -/

/-- From `before` to `after` all writes go to allowed blocks. -/
def WritesTo (allowed : Nat → Prop) (before after : Buffers) : Prop :=
  ∃ writes, after.issued = before.issued ++ writes ∧ ∀ write ∈ writes, allowed write.1

section writes

variable {allowed wider : Nat → Prop} {before after last : Buffers}

theorem WritesTo.trans (first : WritesTo allowed before after) (second : WritesTo allowed after last) :
    WritesTo allowed before last := by
  obtain ⟨writes, issued, inside⟩ := first
  obtain ⟨more, issued', inside'⟩ := second
  refine ⟨writes ++ more, by rw [issued', issued, append_assoc], fun write member => ?_⟩
  exact (mem_append.mp member).elim (inside write) (inside' write)

theorem writesTo_bwrite {blockno : Nat} {data : Block} (inside : allowed blockno) :
    WritesTo allowed bufs (bufs.bwrite blockno data) :=
  ⟨[(blockno, data)], rfl, fun _ member => mem_singleton.mp member ▸ inside⟩

theorem writesTo_writeLog {tail : Nat}
    (inside : ∀ i, tail ≤ i → i < tail + lh.length → allowed (start + i + 1)) :
    WritesTo allowed bufs (writeLog start tail lh bufs) := by
  induction lh generalizing tail bufs with
  | nil => exact ⟨[], (append_nil _).symm, nofun⟩
  | cons blockno rest ih =>
    rw [length_cons] at inside
    exact (writesTo_bwrite (inside tail (Nat.le_refl _) (by omega))).trans
      (ih fun i low high => inside i (by omega) (by omega))

theorem writesTo_installTrans {tail : Nat} (inside : ∀ blockno ∈ lh, allowed blockno) :
    WritesTo allowed bufs (installTrans start tail lh bufs) := by
  induction lh generalizing tail bufs with
  | nil => exact ⟨[], (append_nil _).symm, nofun⟩
  | cons blockno rest ih =>
    obtain ⟨first, later⟩ := forall_mem_cons.mp inside
    exact (writesTo_bwrite first).trans (ih later)

theorem writesTo_commit (fits : lh.length + 1 ≤ size) :
    WritesTo (fun blockno => InArea start size blockno ∨ blockno ∈ lh) bufs
      (commit start lh bufs) := by
  have head : InArea start size start ∨ start ∈ lh := .inl ⟨Nat.le_refl _, by omega⟩
  rw [commit]
  split
  · refine .trans (.trans (.trans (writesTo_writeLog fun i _ high => ?_) (writesTo_bwrite head))
      (writesTo_installTrans fun _ member => Or.inr member)) (writesTo_bwrite head)
    exact Or.inl ⟨by omega, by omega⟩
  · exact ⟨[], (append_nil _).symm, nofun⟩

end writes

/-! ## Below and at the bound -/

/-- With at most `MAXOPBLOCKS - 1` blocks in each operation the reservation is sufficient:
no `log_write` finds the log full, and `commit` writes to the log area and to the home
blocks it installs only. -/
theorem reservation_sufficient_below_max {n : Nat} {kernel : Kernel n}
    (reachable : (system n).ReachableWhen
      (fun kernel label => opsWithin (maxOpBlocks - 1) kernel label = true) kernel) :
    kernel.panic ≠ some .tooBigATransaction ∧
    ∀ pid, kernel.procs pid = .commit →
      WritesTo (fun blockno => InArea kernel.start nlog blockno ∨ blockno ∈ kernel.lh) kernel.bufs
        (commit kernel.start kernel.lh kernel.bufs) := by
  have inv := SpaceInv.reachable reachable
  have length := inv.length_le
  exact ⟨inv.calm, fun pid _ => writesTo_commit (by omega)⟩

def fresh (n : Nat) : Kernel n where
  start := 2
  size := nlog
  outstanding := 0
  committing := false
  lh := []
  bufs := boot fun _ _ => 0
  procs _ := .idle
  panic := none

theorem fresh_initial (n : Nat) : Initial (fresh n) :=
  ⟨rfl, rfl, rfl, rfl, fun _ => rfl, rfl⟩

def logBlocks {n : Nat} (pid : Fin n) (first count : Nat) : List (Label n) :=
  (List.range count).flatMap fun i => [.logWrite pid (first + i) fun _ => 0, .run pid]

/-- An operation of nine blocks, up to its commit. -/
def nineBlocks : List (Label 1) :=
  [.call 0, .run 0] ++ logBlocks 0 100 9 ++ [.endOp 0]

theorem nine_blocks_fit :
    ∃ kernel : Kernel 1, kernel.procs 0 = .commit ∧ kernel.lh.length = 9 ∧
      kernel.panic ≠ some .tooBigATransaction ∧
      WritesTo (fun blockno => InArea kernel.start nlog blockno ∨ blockno ∈ kernel.lh) kernel.bufs
        (commit kernel.start kernel.lh kernel.bufs) := by
  have ran : ∃ kernel ∈ (system 1).runWhen
      (fun kernel label => opsWithin (maxOpBlocks - 1) kernel label = true) (fresh 1) nineBlocks,
      kernel.procs 0 = .commit ∧ kernel.lh.length = 9 := by
    decide +kernel
  obtain ⟨kernel, run, commits, nine⟩ := ran
  have safe := reservation_sufficient_below_max (.of_runWhen (.init (fresh_initial 1)) run)
  exact ⟨kernel, commits, nine, safe.1, safe.2 0 commits⟩

/-- Three operations that `begin_op` admits together, of ten blocks each. -/
def threeFullOperations : List (Label 3) :=
  [.call 0, .run 0, .call 1, .run 1, .call 2, .run 2] ++ logBlocks 0 100 10 ++
    logBlocks 1 110 10 ++ logBlocks 2 120 9 ++ [.logWrite 2 129 fun _ => 0]

/-- Every operation stays within `MAXOPBLOCKS`, and the thirtieth `log_write` panics. -/
theorem three_full_operations_panic :
    ∃ kernel : Kernel 3, (system 3).ReachableWhen
      (fun kernel label => opsWithin maxOpBlocks kernel label = true) kernel ∧
      kernel.panic = some .tooBigATransaction := by
  have ran : ∃ kernel ∈ (system 3).runWhen
      (fun kernel label => opsWithin maxOpBlocks kernel label = true) (fresh 3)
        threeFullOperations, kernel.panic = some .tooBigATransaction := by
    decide +kernel
  exact System.ReachableWhen.exists_of_runWhen (.init (fresh_initial 3)) ran

end Laboratorio.Xv6.Logs
