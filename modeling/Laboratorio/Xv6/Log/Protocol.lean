import Laboratorio.Xv6.Log.Space

/-! # The protocol of `begin_op` and `end_op`

The operations of `Ops` with `commit` taken apart: one step for each block that it writes,
and one for `log.lh.n = 0`, with other processes running in between.  `written` is the
history of `log_write` since the last commit.  `Traced.commitSteps` connects the two: the
steps of an undisturbed commit add up to the single step of `Ops`.

The first checks of `log_write` run without the lock, so several processes can pass them
together; a block that then no longer fits into `lh.block` would be written past the end of
the array, and there is no step for it.

`ProtocolInv` is what every step keeps; a sleeper is accounted for by a commit that goes on
or by a log that is too full.
-/

namespace Laboratorio.Xv6.Logs

open Laboratorio.Lib Function List Kernel Option

/-! ## Commit, step by step -/

/-- Where a process is in `commit()`. -/
inductive CommitStep where
  | start
  | writeLog (tail : Nat)
  | writeHead
  | installTrans (tail : Nat)
  | clear
  | eraseHead
  deriving DecidableEq, Repr

/-- `log` and the processes, with the place of the process that commits and the blocks
logged since the last commit. -/
structure Traced (n : Nat) where
  kernel : Kernel n
  phase : CommitStep
  written : List Nat

namespace Traced

variable {n : Nat}

/-- The next write of `commit()`, or its next test. -/
def commitStep (t : Traced n) (pid : Fin n) : Traced n :=
  let kernel := t.kernel
  match t.phase with
  | .start =>
    if 0 < kernel.lh.length then { t with phase := .writeLog 0 }
    else { t with kernel := kernel.goto pid .committed }
  | .writeLog tail =>
    match kernel.lh[tail]? with
    | some blockno =>
      { t with
        kernel := { kernel with
          bufs := kernel.bufs.bwrite (kernel.start + tail + 1) (kernel.bufs.bread blockno) }
        phase := .writeLog (tail + 1) }
    | none => { t with phase := .writeHead }
  | .writeHead =>
    { t with
      kernel := { kernel with bufs := writeHead kernel.start kernel.lh kernel.bufs }
      phase := .installTrans 0 }
  | .installTrans tail =>
    match kernel.lh[tail]? with
    | some blockno =>
      { t with
        kernel := { kernel with
          bufs := kernel.bufs.bwrite blockno (kernel.bufs.bread (kernel.start + tail + 1)) }
        phase := .installTrans (tail + 1) }
    | none => { t with phase := .clear }
  | .clear => { kernel := { kernel with lh := [] }, phase := .eraseHead, written := [] }
  | .eraseHead =>
    { t with
      kernel := { kernel with bufs := writeHead kernel.start [] kernel.bufs }.goto pid .committed
      phase := .start }

/-- The steps of `Ops`, with `commit` in pieces. -/
def step (t : Traced n) (label : Label n) : Option (Traced n) :=
  match label with
  | .run pid =>
    match t.kernel.procs pid with
    | .commit => if t.kernel.panic.isSome then none else some (t.commitStep pid)
    | .logWrite logged blockno =>
      if t.kernel.panic.isSome then none
      -- otherwise the block would go past the end of `lh.block`
      else if blockno ∈ t.kernel.lh ∨ t.kernel.lh.length < logSize then
        some { t with
          kernel := t.kernel.logWrite pid logged blockno
          written := t.written ++ [blockno] }
      else none
    | _ => (Logs.step t.kernel label).map fun kernel => { t with kernel }
  | _ => (Logs.step t.kernel label).map fun kernel => { t with kernel }

end Traced

def protocol (n : Nat) : System (Traced n) (Label n) where
  init t := Initial t.kernel ∧ t.phase = .start ∧ t.written = []
  step := Traced.step

/-! ## An undisturbed commit -/

section Undisturbed

variable {n : Nat}

theorem getElem?_of_drop {lh rest : List Nat} {tail : Nat} (isRest : lh.drop tail = rest) :
    lh[tail]? = rest.head? := by
  rw [← isRest, head?_drop]

theorem drop_succ_of_drop {lh rest : List Nat} {tail blockno : Nat}
    (isRest : lh.drop tail = blockno :: rest) : lh.drop (tail + 1) = rest := by
  rw [← drop_drop, isRest]
  rfl

/-- The steps of a loop over the rest of `lh`. -/
theorem writeLog_steps (kernel : Kernel n) (written : List Nat) (pid : Fin n) (rest : List Nat)
    (tail : Nat) (isRest : kernel.lh.drop tail = rest) :
    (Traced.commitStep · pid)^[rest.length + 1] ⟨kernel, .writeLog tail, written⟩ =
      ⟨{ kernel with bufs := writeLog kernel.start tail rest kernel.bufs }, .writeHead, written⟩ := by
  induction rest generalizing kernel tail with
  | nil =>
    have ended : kernel.lh[tail]? = none := getElem?_of_drop isRest
    simp [Traced.commitStep, ended, writeLog]
  | cons blockno rest ih =>
    have found : kernel.lh[tail]? = some blockno := getElem?_of_drop isRest
    rw [iterate_succ_apply]
    simp only [Traced.commitStep, found]
    exact ih
      { kernel with bufs := kernel.bufs.bwrite (kernel.start + tail + 1) (kernel.bufs.bread blockno) }
      (tail + 1) (drop_succ_of_drop isRest)

theorem installTrans_steps (kernel : Kernel n) (written : List Nat) (pid : Fin n) (rest : List Nat)
    (tail : Nat) (isRest : kernel.lh.drop tail = rest) :
    (Traced.commitStep · pid)^[rest.length + 1] ⟨kernel, .installTrans tail, written⟩ =
      ⟨{ kernel with bufs := installTrans kernel.start tail rest kernel.bufs }, .clear, written⟩ := by
  induction rest generalizing kernel tail with
  | nil =>
    have ended : kernel.lh[tail]? = none := getElem?_of_drop isRest
    simp [Traced.commitStep, ended, installTrans]
  | cons blockno rest ih =>
    have found : kernel.lh[tail]? = some blockno := getElem?_of_drop isRest
    rw [iterate_succ_apply]
    simp only [Traced.commitStep, found]
    exact ih
      { kernel with bufs := kernel.bufs.bwrite blockno (kernel.bufs.bread (kernel.start + tail + 1)) }
      (tail + 1) (drop_succ_of_drop isRest)

/-- Together the steps are `commit()`. -/
theorem commitSteps (kernel : Kernel n) (written : List Nat) (pid : Fin n) :
    ∃ count written', (Traced.commitStep · pid)^[count] ⟨kernel, .start, written⟩ =
      ⟨kernel.runCommit pid, .start, written'⟩ := by
  by_cases some : 0 < kernel.lh.length
  · -- the test, `write_log`, the header, `install_trans`, `lh.n = 0` and the header again
    refine ⟨2 + ((kernel.lh.length + 1) + (1 + ((kernel.lh.length + 1) + 1))), [], ?_⟩
    have tested : (Traced.commitStep · pid)^[1] ⟨kernel, .start, written⟩ =
        ⟨kernel, .writeLog 0, written⟩ := by
      simp [Traced.commitStep, if_pos some]
    have headed : (Traced.commitStep · pid)^[1]
        ⟨{ kernel with bufs := writeLog kernel.start 0 kernel.lh kernel.bufs }, .writeHead, written⟩ =
        ⟨{ kernel with
            bufs := writeHead kernel.start kernel.lh (writeLog kernel.start 0 kernel.lh kernel.bufs) },
          .installTrans 0, written⟩ := rfl
    have installed := installTrans_steps
      { kernel with
        bufs := writeHead kernel.start kernel.lh (writeLog kernel.start 0 kernel.lh kernel.bufs) }
      written pid kernel.lh 0 rfl
    rw [iterate_add_apply _ 2 _, iterate_add_apply _ (kernel.lh.length + 1) (1 + _),
      iterate_add_apply _ 1 (_ + 1), iterate_add_apply _ (kernel.lh.length + 1) 1,
      tested, writeLog_steps kernel written pid kernel.lh 0 rfl, headed, installed]
    simp [Traced.commitStep, runCommit, commit, if_pos some]
  · refine ⟨1, written, ?_⟩
    have empty : kernel.lh = [] := length_eq_zero_iff.mp (by omega)
    simp [Traced.commitStep, runCommit, commit, empty, goto]

end Undisturbed

/-! ## The invariant -/

structure ProtocolInv {n : Nat} (t : Traced n) : Prop extends Counts t.kernel where
  calm : t.kernel.panic ≠ some .logCommitting
  distinct : t.kernel.lh.Nodup
  logged : ∀ blockno, blockno ∈ t.kernel.lh ↔ blockno ∈ t.written
  asleep : ∀ pid, t.kernel.procs pid = .asleep → t.kernel.committing = true ∨
    t.kernel.lh.length + (t.kernel.outstanding + 1) * maxOpBlocks > logSize
  cleared : ∀ pid, t.kernel.procs pid = .committed → t.kernel.lh = []
  erasing : t.phase = .eraseHead → t.kernel.lh = [] ∧ ∃ pid, t.kernel.procs pid = .commit

namespace ProtocolInv

variable {n : Nat} {t t' : Traced n} {kernel : Kernel n} {pid : Fin n} {before frame : Frame}
  {logged : List Nat}

/-- A process that is not in `commit` takes another place. -/
theorem erasing_update (inv : ProtocolInv t) (stays : t.kernel.procs pid = .commit →
      t.phase ≠ .eraseHead) (erases : t.phase = .eraseHead) :
    t.kernel.lh = [] ∧ ∃ other, update t.kernel.procs pid frame other = .commit := by
  obtain ⟨empty, other, commits⟩ := inv.erasing erases
  have apart : other ≠ pid := fun same => stays (same ▸ commits) erases
  exact ⟨empty, other, by rw [update_of_ne apart, commits]⟩

theorem goto (inv : ProtocolInv t) (place : t.kernel.procs pid = before)
    (operating : frame.operating = before.operating) (closing : frame.closing = before.closing)
    (stays : before = .commit → t.phase ≠ .eraseHead)
    (clear : frame = .committed → t.kernel.lh = [])
    (reason : frame = .asleep → t.kernel.committing = true ∨
      t.kernel.lh.length + (t.kernel.outstanding + 1) * maxOpBlocks > logSize) :
    ProtocolInv { t with kernel := t.kernel.goto pid frame } := by
  refine ⟨inv.toCounts.goto_same place operating closing, inv.calm, inv.distinct, inv.logged,
    fun other sleeps => ?_, fun other committed => ?_, inv.erasing_update (place ▸ stays)⟩
  · simp only [Kernel.goto] at sleeps
    induction other using update_cases with
    | own => exact reason sleeps
    | others other _ => exact inv.asleep other sleeps
  · simp only [Kernel.goto] at committed
    induction other using update_cases with
    | own => exact clear committed
    | others other _ => exact inv.cleared other committed

theorem write (inv : ProtocolInv t) (bufs : Buffers) {phase : CommitStep}
    (stays : phase = .eraseHead → t.phase = .eraseHead) :
    ProtocolInv { t with kernel := { t.kernel with bufs }, phase } :=
  ⟨⟨inv.outstanding, inv.closing, inv.closed⟩, inv.calm, inv.distinct, inv.logged, inv.asleep,
    inv.cleared, fun erases => inv.erasing (stays erases)⟩

theorem not_asleep_wakeup (kernel : Kernel n) (pid : Fin n) : kernel.wakeup.procs pid ≠ .asleep := by
  simp only [wakeup]
  split
  · rintro ⟨⟩
  · assumption

theorem wakeup_procs_eq {kernel : Kernel n} {pid : Fin n} (awake : frame ≠ .asleep)
    (away : frame ≠ .beginOp) : kernel.wakeup.procs pid = frame ↔ kernel.procs pid = frame := by
  simp only [wakeup]
  split
  case isTrue sleeps => simp [sleeps, awake.symm, away.symm]
  case isFalse => rfl

theorem leave (inv : ProtocolInv t) {outstanding : Int} (place : t.kernel.procs pid = before)
    (outside : before ≠ .commit) (counted : t.kernel.outstanding = outstanding + before.operating)
    (closes : before.closing = if t.kernel.committing then 1 else 0) :
    ProtocolInv { t with
      kernel := { t.kernel with outstanding, committing := false }.wakeup.goto pid .idle } := by
  have moved : Counts ({ t.kernel with outstanding, committing := false }.goto pid .idle) :=
    inv.toCounts.goto place rfl (counted.symm.trans (Int.add_zero _).symm)
      ((Nat.zero_add _).trans closes) nofun
  have counts := moved.wakeup
  rw [wakeup_goto_idle] at counts
  refine ⟨counts, inv.calm, inv.distinct, inv.logged, fun other sleeps => ?_,
    fun other committed => ?_, fun erases => ?_⟩
  · simp only [Kernel.goto] at sleeps
    induction other using update_cases with
    | own => cases sleeps
    | others other _ => exact absurd sleeps (not_asleep_wakeup _ other)
  · simp only [Kernel.goto] at committed
    induction other using update_cases with
    | own => cases committed
    | others other _ =>
      exact inv.cleared other ((wakeup_procs_eq (by decide) (by decide)).mp committed)
  · obtain ⟨empty, other, commits⟩ := inv.erasing erases
    have apart : other ≠ pid := fun same => outside (place ▸ same ▸ commits)
    refine ⟨empty, other, ?_⟩
    simp only [Kernel.goto, update_of_ne apart]
    exact (wakeup_procs_eq (by decide) (by decide)).mpr commits

theorem beginOp (inv : ProtocolInv t) (place : t.kernel.procs pid = .beginOp) :
    ProtocolInv { t with kernel := t.kernel.beginOp pid } := by
  simp only [Kernel.beginOp]
  split
  case isTrue committing =>
    exact inv.goto place rfl rfl nofun nofun fun _ => .inl committing
  case isFalse notCommitting =>
    split
    case isTrue full => exact inv.goto place rfl rfl nofun nofun fun _ => .inr full
    case isFalse admitted =>
      have counts : Counts ({ t.kernel with outstanding := t.kernel.outstanding + 1 }.goto pid
          (.inOp [])) := by
        refine inv.toCounts.goto place rfl (Int.add_zero _) rfl fun committing => ?_
        exact absurd committing notCommitting
      refine ⟨counts, inv.calm, inv.distinct, inv.logged, fun other sleeps => ?_,
        fun other committed => ?_, inv.erasing_update (place ▸ nofun)⟩
      · -- one operation more: whoever sleeps had even less room
        simp only [Kernel.goto] at sleeps ⊢
        induction other using update_cases with
        | own => cases sleeps
        | others other _ =>
          refine (inv.asleep other sleeps).imp_right fun full => ?_
          omega
      · simp only [Kernel.goto] at committed
        induction other using update_cases with
        | own => cases committed
        | others other _ => exact inv.cleared other committed

theorem checkLogWrite {blockno : Nat} {data : Block} (inv : ProtocolInv t)
    (place : t.kernel.procs pid = .inOp logged) :
    ProtocolInv { t with kernel := t.kernel.checkLogWrite pid logged blockno data } := by
  have panics : ∀ reason, reason ≠ Panic.logCommitting →
      ProtocolInv { t with kernel := { t.kernel with panic := some reason } } := by
    intro reason other
    exact ⟨⟨inv.outstanding, inv.closing, inv.closed⟩, fun same => other (some.inj same),
      inv.distinct, inv.logged, inv.asleep, inv.cleared, inv.erasing⟩
  simp only [Kernel.checkLogWrite]
  split
  · exact panics _ nofun
  · split
    · exact panics _ nofun
    · have moved : ProtocolInv { t with kernel := t.kernel.goto pid (.logWrite logged blockno) } :=
        inv.goto place rfl rfl nofun nofun nofun
      exact moved.write _ id

/-- Log absorption keeps the list of blocks without duplicates. -/
theorem logWrite {blockno : Nat} (inv : ProtocolInv t)
    (place : t.kernel.procs pid = .logWrite logged blockno) :
    ProtocolInv { t with
      kernel := t.kernel.logWrite pid logged blockno
      written := t.written ++ [blockno] } := by
  obtain ⟨logged', isLogged⟩ : ∃ logged', logged' =
      if blockno ∈ logged then logged else logged ++ [blockno] := ⟨_, rfl⟩
  have moved : ProtocolInv { t with kernel := t.kernel.goto pid (.inOp logged') } :=
    inv.goto place rfl rfl nofun nofun nofun
  have running := inv.toCounts.running_of_operating place rfl
  rw [Kernel.logWrite, ← isLogged]
  refine ⟨⟨moved.outstanding, moved.closing, moved.closed⟩, moved.calm, ?_, fun other => ?_,
    fun other sleeps => ?_, fun other committed => ?_, fun erases => ?_⟩
  · simp only [Kernel.goto]
    split
    case isTrue => exact inv.distinct
    case isFalse new =>
      exact List.nodup_append.mpr ⟨inv.distinct, List.nodup_singleton _, fun a member b isB same =>
        new (List.mem_singleton.mp isB ▸ same ▸ member)⟩
  · simp only [Kernel.goto, List.mem_append, List.mem_singleton, ← inv.logged other]
    split
    case isTrue known =>
      constructor
      · exact .inl
      · intro either
        cases either with
        | inl member => exact member
        | inr same => exact same ▸ known
    case isFalse => rw [List.mem_append, List.mem_singleton]
  · refine (moved.asleep other sleeps).imp_right fun full => ?_
    -- the list does not get shorter
    have grows : t.kernel.lh.length ≤
        (if blockno ∈ t.kernel.lh then t.kernel.lh else t.kernel.lh ++ [blockno]).length := by
      split <;> simp
    simp only [Kernel.goto] at full grows ⊢
    omega
  · -- a process that has committed, or commits, excludes operations
    have closes := moved.toCounts.committing_of_closing committed rfl
    cases running.symm.trans closes
  · obtain ⟨-, other, commits⟩ := inv.erasing erases
    cases running.symm.trans (inv.toCounts.committing_of_closing commits rfl)

theorem endOp (inv : ProtocolInv t) (place : t.kernel.procs pid = .inOp logged) :
    ProtocolInv { t with kernel := t.kernel.endOp pid } := by
  have running := inv.toCounts.running_of_operating place rfl
  simp only [Kernel.endOp, running, Bool.false_eq_true, if_false]
  split
  case isTrue last =>
    -- the last operation commits, with `committing` set for whoever sleeps
    have counts : Counts ({ t.kernel with
        outstanding := t.kernel.outstanding - 1, committing := true }.goto pid .commit) := by
      refine inv.toCounts.goto place rfl ?_ (by rw [running]; rfl) fun _ => last
      exact (Int.sub_add_cancel _ 1).trans (Int.add_zero _).symm
    refine ⟨counts, inv.calm, inv.distinct, inv.logged, fun _ _ => .inl rfl,
      fun other committed => ?_, inv.erasing_update (by rw [place]; rintro ⟨⟩)⟩
    simp only [Kernel.goto] at committed
    induction other using update_cases with
    | own => cases committed
    | others other _ => exact inv.cleared other committed
  case isFalse others =>
    have counted : t.kernel.outstanding = (t.kernel.outstanding - 1) + (1 : Nat) := by omega
    exact inv.leave place (by rintro ⟨⟩) counted (by rw [running]; rfl)

theorem commitStep (inv : ProtocolInv t) (place : t.kernel.procs pid = .commit) :
    ProtocolInv (t.commitStep pid) := by
  have committing := inv.toCounts.committing_of_closing place rfl
  simp only [Traced.commitStep]
  -- all but the last steps change the buffers only, or the list of blocks
  split
  case h_1 starts =>
    split
    · exact inv.write _ nofun
    case isFalse none =>
      have empty : t.kernel.lh = [] := length_eq_zero_iff.mp (by omega)
      exact inv.goto place rfl rfl (by rw [starts]; nofun) (fun _ => empty) nofun
  · split
    · exact inv.write _ nofun
    · exact inv.write _ nofun
  · exact inv.write _ nofun
  · split
    · exact inv.write _ nofun
    · exact inv.write _ nofun
  · exact ⟨⟨inv.outstanding, inv.closing, inv.closed⟩, inv.calm, .nil, fun _ => .rfl,
      fun _ _ => .inl committing, fun _ _ => rfl, fun _ => ⟨rfl, pid, place⟩⟩
  case h_6 erases =>
    have written : ProtocolInv { t with
        kernel := { t.kernel with bufs := writeHead t.kernel.start [] t.kernel.bufs }
        phase := .start } := inv.write _ nofun
    exact written.goto place rfl rfl nofun (fun _ => (inv.erasing erases).1) nofun

theorem endCommit (inv : ProtocolInv t) (place : t.kernel.procs pid = .committed) :
    ProtocolInv { t with kernel := t.kernel.endCommit pid } := by
  have committing := inv.toCounts.committing_of_closing place rfl
  exact inv.leave place nofun (by exact (Int.add_zero _).symm) (by rw [committing]; rfl)

theorem initial (start : Initial t.kernel) (phase : t.phase = .start) (written : t.written = []) :
    ProtocolInv t := by
  refine ⟨Counts.initial start, ?_, ?_, fun blockno => ?_, fun pid sleeps => ?_,
    fun _ _ => start.lh, fun erases => ?_⟩
  · rw [start.panic]
    nofun
  · rw [start.lh]
    exact .nil
  · rw [start.lh, written]
  · rw [start.procs pid] at sleeps
    cases sleeps
  · rw [phase] at erases
    cases erases

end ProtocolInv

/-! ## The end of a commit -/

/-- After some of its steps the process has committed, with nothing left in the log. -/
def CommitEnds {n : Nat} (t : Traced n) (pid : Fin n) : Prop :=
  ∃ count, ((Traced.commitStep · pid)^[count] t).kernel.procs pid = .committed ∧
    ((Traced.commitStep · pid)^[count] t).kernel.lh = []

section CommitEnds

variable {n : Nat} {t t' : Traced n} {pid : Fin n}

theorem CommitEnds.after (count : Nat) (steps : (Traced.commitStep · pid)^[count] t = t')
    (ends : CommitEnds t' pid) : CommitEnds t pid := by
  obtain ⟨more, ends⟩ := ends
  refine ⟨more + count, ?_⟩
  rwa [iterate_add_apply, steps]

theorem commitEnds_eraseHead (kernel : Kernel n) (written : List Nat) (empty : kernel.lh = []) :
    CommitEnds ⟨kernel, .eraseHead, written⟩ pid :=
  ⟨1, update_self .., empty⟩

theorem commitEnds_installTrans (kernel : Kernel n) (tail : Nat) (written : List Nat) :
    CommitEnds ⟨kernel, .installTrans tail, written⟩ pid :=
  .after _ (installTrans_steps kernel written pid _ tail rfl)
    (.after 1 rfl (commitEnds_eraseHead _ _ rfl))

theorem commitEnds_writeLog (kernel : Kernel n) (tail : Nat) (written : List Nat) :
    CommitEnds ⟨kernel, .writeLog tail, written⟩ pid :=
  .after _ (writeLog_steps kernel written pid _ tail rfl)
    (.after 1 rfl (commitEnds_installTrans _ 0 _))

/-- A commit that goes on ends, wherever it is. -/
theorem ProtocolInv.commitEnds (inv : ProtocolInv t) (pid : Fin n) : CommitEnds t pid := by
  obtain ⟨kernel, phase, written⟩ := t
  cases phase with
  | start =>
    by_cases some : 0 < kernel.lh.length
    · refine .after 1 ?_ (commitEnds_writeLog kernel 0 written)
      simp [Traced.commitStep, if_pos some]
    · have empty : kernel.lh = [] := length_eq_zero_iff.mp (by omega)
      refine ⟨1, ?_⟩
      simp only [iterate_one, Traced.commitStep, if_neg some]
      exact ⟨update_self .., empty⟩
  | writeLog tail => exact commitEnds_writeLog kernel tail written
  | writeHead => exact .after 1 rfl (commitEnds_installTrans _ 0 written)
  | installTrans tail => exact commitEnds_installTrans kernel tail written
  | clear => exact .after 1 rfl (commitEnds_eraseHead _ _ rfl)
  | eraseHead => exact commitEnds_eraseHead kernel written (inv.erasing rfl).1

end CommitEnds

/-! ## Steps and runs -/

section Steps

variable {n : Nat}

/-- What a step does. -/
inductive Moves (t : Traced n) : Traced n → Prop
  | call (pid : Fin n) : t.kernel.procs pid = .idle →
      Moves t { t with kernel := t.kernel.goto pid .beginOp }
  | beginOp (pid : Fin n) : t.kernel.procs pid = .beginOp →
      Moves t { t with kernel := t.kernel.beginOp pid }
  | checkLogWrite (pid : Fin n) (logged : List Nat) (blockno : Nat) (data : Block) :
      t.kernel.procs pid = .inOp logged →
      Moves t { t with kernel := t.kernel.checkLogWrite pid logged blockno data }
  | logWrite (pid : Fin n) (logged : List Nat) (blockno : Nat) :
      t.kernel.procs pid = .logWrite logged blockno →
      Moves t { t with
        kernel := t.kernel.logWrite pid logged blockno
        written := t.written ++ [blockno] }
  | endOp (pid : Fin n) (logged : List Nat) : t.kernel.procs pid = .inOp logged →
      Moves t { t with kernel := t.kernel.endOp pid }
  | commitStep (pid : Fin n) : t.kernel.procs pid = .commit → Moves t (t.commitStep pid)
  | endCommit (pid : Fin n) : t.kernel.procs pid = .committed →
      Moves t { t with kernel := t.kernel.endCommit pid }
  | kill (pid : Fin n) : t.kernel.procs pid = .asleep →
      Moves t { t with kernel := t.kernel.goto pid .beginOp }

variable {t t' : Traced n} {label : Label n}

/-- A step that is neither of `commit` nor of `log_write` is one of `Ops`. -/
theorem moves_of_step (other : ∀ pid, label = .run pid → t.kernel.procs pid ≠ .commit ∧
      ∀ logged blockno, t.kernel.procs pid ≠ .logWrite logged blockno)
    (taken : (Logs.step t.kernel label).map (fun kernel => { t with kernel }) = some t') :
    Moves t t' := by
  rw [map_eq_some_iff] at taken
  obtain ⟨kernel, taken, equal⟩ := taken
  subst equal
  simp only [Logs.step] at taken
  rw [ite_none_left_eq_some] at taken
  replace taken := taken.2
  cases label with
  | call pid =>
    simp only [ite_none_right_eq_some, some.injEq] at taken
    obtain ⟨place, equal⟩ := taken
    subst equal
    exact .call pid place
  | logWrite pid blockno data =>
    simp only at taken
    split at taken
    case h_1 logged place =>
      cases taken
      exact .checkLogWrite pid logged blockno data place
    case h_2 => cases taken
  | endOp pid =>
    simp only at taken
    split at taken
    case h_1 logged place =>
      cases taken
      exact .endOp pid logged place
    case h_2 => cases taken
  | run pid =>
    obtain ⟨notCommit, notWrite⟩ := other pid rfl
    cases place : t.kernel.procs pid with
    | beginOp =>
      simp only [place] at taken
      cases taken
      exact .beginOp pid place
    | committed =>
      simp only [place] at taken
      cases taken
      exact .endCommit pid place
    | logWrite logged blockno => exact absurd place (notWrite logged blockno)
    | commit => exact absurd place notCommit
    | idle => simp [place] at taken
    | asleep => simp [place] at taken
    | inOp logged => simp [place] at taken
  | kill pid =>
    simp only [ite_none_right_eq_some, some.injEq] at taken
    obtain ⟨place, equal⟩ := taken
    subst equal
    exact .kill pid place

theorem Traced.step_moves (taken : t.step label = some t') : Moves t t' := by
  cases label with
  | run pid =>
    simp only [Traced.step] at taken
    split at taken
    case h_1 place =>
      rw [ite_none_left_eq_some, some.injEq] at taken
      rw [← taken.2]
      exact .commitStep pid place
    case h_2 logged blockno place =>
      rw [ite_none_left_eq_some, ite_none_right_eq_some, some.injEq] at taken
      rw [← taken.2.2]
      exact .logWrite pid logged blockno place
    case h_3 notCommit notWrite =>
      apply moves_of_step _ taken
      intro other same
      cases same
      exact ⟨notCommit, notWrite⟩
  | call pid => exact moves_of_step (by nofun) taken
  | logWrite pid blockno data => exact moves_of_step (by nofun) taken
  | endOp pid => exact moves_of_step (by nofun) taken
  | kill pid => exact moves_of_step (by nofun) taken

theorem ProtocolInv.moves (inv : ProtocolInv t) (moves : Moves t t') : ProtocolInv t' := by
  cases moves with
  | call pid place => exact inv.goto place rfl rfl nofun nofun nofun
  | beginOp pid place => exact inv.beginOp place
  | checkLogWrite pid logged blockno data place => exact inv.checkLogWrite place
  | logWrite pid logged blockno place => exact inv.logWrite place
  | endOp pid logged place => exact inv.endOp place
  | commitStep pid place => exact inv.commitStep place
  | endCommit pid place => exact inv.endCommit place
  | kill pid place => exact inv.goto place rfl rfl nofun nofun nofun

theorem protocolInv_of_reachable (reachable : (protocol n).Reachable t) : ProtocolInv t := by
  refine reachable.invariant ?_ ?_
  · intro _ start
    exact ProtocolInv.initial start.1 start.2.1 start.2.2
  · intro state label next _ inv _ taken
    exact inv.moves (Traced.step_moves taken)

/-- While a commit goes on no operation is under way after the next step either. -/
theorem Moves.operating (moves : Moves t t') (inv : ProtocolInv t)
    (committing : t.kernel.committing = true) : t'.kernel.operating = 0 := by
  have after := inv.moves moves
  have outstanding := after.outstanding
  have none := inv.closed committing
  have before := inv.outstanding
  cases moves with
  | call pid place => exact after.closed committing
  | beginOp pid place =>
    apply after.closed
    simp only [Kernel.beginOp, committing]
    exact committing
  | checkLogWrite pid logged blockno data place =>
    exact absurd committing (by simp [inv.toCounts.running_of_operating place rfl])
  | logWrite pid logged blockno place =>
    exact absurd committing (by simp [inv.toCounts.running_of_operating place rfl])
  | endOp pid logged place =>
    exact absurd committing (by simp [inv.toCounts.running_of_operating place rfl])
  | commitStep pid place =>
    apply after.closed
    simp only [Traced.commitStep]
    split <;> try split
    all_goals exact committing
  | endCommit pid place =>
    have same : t.kernel.outstanding = ((t.kernel.endCommit pid).operating : Nat) := outstanding
    show (t.kernel.endCommit pid).operating = 0
    omega
  | kill pid place => exact after.closed committing

end Steps

/-- In every state that any interleaving reaches: `outstanding` counts the operations under
way; a commit excludes operations and none starts before it ends; `end_op` never finds a
commit; `lh` lists the blocks logged since the last commit, each once; a commit that has begun
comes to its end, and then the list is empty; and a process sleeps on the log only during a
commit or while the log is too full for one operation more. -/
theorem begin_end_protocol {n : Nat} {t : Traced n} (reachable : (protocol n).Reachable t) :
    t.kernel.outstanding = t.kernel.operating ∧
    (t.kernel.committing = true → t.kernel.outstanding = 0 ∧
      ∀ label next, t.step label = some next → next.kernel.operating = 0) ∧
    t.kernel.panic ≠ some .logCommitting ∧
    t.kernel.lh.Nodup ∧ (∀ blockno, blockno ∈ t.kernel.lh ↔ blockno ∈ t.written) ∧
    (∀ pid, t.kernel.procs pid = .committed → t.kernel.lh = []) ∧
    (∀ pid, t.kernel.procs pid = .commit → CommitEnds t pid) ∧
    (∀ pid, t.kernel.procs pid = .asleep → t.kernel.committing = true ∨
      t.kernel.lh.length + (t.kernel.outstanding + 1) * maxOpBlocks > logSize) ∧
    (t.kernel.lh = [] → t.kernel.outstanding = 0 → t.kernel.committing = false →
      ∀ pid, t.kernel.procs pid ≠ .asleep) := by
  have inv := protocolInv_of_reachable reachable
  refine ⟨inv.outstanding, fun committing => ⟨inv.toCounts.none_outstanding committing,
    fun label next taken => ?_⟩, inv.calm, inv.distinct, inv.logged, inv.cleared,
    fun pid _ => inv.commitEnds pid, inv.asleep, fun empty idle running pid sleeps => ?_⟩
  · exact (Traced.step_moves taken).operating inv committing
  · cases inv.asleep pid sleeps with
    | inl committing => exact absurd (running.symm.trans committing) nofun
    | inr full =>
      simp only [empty, length_nil, maxOpBlocks, logSize] at full
      omega

/-- One process logs a block and ends its operation; another calls `begin_op` while the
first commits. -/
def sleepDuringCommit : List (Label 2) :=
  [.call 0, .run 0, .logWrite 0 100 (fun _ => 0), .run 0, .call 1, .endOp 0, .run 0, .run 1]

theorem second_process_sleeps :
    ∃ t : Traced 2, (protocol 2).Reachable t ∧ t.kernel.procs 1 = .asleep ∧
      t.kernel.lh = [100] ∧ (t.kernel.committing = true ∨
        t.kernel.lh.length + (t.kernel.outstanding + 1) * maxOpBlocks > logSize) := by
  have ran : ∃ t ∈ (protocol 2).runWhen (fun _ _ => True) ⟨fresh 2, .start, []⟩ sleepDuringCommit,
      t.kernel.procs 1 = .asleep ∧ t.kernel.lh = [100] := by
    decide +kernel
  have start : (protocol 2).init ⟨fresh 2, .start, []⟩ := ⟨fresh_initial 2, rfl, rfl⟩
  obtain ⟨t, reachable, holds⟩ := System.ReachableWhen.exists_of_runWhen (.init start) ran
  exact ⟨t, reachable, holds.1, holds.2, (begin_end_protocol reachable).2.2.2.2.2.2.2.1 1 holds.1⟩

end Laboratorio.Xv6.Logs
