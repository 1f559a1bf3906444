import Laboratorio.Xv6.Bio.Transactions
import Laboratorio.Xv6.Bio.Uses

/-! # When the buffer cache has a buffer to give

A process uses no more buffers than what it is doing needs: one in `readi`, two in an operation
and two in `commit` (`Proper`).  A buffer is busy when it is used or dirty.

* `buffers_suffice` — a `bread` finds a buffer as long as the dirty buffers, the processes in
  `readi`, twice the operations and twice the commit are together at most `NBUF`.
* `thirty_one_readers` — 31 processes that wait in `readi` for different blocks exhaust it.
-/

namespace Laboratorio.Xv6.BufferUse

open Laboratorio.Lib Function List Nat Bio.Kernel Bio Option

/-! ## The calls of `commit` -/

/-- The rest of `commit` has at most two buffers at a time, when it has `held` of them. -/
def Balanced : Nat → List Command → Prop
  | _, [] => True
  | held, .bread _ :: rest => held < 2 ∧ Balanced (held + 1) rest
  | held, .brelse _ :: rest => 0 < held ∧ Balanced (held - 1) rest
  | held, .bwrite _ :: rest => Balanced held rest
  | held, .clear :: rest => Balanced held rest

section Program

variable (start : Nat) {rest : List Command}

theorem balanced_writeLog (tail : Nat) (blocks : List Nat) (later : Balanced 0 rest) :
    Balanced 0 (writeLog start tail blocks ++ rest) := by
  induction blocks generalizing tail with
  | nil => exact later
  | cons blockno blocks ih =>
    exact ⟨Nat.two_pos, Nat.one_lt_two, Nat.two_pos, Nat.one_pos, ih (tail + 1)⟩

theorem balanced_installTrans (tail : Nat) (blocks : List Nat) (later : Balanced 0 rest) :
    Balanced 0 (installTrans start tail blocks ++ rest) := by
  induction blocks generalizing tail with
  | nil => exact later
  | cons blockno blocks ih =>
    exact ⟨Nat.two_pos, Nat.one_lt_two, Nat.two_pos, Nat.one_pos, ih (tail + 1)⟩

theorem balanced_writeHead (later : Balanced 0 rest) : Balanced 0 (writeHead start ++ rest) :=
  ⟨Nat.two_pos, Nat.one_pos, later⟩

theorem balanced_commit (lh : List Nat) : Balanced 0 (commit start lh) := by
  have finish : Balanced 0 ([.clear] ++ (writeHead start ++ [])) :=
    balanced_writeHead start trivial
  unfold commit
  split
  · have install := balanced_installTrans start 0 lh finish
    have log := balanced_writeLog start 0 lh (balanced_writeHead start install)
    simpa only [append_assoc, append_nil] using log
  · trivial

end Program

/-! ## What the processes use -/

variable {n : Nat} {Data : Type} {k : Kernel n Data}

/-- The buffers that a process may use. -/
def Activity.quota : Activity → Nat
  | .idle => 0
  | .reading => 1
  | .inOp _ | .commit _ => 2

/-- A process uses no more buffers than what it is doing needs.  In `commit`, the buffer that it is
releasing is not held any more. -/
structure Proper (bio : Bio.Kernel nbuf (Fin n) Data) (p : Fin n) (activity : Activity) : Prop where
  few : bio.uses p ≤ activity.quota
  held : ∀ rest, activity = .commit rest → ∃ held, Balanced held rest ∧
    held + (bio.frames p).releases ≤ 2 ∧ bio.uses p ≤ held + (bio.frames p).releases

structure Inv (k : Kernel n Data) : Prop where
  bio : Bio.Inv k.bio
  calm : ∀ b, (k.bio.bufs b).pending = false
  proper : ∀ p, Proper k.bio p (k.procs p)

section Steps

variable {start blockno takes gives : Nat} {k next : Kernel n Data} {p : Fin n} {b : Fin nbuf}
  {bio bio' : Bio.Kernel nbuf (Fin n) Data} {activity : Activity} {frame : Bio.Frame nbuf}
  {rest : List Command}

theorem uses_eq_held (idle : k.bio.frames p = .idle) : k.bio.uses p = (k.held p).length := by
  have nodup : (k.held p).Nodup := (nodup_finRange nbuf).filter _
  have locks : ∑ b, (k.bio.bufs b).lockedBy p = (k.held p).toFinset.card := by
    simp only [Bio.Buf.lockedBy, Finset.sum_boole, cast_id]
    congr 1
    simp [Kernel.held]
  rw [uses, idle, locks, toFinset_card_of_nodup nodup]
  rfl

theorem uses_of_emptyHanded (empty : k.emptyHanded p = true) :
    k.bio.frames p = .idle ∧ k.bio.uses p = 0 := by
  rw [Kernel.emptyHanded, Bool.and_eq_true, decide_eq_true_eq, List.isEmpty_iff] at empty
  refine ⟨empty.1, ?_⟩
  rw [uses_eq_held empty.1, empty.2]
  rfl

theorem Proper.of_few (few : bio.uses p ≤ activity.quota) (notCommit : ∀ rest, activity ≠ .commit rest) :
    Proper bio p activity :=
  ⟨few, fun rest isCommit => absurd isCommit (notCommit rest)⟩

theorem Proper.of_held {held : Nat} (balanced : Balanced held rest)
    (two : held + (bio.frames p).releases ≤ 2)
    (few : bio.uses p ≤ held + (bio.frames p).releases) : Proper bio p (.commit rest) := by
  refine ⟨le_trans few two, ?_⟩
  rintro _ ⟨⟩
  exact ⟨held, balanced, two, few⟩

/-- What `commit` has when it makes its next call. -/
theorem Proper.atCall (proper : Proper bio p (.commit rest)) (idle : bio.frames p = .idle) :
    ∃ held, Balanced held rest ∧ held ≤ 2 ∧ bio.uses p ≤ held := by
  have held := proper.held rest rfl
  rw [idle] at held
  exact held

section

variable (inv : Inv k)
include inv

theorem Inv.of_counted (counted : Bio.Counted k.bio p takes gives frame bio)
    (cache : Bio.Inv bio) (isBio : next.bio = bio)
    (procs : next.procs = update k.procs p activity) (mine : Proper bio p activity) :
    Inv next := by
  subst isBio
  refine ⟨cache, counted.calm inv.calm, ?_⟩
  rw [procs]
  refine (forall_update_iff k.procs (p := fun q now => Proper next.bio q now)).mpr ⟨mine, ?_⟩
  intro q other
  obtain ⟨uses, frames⟩ := counted.others q other
  obtain ⟨few, held⟩ := inv.proper q
  rw [← uses] at few
  rw [← uses, ← frames] at held
  exact ⟨few, held⟩

theorem Inv.goto (isBio : next.bio = k.bio)
    (procs : next.procs = update k.procs p activity) (mine : Proper k.bio p activity) :
    Inv next := by
  refine ⟨by rw [isBio]; exact inv.bio, by rw [isBio]; exact inv.calm, ?_⟩
  rw [isBio, procs]
  exact (forall_update_iff k.procs (p := fun q now => Proper k.bio q now)).mpr
    ⟨mine, fun q _ => inv.proper q⟩

theorem Inv.cache {label : Bio.Label nbuf (Fin n) Data}
    (taken : Bio.step k.bio label = some bio) : Bio.Inv bio := by
  refine step_inv inv.bio ?_ taken
  cases label with
  | brelse p b => exact inv.calm b
  | bread | modify | logWrite | bwrite | run => trivial

theorem Inv.leaveOp (empty : k.emptyHanded p = true) : Inv (k.leaveOp start p) := by
  obtain ⟨idle, none⟩ := uses_of_emptyHanded empty
  unfold Kernel.leaveOp
  split
  · have few : k.bio.uses p ≤ 0 + (k.bio.frames p).releases := by omega
    exact inv.goto rfl rfl (.of_held (balanced_commit start k.lh) (by rw [idle]; exact zero_le 2)
      few)
  · exact inv.goto rfl rfl (.of_few (le_of_eq none) nofun)

theorem Inv.bread (may : k.mayRead p = true)
    (isCall : k.call (.bread p (blockId blockno)) = some next) : Inv next := by
  obtain ⟨bio, taken, rfl⟩ := map_eq_some_iff.mp isCall
  have cache := inv.cache taken
  simp only [Bio.step, Option.ite_none_right_eq_some] at taken
  obtain ⟨b, counted⟩ := bget_counted taken.1 taken.2
  have own := counted.own
  rw [uses_eq_held taken.1] at own
  refine inv.of_counted counted cache rfl (update_eq_self p k.procs).symm ?_
  unfold Kernel.mayRead at may
  split at may
  case h_1 here =>
    have room := of_decide_eq_true may
    have few : bio.uses p ≤ 1 := by omega
    rw [here]
    exact .of_few few (by rintro _ ⟨⟩)
  case h_2 here =>
    have room := of_decide_eq_true may
    have few : bio.uses p ≤ 2 := by omega
    rw [here]
    exact .of_few few (by rintro _ ⟨⟩)
  case h_3 => cases may

theorem Inv.run (isCall : k.call (.run p) = some next) : Inv next := by
  obtain ⟨bio, taken, rfl⟩ := map_eq_some_iff.mp isCall
  obtain ⟨frame, counted, releases⟩ := run_counted taken
  have own := counted.own
  refine inv.of_counted counted (inv.cache taken) rfl (update_eq_self p k.procs).symm ⟨?_, ?_⟩
  · have fewer : bio.uses p ≤ k.bio.uses p := by omega
    exact le_trans fewer (inv.proper p).few
  · intro rest isCommit
    obtain ⟨held, balanced, two, few⟩ := (inv.proper p).held rest isCommit
    refine ⟨held, balanced, ?_⟩
    rw [counted.frame]
    omega

theorem Inv.sameUses (counted : Bio.Counted k.bio p 0 0 frame bio)
    (cache : Bio.Inv bio) (isBio : next.bio = bio)
    (procs : next.procs = update k.procs p activity)
    (quota : activity.quota = (k.procs p).quota) (notCommit : ∀ rest, activity ≠ .commit rest) :
    Inv next := by
  have few := (inv.proper p).few
  rw [← counted.same, ← quota] at few
  exact inv.of_counted counted cache isBio procs (.of_few few notCommit)

theorem Inv.logWrite {logged : List Nat} (inOp : k.procs p = .inOp logged)
    (ran : k.logWrite start p b logged = some next) : Inv next := by
  unfold Kernel.logWrite at ran
  dsimp only at ran
  split at ran
  · cases ran
  split at ran
  · cases ran
  obtain ⟨called, isCall, rfl⟩ := map_eq_some_iff.mp ran
  obtain ⟨bio, taken, rfl⟩ := map_eq_some_iff.mp isCall
  exact inv.sameUses (logWrite_counted taken) (inv.cache taken) rfl rfl (by rw [inOp]; rfl) nofun

theorem Inv.brelse (notCommit : ∀ rest, k.procs p ≠ .commit rest)
    (isCall : k.call (.brelse p b) = some next) : Inv next := by
  obtain ⟨bio, taken, rfl⟩ := map_eq_some_iff.mp isCall
  exact inv.sameUses (brelse_counted taken).2 (inv.cache taken) rfl
    (update_eq_self p k.procs).symm rfl notCommit

theorem Inv.command {command : Command} (isCommit : k.procs p = .commit (command :: rest))
    (ran : k.command p b command = some next) : Inv (next.goto p (.commit rest)) := by
  have proper := inv.proper p
  rw [isCommit] at proper
  cases command with
  | bread blockno =>
    obtain ⟨bio, taken, rfl⟩ := Option.map_eq_some_iff.mp ran
    have cache := inv.cache taken
    simp only [Bio.step, Option.ite_none_right_eq_some] at taken
    obtain ⟨held, ⟨room, balanced⟩, _, few⟩ := proper.atCall taken.1
    obtain ⟨c, counted⟩ := Bio.bget_counted taken.1 taken.2
    have own := counted.own
    have more : bio.uses p ≤ held + 1 := by omega
    refine inv.of_counted counted cache rfl rfl (.of_held balanced ?_ ?_)
    · rw [counted.frame]
      exact room
    · rw [counted.frame]
      exact more
  | bwrite blockno =>
    simp only [Kernel.command, Option.ite_none_right_eq_some] at ran
    obtain ⟨bio, taken, rfl⟩ := Option.map_eq_some_iff.mp ran.2
    obtain ⟨idle, counted⟩ := Bio.bwrite_counted taken
    obtain ⟨held, balanced, two, few⟩ := proper.atCall idle
    have own := counted.same
    refine inv.of_counted counted (inv.cache taken) rfl rfl (.of_held balanced ?_ ?_)
    · rw [counted.frame]
      exact two
    · rw [counted.frame, own]
      exact few
  | brelse blockno =>
    simp only [Kernel.command, Option.ite_none_right_eq_some] at ran
    obtain ⟨bio, taken, rfl⟩ := Option.map_eq_some_iff.mp ran.2
    obtain ⟨idle, counted⟩ := Bio.brelse_counted taken
    obtain ⟨held, ⟨some, balanced⟩, two, few⟩ := proper.atCall idle
    have own := counted.same
    -- the buffer that is being released takes the place of the one that was held
    have same : held - 1 + (Bio.Frame.releasing b).releases = held := Nat.sub_add_cancel some
    refine inv.of_counted counted (inv.cache taken) rfl rfl (.of_held balanced ?_ ?_)
    · rw [counted.frame, same]
      exact two
    · rw [counted.frame, same, own]
      exact few
  | clear =>
    obtain ⟨idle, rfl⟩ := of_guard ran
    obtain ⟨held, balanced, two, few⟩ := proper.held _ rfl
    exact inv.goto rfl rfl (.of_held balanced two few)

theorem Inv.step {label : Label n} (taken : step start k label = some next) : Inv next := by
  cases label with
  | readi p =>
    obtain ⟨here, rfl⟩ := of_guard taken
    have few := (inv.proper p).few
    rw [here] at few
    exact inv.goto rfl rfl (.of_few (le_succ_of_le few) nofun)
  | beginOp p =>
    obtain ⟨⟨here, -⟩, rfl⟩ := of_guard taken
    have few := (inv.proper p).few
    rw [here] at few
    exact inv.goto rfl rfl (.of_few (le_trans few (zero_le 2)) nofun)
  | readiReturns p | endCommit p =>
    obtain ⟨⟨-, empty⟩, rfl⟩ := of_guard taken
    exact inv.goto rfl rfl (.of_few (le_of_eq (uses_of_emptyHanded empty).2) nofun)
  | endOp p =>
    simp only [BufferUse.step] at taken
    split at taken
    · simp only [ite_none_right_eq_some, some.injEq] at taken
      obtain ⟨⟨empty, -⟩, rfl⟩ := taken
      exact inv.leaveOp empty
    · cases taken
  | bread p blockno =>
    simp only [BufferUse.step, Option.ite_none_right_eq_some] at taken
    exact inv.bread taken.1 taken.2
  | logWrite p b =>
    simp only [BufferUse.step] at taken
    split at taken
    · rename_i logged here
      exact inv.logWrite here taken
    · cases taken
  | brelse p b =>
    simp only [BufferUse.step] at taken
    split at taken
    · rename_i here
      exact inv.brelse (by rw [here]; nofun) taken
    · rename_i logged here
      exact inv.brelse (by rw [here]; nofun) taken
    · cases taken
  | command p b =>
    simp only [BufferUse.step] at taken
    split at taken
    · rename_i command rest here
      obtain ⟨called, ran, rfl⟩ := map_eq_some_iff.mp taken
      exact inv.command here ran
    · cases taken
  | run p => exact inv.run taken

end

end Steps

theorem inv_init (initial : Initial k) : Inv k := by
  refine ⟨inv_initial initial.bio, initial.bio.pending, fun p => ?_⟩
  rw [initial.idle]
  refine .of_few ?_ nofun
  simp [uses, Bio.Buf.lockedBy, initial.bio.lock, initial.bio.idle, Bio.Frame.refs]

theorem reachable_inv {start : Nat} (reachable : (system start).Reachable k) : Inv k := by
  refine reachable.invariant inv_init ?_
  exact fun _ _ _ _ inv _ taken => inv.step taken

/-! ## Enough buffers -/

/-- The dirty buffers, one buffer for each `readi` and two for each operation and for a commit fit
into the cache. -/
def Kernel.Supplied (k : Kernel n Data) : Prop :=
  k.bio.dirties + ∑ p, (k.procs p).quota ≤ nbuf

instance (k : Kernel n Data) : Decidable k.Supplied :=
  inferInstanceAs (Decidable (_ ≤ _))

theorem Inv.uses_lt_quota (inv : Inv k) {p : Fin n} {blockno : Nat}
    (asks : k.Asks p blockno) : k.bio.uses p < (k.procs p).quota := by
  obtain ⟨idle, may | ⟨rest, here⟩⟩ := asks
  · rw [uses_eq_held idle]
    unfold Kernel.mayRead at may
    split at may
    case h_1 here =>
      rw [here]
      exact of_decide_eq_true may
    case h_2 here =>
      rw [here]
      exact of_decide_eq_true may
    case h_3 => cases may
  · have proper := inv.proper p
    rw [here] at proper ⊢
    obtain ⟨held, ⟨room, -⟩, -, few⟩ := proper.atCall idle
    exact lt_of_le_of_lt few room

/-- In every state of every run, a `bread` finds its block or a buffer for it as long as there
are buffers for all who may need one. -/
theorem buffers_suffice (start : Nat) (k : Kernel n Data)
    (reachable : (system start).Reachable k) (supplied : k.Supplied) (p : Fin n) (blockno : Nat)
    (asks : k.Asks p blockno) :
    (k.bio.bget p (blockId blockno)).isSome = true ∧
      ((∃ b, k.bio.lookup (blockId blockno) = some b ∧ (k.bio.bufs b).id = blockId blockno) ∨
        ∃ b, k.bio.unused = some b ∧ (k.bio.bufs b).refcnt = 0 ∧
          (k.bio.bufs b).dirty = false) := by
  have inv := reachable_inv reachable
  obtain ⟨order, ring, all, -⟩ := inv.bio.list
  have fewer : ∑ q, k.bio.uses q < ∑ q, (k.procs q).quota :=
    Finset.sum_lt_sum (fun q _ => (inv.proper q).few) ⟨p, Finset.mem_univ p, inv.uses_lt_quota asks⟩
  have few : k.bio.dirties + ∑ q, k.bio.uses q < nbuf := by
    unfold Kernel.Supplied at supplied
    omega
  obtain ⟨b, free, clean⟩ := inv.bio.exists_unused few
  have recycles : (order.reverse.find? fun b =>
      (k.bio.bufs b).refcnt = 0 && !(k.bio.bufs b).dirty).isSome :=
    find?_isSome.mpr ⟨b, mem_reverse.mpr (all b), by simp [free, clean]⟩
  obtain ⟨c, found⟩ := isSome_iff_exists.mp recycles
  have unused : k.bio.unused = some c := (unused_eq ring).trans found
  have idle := find?_some found
  rw [Bool.and_eq_true, decide_eq_true_eq, Bool.not_eq_true'] at idle
  cases lookup : k.bio.lookup (blockId blockno) with
  | some d =>
    have isId := find?_some ((lookup_eq ring _).symm.trans lookup)
    refine ⟨?_, .inl ⟨d, rfl, of_decide_eq_true isId⟩⟩
    simp [bget, lookup]
  | none =>
    refine ⟨?_, .inr ⟨c, unused, idle⟩⟩
    simp [bget, lookup, unused]

def booted (n : Nat) : Kernel n Unit where
  bio :=
    { bufs := fun _ => ⟨⟨0, 0⟩, false, false, 0, none, (), false, false⟩
      links := Bio.binit ⟨fun _ => none, fun _ => none⟩
      disk := fun _ => ()
      frames := fun _ => .idle
      left := fun _ => ()
      changed := fun _ => false }
  lh := []
  outstanding := 0
  committing := false
  procs := fun _ => .idle

theorem booted_initial (n : Nat) : Initial (booted n) where
  bio :=
    { links := ⟨_, rfl⟩
      id := fun _ => rfl
      valid := fun _ => rfl
      dirty := fun _ => rfl
      refcnt := fun _ => rfl
      lock := fun _ => rfl
      used := fun _ => rfl
      pending := fun _ => rfl
      idle := fun _ => rfl
      left := rfl
      changed := fun _ => rfl }
  lh := rfl
  outstanding := rfl
  committing := rfl
  idle := fun _ => rfl

/-- Two processes in `readi`; the second finds a buffer while the first waits for the disk. -/
theorem second_reader_finds_buffer : ∃ k : Kernel 2 Unit, (system 2).Reachable k ∧ k.Supplied ∧
    k.Asks 1 101 ∧ (k.bio.bget 1 (blockId 101)).isSome = true := by
  have ran : ∃ k ∈ (system 2).runWhen (fun _ _ => True) (booted 2)
      [.readi 0, .bread 0 100, .run 0, .readi 1],
      k.Supplied ∧ k.bio.frames 1 = .idle ∧ k.mayRead 1 = true := by
    decide +kernel
  obtain ⟨k, reachable, supplied, idle, may⟩ :=
    System.ReachableWhen.exists_of_runWhen (.init (booted_initial 2)) ran
  have asks : k.Asks 1 101 := ⟨idle, .inl may⟩
  exact ⟨k, reachable, supplied, asks, (buffers_suffice 2 k reachable supplied 1 101 asks).1⟩

/-- 31 processes call `readi` on different blocks: 30 of them have a buffer each when the last
one calls `bread`, which finds neither its block nor a buffer. -/
theorem thirty_one_readers : ∃ k : Kernel 31 Unit, 31 ≤ nproc ∧
    (system 2).ReachableWhen (fun k label => withinOp k label = true) k ∧ k.Asks 30 130 ∧
    k.bio.lookup (blockId 130) = none ∧ k.bio.unused = none := by
  have ran : ∃ k ∈ (system 2).runWhen (fun k label => withinOp k label = true) (booted 31)
      ((finRange 31).map .readi ++
        (finRange 30).map fun p => .bread p.castSucc (100 + p)), k.bio.frames 30 = .idle ∧
      k.mayRead 30 = true ∧ k.bio.lookup (blockId 130) = none ∧ k.bio.unused = none := by
    decide +kernel
  obtain ⟨k, reachable, idle, may, absent, none⟩ :=
    System.ReachableWhen.exists_of_runWhen (.init (booted_initial 31)) ran
  exact ⟨k, by decide, reachable, ⟨idle, .inl may⟩, absent, none⟩

end Laboratorio.Xv6.BufferUse
