import Laboratorio.Xv6.Log.Model

/-! # Crash atomicity of the log

The log area is a redo log in the sense of `Lib.RedoLog` (`layout`), and the writes
that `commit` and `recover_from_log` issue are the ones of that library: `commit`
fills the slots, writes a full header and goes on like a recovery.  So every disk that
a crash can leave holds either the old blocks or the new ones, and a recovery, cut
short or not, keeps what it holds.
-/

namespace Laboratorio.Xv6.Logs

open Laboratorio.Lib Function Words UInt32 List Buffers RedoLog

/-! ## The header block -/

theorem headN_setHead {lh : List Nat} (small : lh.length < 2 ^ 31) (data : Block) :
    headN (setHead lh data) = lh.length := by
  unfold headN setHead
  rw [Words.putAll, Words.get_putAll_of_lt _ _ Nat.zero_lt_one,
    get_put_self _ _ (by decide), toInt32_ofNat', Int32.toInt_ofNat_of_lt small]

theorem getHead_setHead {lh : List Nat} (fits : lh.length ≤ logSize)
    (uint : ∀ blockno ∈ lh, blockno < 2 ^ 32) (data : Block) :
    getHead (setHead lh data) = lh := by
  have small : lh.length ≤ 30 := fits
  have words : getAll (putAll (put data 0 (ofNat lh.length)) 1
      (lh.map ofNat)) 1 lh.length = lh.map ofNat := by
    have read := getAll_putAll (put data 0 (ofNat lh.length)) (i := 1)
      (lh.map ofNat) (by rw [length_map]; unfold nindirect; omega)
    rwa [length_map] at read
  unfold getHead
  rw [headN_setHead (by omega), Int.toNat_natCast, setHead, putAll, words, map_map]
  have same : ∀ blockno ∈ lh, (toNat ∘ ofNat) blockno = id blockno := by
    intro blockno member
    rw [comp_apply, toNat_ofNat', id, Nat.mod_eq_of_lt (uint blockno member)]
  rw [map_congr_left same, map_id]

theorem getHead_setHead_nil (data : Block) : getHead (setHead [] data) = [] := by
  refine getHead_setHead (Nat.zero_le _) ?_ data
  simp

theorem getHead_of_headN {data : Block} (empty : headN data = 0) : getHead data = [] := by
  simp [getHead, empty, getAll]

/-! ## The log area as a redo log -/

def layout (start size : Nat) : RedoLog Nat Block where
  head := start
  slot i := start + i + 1
  capacity := size - 1
  entries := getHead
  slot_ne_head i _ := by omega
  slot_injective i j _ _ same := by omega

variable {start size : Nat} {disk logical : Nat → Block}

@[simp]
theorem layout_entries : (layout start size).entries = getHead := rfl

@[simp]
theorem layout_head : (layout start size).head = start := rfl

theorem entries_setHead_nil (data : Block) : (layout start size).entries (setHead [] data) = [] := by
  rw [layout_entries, getHead_setHead_nil]

theorem inside_iff (positive : 0 < size) {blockno : Nat} :
    (layout start size).Inside blockno ↔ InArea start size blockno := by
  unfold RedoLog.Inside InArea layout
  simp only
  constructor
  · rintro (rfl | ⟨i, bound, rfl⟩) <;> omega
  · rintro ⟨low, high⟩
    by_cases isHead : blockno = start
    · exact Or.inl isHead
    · exact Or.inr ⟨blockno - start - 1, by omega, by omega⟩

theorem Transaction.sound (txn : Transaction start size) :
    (layout start size).Sound txn.block where
  nodup := txn.distinct
  fits := txn.fits_area
  outside blockno member inside := by
    have positive : 0 < size := by
      have := txn.some_block
      have := txn.fits_area
      omega
    exact txn.home blockno member ((inside_iff positive).mp inside)

/-! ## The writes that the loops issue -/

/-- A program has issued some more writes, and the buffers show them. -/
structure Issues (before after : Buffers) (writes : List (Nat × Block)) : Prop where
  issued : after.issued = before.issued ++ writes
  view : after.view = applyWrites before.view writes

theorem Issues.refl (bufs : Buffers) : Issues bufs bufs [] :=
  ⟨(append_nil _).symm, rfl⟩

theorem Issues.trans {first second third : Buffers} {writes rest : List (Nat × Block)}
    (left : Issues first second writes) (right : Issues second third rest) :
    Issues first third (writes ++ rest) := by
  refine ⟨?_, ?_⟩
  · rw [right.issued, left.issued, append_assoc]
  · rw [right.view, left.view, applyWrites_append]

theorem issues_bwrite (bufs : Buffers) (blockno : Nat) (data : Block) :
    Issues bufs (bufs.bwrite blockno data) [(blockno, data)] :=
  ⟨rfl, rfl⟩

theorem issues_writeHead (start : Nat) (lh : List Nat) (bufs : Buffers) :
    Issues bufs (writeHead start lh bufs) [(start, setHead lh (bufs.bread start))] :=
  issues_bwrite bufs start _

theorem issues_writeLog {lh : List Nat} {tail : Nat} (new : Nat → Block) (bufs : Buffers)
    (home : ∀ blockno ∈ lh, ¬ (layout start size).Inside blockno)
    (fits : tail + lh.length ≤ size - 1)
    (cached : ∀ blockno ∈ lh, bufs.view blockno = new blockno) :
    Issues bufs (writeLog start tail lh bufs) ((layout start size).fills new tail lh) := by
  induction lh generalizing tail bufs with
  | nil => exact .refl bufs
  | cons blockno rest ih =>
    simp only [length_cons] at fits
    rw [writeLog, bread, cached blockno mem_cons_self]
    refine (issues_bwrite bufs (start + tail + 1) (new blockno)).trans
      (ih _ (fun other member => home other (mem_cons_of_mem _ member))
        (by omega) fun other member => ?_)
    -- the write of a log block does not touch a home block
    have apart := slot_ne (home other (mem_cons_of_mem _ member)) (i := tail)
      (show tail < size - 1 by omega)
    refine Eq.trans (update_of_ne apart _ _) ?_
    exact cached other (mem_cons_of_mem _ member)

theorem issues_installTrans {lh : List Nat} {tail : Nat} (bufs : Buffers)
    (home : ∀ blockno ∈ lh, ¬ (layout start size).Inside blockno)
    (fits : tail + lh.length ≤ size - 1) :
    Issues bufs (installTrans start tail lh bufs)
      ((layout start size).installs bufs.view tail lh) := by
  induction lh generalizing tail bufs with
  | nil => exact .refl bufs
  | cons blockno rest ih =>
    simp only [length_cons] at fits
    have fitsNext : tail + 1 + rest.length ≤ size - 1 := by omega
    have later := ih (bufs.bwrite blockno (bufs.view (start + tail + 1)))
      (fun other member => home other (mem_cons_of_mem _ member)) fitsNext
    have same : (layout start size).installs (bufs.bwrite blockno
        (bufs.view (start + tail + 1))).view (tail + 1) rest =
        (layout start size).installs bufs.view (tail + 1) rest := by
      refine installs_congr fun k _ high => update_of_ne ?_ _ _
      exact (slot_ne (home blockno mem_cons_self) (i := k)
        (show k < size - 1 by omega)).symm
    rw [same] at later
    exact (issues_bwrite bufs blockno _).trans later

theorem issued_recoverFromLog (sound : (layout start size).Sound (getHead (disk start))) :
    ∃ data, (recoverFromLog start (boot disk)).issued =
      (layout start size).installs disk 0 (getHead (disk start)) ++ [(start, setHead [] data)] := by
  have installed := issues_installTrans (boot disk) sound.outside
    (by rw [Nat.zero_add]; exact sound.fits)
  have all := installed.trans (issues_writeHead start [] _)
  exact ⟨_, all.issued.trans (List.nil_append _)⟩

theorem slot_written (txn : Transaction start size) (disk view : Nat → Block) (header : Block)
    {k : Nat} (bound : k < txn.block.length) :
    update (applyWrites disk ((layout start size).fills view 0 txn.block)) start header
      ((layout start size).slot k) = view txn.block[k] := by
  have small : k < (layout start size).capacity := Nat.lt_of_lt_of_le bound txn.fits_area
  have fits : 0 + txn.block.length ≤ (layout start size).capacity := by
    rw [Nat.zero_add]
    exact txn.fits_area
  have filled := (RedoLog.applyWrites_fills disk view fits).1 k bound
  rw [Nat.zero_add] at filled
  exact (update_of_ne ((layout start size).slot_ne_head k small) _ _).trans filled

/-- `commit` fills the log, writes the header and then does what a recovery of the disk
`committed` would do. -/
theorem issued_commit (txn : Transaction start size) (disk view : Nat → Block) :
    ∃ header empty committed,
      committed = update
        (applyWrites disk ((layout start size).fills view 0 txn.block)) start
          (setHead txn.block header) ∧
      (commit start txn.block ⟨view, []⟩).issued =
        (layout start size).fills view 0 txn.block ++ (start, setHead txn.block header) ::
          ((layout start size).installs committed 0 txn.block ++ [(start, setHead [] empty)]) := by
  have home := txn.sound.outside
  have fits : 0 + txn.block.length ≤ size - 1 := by
    rw [Nat.zero_add]
    exact txn.fits_area
  unfold commit
  rw [if_pos txn.some_block]
  have logged := issues_writeLog view ⟨view, []⟩ home fits fun _ _ => rfl
  generalize writeLog start 0 txn.block ⟨view, []⟩ = loggedBufs at logged
  have headed := issues_writeHead start txn.block loggedBufs
  have installed := issues_installTrans (writeHead start txn.block loggedBufs) home fits
  have cleared := issues_writeHead start []
    (installTrans start 0 txn.block (writeHead start txn.block loggedBufs))
  have issued := (((logged.trans headed).trans installed).trans cleared).issued
  refine ⟨loggedBufs.bread start, (installTrans start 0 txn.block
    (writeHead start txn.block loggedBufs)).bread start, _, rfl, issued.trans ?_⟩
  have same : (layout start size).installs (writeHead start txn.block loggedBufs).view 0 txn.block =
      (layout start size).installs (update (applyWrites disk
        ((layout start size).fills view 0 txn.block)) start
          (setHead txn.block (loggedBufs.bread start))) 0 txn.block := by
    refine RedoLog.installs_congr fun k _ bound => ?_
    rw [Nat.zero_add] at bound
    rw [slot_written txn disk view _ bound, writeHead, Buffers.bwrite, logged.view]
    exact slot_written txn view view _ bound
  rw [same]
  simp

/-! ## Recoveries -/

theorem along_recoverFromLog (holds : (layout start size).Holds disk logical) :
    Along ((layout start size).Holds · logical) disk (recoverFromLog start (boot disk)).issued ∧
    ∃ data, applyWrites disk (recoverFromLog start (boot disk)).issued start = setHead [] data := by
  have sound := holds.sound
  obtain ⟨data, issued⟩ := issued_recoverFromLog sound
  have along := along_recovery (entries_setHead_nil data) holds
  have written : applyWrites disk ((layout start size).installs disk 0 (getHead (disk start)) ++
      [((layout start size).head, setHead [] data)]) (layout start size).head = setHead [] data :=
    applyWrites_recovery
  rw [issued]
  exact ⟨along, data, written⟩

theorem holds_recoverCrashing (holds : (layout start size).Holds disk logical) (crashes : List Nat) :
    headN (recoverCrashing start disk crashes start) = 0 ∧
    ∀ blockno, ¬ (layout start size).Inside blockno →
      recoverCrashing start disk crashes blockno = logical blockno := by
  induction crashes generalizing disk with
  | nil =>
    obtain ⟨along, data, header⟩ := along_recoverFromLog holds
    have empty : (layout start size).entries (applyWrites disk
        (recoverFromLog start (boot disk)).issued (layout start size).head) = [] := by
      rw [layout_head, header]
      exact entries_setHead_nil data
    rw [recoverCrashing]
    refine ⟨by rw [header]; exact headN_setHead (by simp) data, fun blockno home => ?_⟩
    rw [← along.all.contents blockno home, contents_of_empty empty]
  | cons count rest ih =>
    exact ih ((along_recoverFromLog holds).1 count)

/-! ## Commits -/

/-- The home blocks after a transaction. -/
def newContents (block : List Nat) (disk view : Nat → Block) (blockno : Nat) : Block :=
  if blockno ∈ block then view blockno else disk blockno

/-- What the disk holds when a crash cuts `commit` short: the new contents from the first
write of the header on. -/
theorem holds_commit (txn : Transaction start size) (disk view : Nat → Block)
    (empty : headN (disk start) = 0) (count : Nat) :
    (layout start size).Holds
        (applyWrites disk ((commit start txn.block ⟨view, []⟩).issued.take count)) disk ∧
      (∀ data, (start, data) ∉ (commit start txn.block ⟨view, []⟩).issued.take count) ∨
    (layout start size).Holds
        (applyWrites disk ((commit start txn.block ⟨view, []⟩).issued.take count))
        (newContents txn.block disk view) ∧
      ∃ data, (start, data) ∈ (commit start txn.block ⟨view, []⟩).issued.take count := by
  obtain ⟨header, cleared, committed, isCommitted, issued⟩ := issued_commit txn disk view
  have noEntries : (layout start size).entries (disk (layout start size).head) = [] := by
    rw [layout_entries, layout_head, getHead_of_headN empty]
  have holds : (layout start size).Holds disk disk :=
    ⟨noEntries ▸ RedoLog.sound_nil, fun blockno _ => RedoLog.contents_of_empty noEntries blockno⟩
  have fits : 0 + txn.block.length ≤ (layout start size).capacity := by
    rw [Nat.zero_add]
    exact txn.fits_area
  have filling := RedoLog.along_fills view noEntries fits holds
  rw [issued]
  by_cases early : count ≤ ((layout start size).fills view 0 txn.block).length
  · -- only log blocks have been written
    rw [List.take_append_of_le_length early]
    refine Or.inl ⟨(filling count).1, fun data written => ?_⟩
    exact RedoLog.ne_head_of_mem_fills fits (List.mem_of_mem_take written) rfl
  · -- the header is on the disk, and the rest of `commit` is a recovery
    obtain ⟨later, isLater⟩ : ∃ later, count =
        ((layout start size).fills view 0 txn.block).length + (later + 1) :=
      ⟨count - ((layout start size).fills view 0 txn.block).length - 1, by omega⟩
    rw [isLater, List.take_length_add_append, List.take_succ_cons, applyWrites_append,
      applyWrites_cons, ← isCommitted]
    have listed : (layout start size).entries (setHead txn.block header) = txn.block := by
      exact getHead_setHead txn.fits_array txn.uint header
    have new : (layout start size).Holds committed (newContents txn.block disk view) := by
      rw [isCommitted]
      refine filling.all.1.commit filling.all.2 listed txn.sound fun k bound => ?_
      have filled := (RedoLog.applyWrites_fills disk view fits).1 k bound
      rwa [Nat.zero_add] at filled
    have committedList : (layout start size).entries (committed (layout start size).head) =
        txn.block := by
      rw [layout_head, isCommitted, update_self, listed]
    have recovery := RedoLog.along_recovery (entries_setHead_nil cleared) new
    rw [committedList] at recovery
    exact Or.inr ⟨recovery later, _, List.mem_append_right _ List.mem_cons_self⟩

/-- A crash anywhere in `commit`, and then anywhere in any number of recoveries, leaves
after the first complete recovery an empty log and either all the old home blocks or
all the new ones: the new ones exactly when a header write of that `commit` reached
the disk. -/
theorem commit_crash_atomic (txn : Transaction start size) (disk view : Nat → Block)
    (empty : headN (disk start) = 0) (count : Nat) (crashes : List Nat)
    {reached : List (Nat × Block)} {final : Nat → Block}
    (crashed : reached = (commit start txn.block ⟨view, []⟩).issued.take count)
    (recovered : final = recoverCrashing start (applyWrites disk reached) crashes) :
    headN (final start) = 0 ∧
    (∀ blockno, ¬ InArea start size blockno → blockno ∉ txn.block →
      final blockno = disk blockno) ∧
    ((∃ data, (start, data) ∈ reached) → ∀ blockno ∈ txn.block, final blockno = view blockno) ∧
    ((¬ ∃ data, (start, data) ∈ reached) → ∀ blockno ∈ txn.block, final blockno = disk blockno) := by
  have positive : 0 < size := by
    have := txn.some_block
    have := txn.fits_area
    omega
  have outside : ∀ blockno, ¬ InArea start size blockno → ¬ (layout start size).Inside blockno :=
    fun blockno home inside => home ((inside_iff positive).mp inside)
  rw [recovered, crashed]
  cases holds_commit txn disk view empty count with
  | inl old =>
    obtain ⟨header, home⟩ := holds_recoverCrashing old.1 crashes
    refine ⟨header, fun blockno isHome _ => home blockno (outside blockno isHome), ?_, ?_⟩
    · rintro ⟨data, written⟩
      exact absurd written (old.2 data)
    · exact fun _ blockno member => home blockno (outside blockno (txn.home blockno member))
  | inr new =>
    obtain ⟨header, home⟩ := holds_recoverCrashing new.1 crashes
    refine ⟨header, fun blockno isHome other => ?_, fun _ blockno member => ?_,
      fun absent => absurd new.2 absent⟩
    · rw [home blockno (outside blockno isHome), newContents, if_neg other]
    · rw [home blockno (outside blockno (txn.home blockno member)), newContents, if_pos member]

/-- Three blocks, on the log area that `mkfs` lays out. -/
def threeBlocks : Transaction 2 nlog where
  block := [40, 52, 41]
  some_block := by decide
  fits_area := by decide
  fits_array := by decide
  distinct := by decide
  home := by simp [InArea, nlog, logSize, maxOpBlocks]
  uint := by simp

/-- The commit of three blocks on a zeroed disk crashes after the header is written, and the
first recovery crashes with one of the blocks in place. -/
theorem three_blocks_survive_two_crashes :
    [40, 52, 41].map (recoverCrashing 2 (applyWrites (fun _ _ => 0)
      ((commit 2 [40, 52, 41] ⟨fun _ _ => 1, []⟩).issued.take 4)) [1]) =
      [fun _ => 1, fun _ => 1, fun _ => 1] := by
  have atomic := commit_crash_atomic threeBlocks (fun _ _ => 0) (fun _ _ => 1) (by decide) 4 [1]
    rfl rfl
  have committed := atomic.2.2.1 ⟨setHead [40, 52, 41] fun _ => 1, ?_⟩
  · exact (map_congr_left committed).trans rfl
  simp [commit, threeBlocks, writeLog, writeHead, installTrans, bwrite, bread]

end Laboratorio.Xv6.Logs
