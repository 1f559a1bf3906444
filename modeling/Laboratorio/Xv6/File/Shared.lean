import Laboratorio.Xv6.File.Model
import Laboratorio.Xv6.Inode.Contents

/-! # Writes through a shared entry are not lost or mixed

* `Position.Proper` — what a process in a call has written, and that `writei` never refused
  it a chunk.
* `Inv` — the contents of the inode are the chunks written, in their order; `off` is the
  end of the file except between `writei` and the addition to `off`, which the lock covers.
* `shared_writes` — when all calls have returned, the contents interleave their chunks.

No call is refused while the calls' bytes fit in a file: what one call has still to write
counts against the room left by what all calls have written (`Inv.room`).
-/

namespace Laboratorio.Xv6.SharedFile

open Laboratorio.Lib Laboratorio.Lib.Pieces Laboratorio.Xv6.Inodes Function
open List Nat Option Kernel FileSystem

theorem maxChunk_pos : 0 < maxChunk := by decide

/-! ## Positions -/

namespace Position

def call? : Position → Option Call
  | idle => none
  | loop call | begun call | locked call => some call
  | wrote call _ | advanced call _ | unlocked call _ | ended call _ => some call

/-- The number of the call under way. -/
def number? (position : Position) : Option Nat :=
  position.call?.map Call.number

def holds : Position → Bool
  | locked _ | wrote _ _ | advanced _ _ => true
  | _ => false

/-- Bytes written that are not in `off` yet. -/
def pending : Position → Nat
  | wrote _ (some r) => r
  | _ => 0

/-- The first `done` bytes of the call have been written, in chunks. -/
def Sound (calls : List (List UInt8)) (written : Pieces UInt8) (call : Call) (done : Nat) : Prop :=
  calls[call.number]? = some call.src ∧ done ≤ call.src.length ∧
    piecesOf written call.number ++ chunks maxChunk (call.src.drop done) =
      chunks maxChunk call.src

def Proper (calls : List (List UInt8)) (written : Pieces UInt8) : Position → Prop
  | idle => True
  | loop call => Sound calls written call call.i
  | begun call | locked call =>
    call.i < call.src.length ∧ Sound calls written call call.i
  | wrote call r | advanced call r | unlocked call r | ended call r =>
    r = some call.n1 ∧ Sound calls written call (call.i + call.n1)

end Position

/-! ## Chunks of a call -/

namespace Call

variable {call : Call}

theorem i_add_n1_le (inside : call.i ≤ call.src.length) : call.i + call.n1 ≤ call.src.length := by
  rw [n1]
  split <;> omega

theorem length_chunk (inside : call.i ≤ call.src.length) : call.chunk.length = call.n1 := by
  have bound := i_add_n1_le inside
  rw [chunk, length_take, length_drop]
  omega

/-- The chunk of a round is the next chunk of the bytes. -/
theorem chunks_drop (more : call.i < call.src.length) :
    chunks maxChunk (call.src.drop call.i) =
      call.chunk :: chunks maxChunk (call.src.drop (call.i + call.n1)) := by
  have nonempty : call.src.drop call.i ≠ [] := by
    rw [ne_eq, drop_eq_nil_iff]
    omega
  rw [chunks_cons maxChunk_pos nonempty, drop_drop]
  by_cases long : maxChunk < call.src.length - call.i
  · simp [chunk, n1, if_pos long]
  · -- the last chunk is the rest, and nothing is left behind it
    have length : (call.src.drop call.i).length = call.src.length - call.i := length_drop
    have whole : ∀ size, call.src.length - call.i ≤ size →
        (call.src.drop call.i).take size = call.src.drop call.i ∧
          call.src.drop (call.i + size) = [] := by
      intro size fits
      exact ⟨take_of_length_le (by omega), drop_of_length_le (by omega)⟩
    obtain ⟨takeMax, dropMax⟩ := whole maxChunk (by omega)
    obtain ⟨takeRest, dropRest⟩ := whole (call.src.length - call.i) (le_refl _)
    simp [chunk, n1, if_neg long, takeMax, dropMax, takeRest, dropRest]

end Call

namespace Position

variable {calls calls' : List (List UInt8)} {written written' : Pieces UInt8} {position : Position} {call : Call}

theorem Sound.write (sound : Sound calls written call call.i) (more : call.i < call.src.length) :
    Sound calls (written ++ [(call.number, call.chunk)]) call (call.i + call.n1) := by
  obtain ⟨made, _, pieces⟩ := sound
  refine ⟨made, Call.i_add_n1_le (le_of_lt more), ?_⟩
  rw [piecesOf_append_self, append_assoc, singleton_append, ← Call.chunks_drop more]
  exact pieces

theorem Sound.frame {done : Nat} (sound : Sound calls written call done)
    (kept : ∀ src, calls[call.number]? = some src → calls'[call.number]? = some src)
    (same : piecesOf written' call.number = piecesOf written call.number) :
    Sound calls' written' call done := by
  obtain ⟨made, bound, pieces⟩ := sound
  exact ⟨kept _ made, bound, by rw [same]; exact pieces⟩

theorem Proper.frame
    (proper : Proper calls written position)
    (kept : ∀ call, position.call? = some call → ∀ src, calls[call.number]? = some src →
      calls'[call.number]? = some src)
    (same : ∀ call, position.call? = some call →
      piecesOf written' call.number = piecesOf written call.number) :
    Proper calls' written' position := by
  cases position with
  | idle => trivial
  | loop call => exact Sound.frame proper (kept call rfl) (same call rfl)
  | begun call => exact ⟨proper.1, proper.2.frame (kept call rfl) (same call rfl)⟩
  | locked call => exact ⟨proper.1, proper.2.frame (kept call rfl) (same call rfl)⟩
  | wrote call r => exact ⟨proper.1, proper.2.frame (kept call rfl) (same call rfl)⟩
  | advanced call r => exact ⟨proper.1, proper.2.frame (kept call rfl) (same call rfl)⟩
  | unlocked call r => exact ⟨proper.1, proper.2.frame (kept call rfl) (same call rfl)⟩
  | ended call r => exact ⟨proper.1, proper.2.frame (kept call rfl) (same call rfl)⟩

theorem Proper.made (proper : Proper calls written position) (isCall : position.call? = some call) :
    calls[call.number]? = some call.src ∧
      (piecesOf written call.number).flatten.length ≤ call.src.length := by
  obtain ⟨done, sound⟩ : ∃ done, Sound calls written call done := by
    cases position with
    | idle => cases isCall
    | loop other => exact some.inj isCall ▸ ⟨_, proper⟩
    | begun other => exact some.inj isCall ▸ ⟨_, proper.2⟩
    | locked other => exact some.inj isCall ▸ ⟨_, proper.2⟩
    | wrote other r => exact some.inj isCall ▸ ⟨_, proper.2⟩
    | advanced other r => exact some.inj isCall ▸ ⟨_, proper.2⟩
    | unlocked other r => exact some.inj isCall ▸ ⟨_, proper.2⟩
    | ended other r => exact some.inj isCall ▸ ⟨_, proper.2⟩
  obtain ⟨made, _, pieces⟩ := sound
  refine ⟨made, ?_⟩
  have lengths := congrArg (fun list => list.flatten.length) pieces
  simp only [flatten_append, length_append, flatten_chunks maxChunk_pos] at lengths
  omega

end Position

/-! ## The invariant -/

variable {Pid : Type} {inum : Nat} {new : Position}

def Kernel.session (inum : Nat) (k : Kernel Pid) : Session :=
  ⟨k.fs, if (k.fs.icache inum).locked then [inum] else []⟩

/-- At most one process is in the critical section; outside of it `off` is the end of the
file. -/
structure Locks (locked : Bool) (off length : Nat) (procs : Pid → Position) : Prop where
  holder : ∀ p, (procs p).holds = true → locked = true
  alone : ∀ p q, (procs p).holds = true → (procs q).holds = true → p = q
  settled : (∀ p, (procs p).holds = false) → off = length
  held : ∀ p, (procs p).holds = true → off + (procs p).pending = length

structure Inv (inum : Nat) (k : Kernel Pid) : Prop where
  session : SessionInv (k.session inum)
  ref : 0 < (k.fs.icache inum).ref
  file : ∃ dip, k.fs.dinodes inum = some dip ∧ dip.type = .file ∧
    contents k.fs.blocks dip = joined k.written
  locks : Locks (k.fs.icache inum).locked k.off (joined k.written).length k.procs
  proper : ∀ p, (k.procs p).Proper k.calls k.written
  distinct : ∀ p q number, (k.procs p).number? = some number →
    (k.procs q).number? = some number → p = q
  finished : ∀ number src, k.calls[number]? = some src →
    (∃ p, (k.procs p).number? = some number) ∨
      (k.results number = some (some src.length) ∧
        piecesOf k.written number = chunks maxChunk src)
  known : ∀ piece ∈ k.written, piece.1 < k.calls.length

/-- The bytes of all calls. -/
def Kernel.total (k : Kernel Pid) : Nat :=
  (k.calls.map List.length).sum

/-- The calls' numbers index their bytes. -/
theorem Kernel.total_eq_sum (k : Kernel Pid) :
    k.total = ∑ number ∈ Finset.range k.calls.length, (k.calls.getD number []).length := by
  rw [total]
  generalize k.calls = calls
  induction calls with
  | nil => rfl
  | cons first rest ih =>
    rw [List.map_cons, List.sum_cons, ih, List.length_cons,
      Finset.sum_range_succ', Nat.add_comm]
    rfl

namespace Locks

variable {locked locked' : Bool} {off off' length length' : Nat} {procs : Pid → Position} {p : Pid}

theorem others_free (locks : Locks locked off length procs) (holding : (procs p).holds = true)
    (q : Pid) (different : q ≠ p) : (procs q).holds = false := by
  rw [← Bool.not_eq_true]
  exact fun holdsQ => different (locks.alone q p holdsQ holding)

theorem nobody (locks : Locks false off length procs) (q : Pid) : (procs q).holds = false := by
  rw [← Bool.not_eq_true]
  intro holdsQ
  cases locks.holder q holdsQ

theorem of_nobody (nobody : ∀ q, (procs q).holds = false) (atEnd : off = length) :
    Locks locked off length procs := by
  refine ⟨?_, ?_, fun _ => atEnd, ?_⟩
  · intro q holdsQ
    rw [nobody q] at holdsQ
    cases holdsQ
  · intro q _ holdsQ
    rw [nobody q] at holdsQ
    cases holdsQ
  · intro q holdsQ
    rw [nobody q] at holdsQ
    cases holdsQ

variable [DecidableEq Pid]

theorem outside (locks : Locks locked off length procs) (free : (procs p).holds = false)
    (stillFree : new.holds = false) : Locks locked off length (update procs p new) := by
  have same : ∀ q, (update procs p new q).holds = (procs q).holds :=
    update_congr (stillFree.trans free.symm)
  refine ⟨?_, ?_, ?_, ?_⟩
  · simp only [same]
    exact locks.holder
  · simp only [same]
    exact locks.alone
  · simp only [same]
    exact locks.settled
  · intro q holdsQ
    rw [same] at holdsQ
    have different : q ≠ p := by
      rintro rfl
      rw [free] at holdsQ
      cases holdsQ
    rw [update_of_ne different]
    exact locks.held q holdsQ

theorem inside (others : ∀ q, q ≠ p → (procs q).holds = false) (holds : new.holds = true)
    (held : off + new.pending = length) : Locks true off length (update procs p new) := by
  have isP : ∀ q, (update procs p new q).holds = true → q = p := by
    intro q holdsQ
    by_contra different
    rw [update_of_ne different, others q different] at holdsQ
    cases holdsQ
  refine ⟨fun _ _ => rfl, ?_, ?_, ?_⟩
  · intro first second holdsFirst holdsSecond
    rw [isP first holdsFirst, isP second holdsSecond]
  · intro nobody
    have free := nobody p
    rw [update_self, holds] at free
    cases free
  · intro q holdsQ
    rw [isP q holdsQ, update_self]
    exact held

theorem leave (others : ∀ q, q ≠ p → (procs q).holds = false) (free : new.holds = false)
    (atEnd : off = length) : Locks locked off length (update procs p new) := by
  refine of_nobody (fun q => ?_) atEnd
  induction q using update_cases with
  | own => exact free
  | others q other => exact others q other

end Locks

namespace Inv

variable {k k' : Kernel Pid} {p : Pid} {call : Call} {before : Position}

theorem proper_at (inv : Inv inum k) (located : k.procs p = before) :
    before.Proper k.calls k.written :=
  located ▸ inv.proper p

theorem holding (inv : Inv inum k) (located : k.procs p = before) (holds : before.holds = true) :
    (k.fs.icache inum).locked = true ∧ (∀ q, q ≠ p → (k.procs q).holds = false) ∧
      k.off + before.pending = (joined k.written).length ∧ SessionInv ⟨k.fs, [inum]⟩ := by
  subst located
  have locked := inv.locks.holder p holds
  have session := inv.session
  rw [Kernel.session, if_pos locked] at session
  exact ⟨locked, inv.locks.others_free holds, inv.locks.held p holds, session⟩

theorem written_le (inv : Inv inum k) {number : Nat} {src : List UInt8}
    (made : k.calls[number]? = some src) :
    (piecesOf k.written number).flatten.length ≤ src.length := by
  rcases inv.finished number src made with ⟨p, under⟩ | ⟨_, pieces⟩
  · obtain ⟨call, isCall, same⟩ := map_eq_some_iff.mp under
    obtain ⟨madeCall, bound⟩ := (inv.proper p).made isCall
    rw [same, made] at madeCall
    rw [← same, some.inj madeCall]
    exact bound
  · rw [pieces, flatten_chunks maxChunk_pos]

theorem room (inv : Inv inum k) {number left : Nat} {src : List UInt8}
    (made : k.calls[number]? = some src)
    (mine : (piecesOf k.written number).flatten.length + left ≤ src.length) :
    (joined k.written).length + left ≤ k.total := by
  have bound : number < k.calls.length := (List.getElem?_eq_some_iff.mp made).1
  have atNumber : k.calls.getD number [] = src := by rw [List.getD_eq_getElem?_getD, made]; rfl
  rw [length_joined k.written inv.known, Kernel.total_eq_sum,
    ← Finset.add_sum_erase _ _ (Finset.mem_range.mpr bound),
    ← Finset.add_sum_erase (Finset.range k.calls.length) (fun number => (k.calls.getD number []).length)
      (Finset.mem_range.mpr bound)]
  have others : ∑ other ∈ (Finset.range k.calls.length).erase number,
        (piecesOf k.written other).flatten.length ≤
      ∑ other ∈ (Finset.range k.calls.length).erase number, (k.calls.getD other []).length := by
    apply Finset.sum_le_sum
    intro other mem
    have inside := Finset.mem_range.mp (Finset.mem_of_mem_erase mem)
    rw [List.getD_eq_getElem?_getD, List.getElem?_eq_getElem inside]
    exact inv.written_le (List.getElem?_eq_getElem inside)
  simp only [atNumber]
  omega

variable [DecidableEq Pid] {fs' : FileSystem}

theorem move (inv : Inv inum k) {off' : Nat} (located : k.procs p = before)
    (number : new.number? = before.number?) (proper : new.Proper k.calls k.written)
    (session : SessionInv ⟨fs', if (fs'.icache inum).locked then [inum] else []⟩)
    (ref : 0 < (fs'.icache inum).ref) (disk : fs'.blocks = k.fs.blocks ∧ fs'.dinodes = k.fs.dinodes)
    (locks : Locks (fs'.icache inum).locked off' (joined k.written).length (update k.procs p new)) :
    Inv inum { k.goto p new with fs := fs', off := off' } := by
  have numbers : ∀ q, (update k.procs p new q).number? = (k.procs q).number? :=
    update_congr (number.trans (located ▸ rfl))
  refine
    { session := session
      ref := ref
      file := ?_
      locks := locks
      proper := ?_
      distinct := ?_
      finished := ?_
      known := inv.known }
  · obtain ⟨dip, entry, type, bytes⟩ := inv.file
    have sameEntry : fs'.dinodes inum = some dip := by rw [disk.2, entry]
    have sameBytes : contents fs'.blocks dip = joined k.written := by rw [disk.1, bytes]
    exact ⟨dip, sameEntry, type, sameBytes⟩
  · intro q
    simp only [goto]
    induction q using update_cases with
    | own => exact proper
    | others q _ => exact inv.proper q
  · intro first second shared
    simp only [goto, numbers]
    exact inv.distinct first second shared
  · intro shared src made
    simp only [goto, numbers]
    exact inv.finished shared src made

theorem goto (inv : Inv inum k) (located : k.procs p = before)
    (number : new.number? = before.number?) (proper : new.Proper k.calls k.written)
    (free : before.holds = false) (stillFree : new.holds = false) : Inv inum (k.goto p new) :=
  inv.move located number proper inv.session inv.ref ⟨rfl, rfl⟩
    (inv.locks.outside (located ▸ free) stillFree)

/-! ### The critical section -/

theorem ilock (inv : Inv inum k) (begun : k.procs p = .begun call)
    (unlocked : (k.fs.icache inum).locked = false) (ok : Inodes.ilock k.fs inum = .ok fs') :
    Inv inum { k.goto p (.locked call) with fs := fs' } := by
  have isLocked : (fs'.icache inum).locked = true ∧
      (fs'.icache inum).ref = (k.fs.icache inum).ref ∧
      fs'.blocks = k.fs.blocks ∧ fs'.dinodes = k.fs.dinodes := by
    simp only [Inodes.ilock] at ok
    split at ok
    · cases ok
    · split at ok
      · cases ok
        simp [setEntry]
      · split at ok
        · cases ok
          simp [setEntry]
        · cases ok
  obtain ⟨locked, ref, disk⟩ := isLocked
  have before : SessionInv ⟨k.fs, []⟩ := by
    have session := inv.session
    simpa only [Kernel.session, unlocked, Bool.false_eq_true, if_false] using session
  have locks := inv.locks
  rw [unlocked] at locks
  refine inv.move begun rfl (inv.proper_at begun :) ?_ (by rw [ref]; exact inv.ref) disk ?_
  · rw [if_pos locked]
    exact before.ilock unlocked ok
  · rw [locked]
    exact .inside (fun q _ => locks.nobody q) rfl (locks.settled locks.nobody)

/-- `f->off += r` -/
theorem advance (inv : Inv inum k) {r : Nat} (wrote : k.procs p = .wrote call (some r)) :
    Inv inum { k.goto p (.advanced call (some r)) with off := k.off + r } := by
  obtain ⟨locked, others, held, _⟩ := inv.holding wrote rfl
  refine inv.move wrote rfl (inv.proper_at wrote :) inv.session inv.ref ⟨rfl, rfl⟩ ?_
  show Locks (k.fs.icache inum).locked _ _ _
  rw [locked]
  exact .inside others rfl held

theorem iunlock (inv : Inv inum k) {r : Option Nat} (advanced : k.procs p = .advanced call r) :
    Inv inum { k.goto p (.unlocked call r) with fs := Inodes.iunlock k.fs inum } := by
  obtain ⟨_, others, held, before⟩ := inv.holding advanced rfl
  have free : ((Inodes.iunlock k.fs inum).icache inum).locked = false := by
    simp [Inodes.iunlock, setEntry]
  refine inv.move advanced rfl (inv.proper_at advanced :) ?_ ?_ ⟨rfl, rfl⟩ (.leave others rfl held)
  · have after := before.iunlock mem_cons_self
    simp only [free]
    simpa using after
  · simpa [Inodes.iunlock, setEntry] using inv.ref

omit [DecidableEq Pid] in
/-- What `writei` does to the file when the process has locked the inode. -/
theorem writei_appends (inv : Inv inum k) (within : k.total ≤ maxFile * bsize)
    (locked : k.procs p = .locked call) {ip ip' : Inode} {r : Option Nat}
    (copy : (k.fs.icache inum).copy = some ip)
    (ok : writei k.fs inum ip k.off call.chunk = .ok (r, fs', ip')) :
    r = some call.n1 ∧ ∃ dip', Stored k.fs inum fs' ip' dip' ∧ dip'.type = .file ∧
      contents fs'.blocks dip' = joined k.written ++ call.chunk := by
  obtain ⟨_, _, held, session⟩ := inv.holding locked rfl
  simp only [Position.pending, add_zero] at held
  obtain ⟨dip, entry, agrees⟩ := session.agrees inum ip inv.ref (.inr mem_cons_self) copy
  obtain ⟨found, foundEntry, type, bytes⟩ := inv.file
  obtain rfl : found = dip := some.inj (foundEntry.symm.trans entry)
  have notDevice : ip.type ≠ .dev := by
    rw [agrees.1, type]
    decide
  -- `off` is the end of the file
  have atEnd : k.off = ip.size := by
    have length := congrArg length bytes
    rw [contents_length] at length
    rw [agrees.2.2.1, length]
    exact held
  -- and the chunk has room behind it
  obtain ⟨more, made, _, pieces⟩ := inv.proper_at locked
  have mine : (piecesOf k.written call.number).flatten.length + call.n1 ≤ call.src.length := by
    have lengths := congrArg (fun list => list.flatten.length) pieces
    simp only [flatten_append, length_append, flatten_chunks maxChunk_pos,
      length_drop] at lengths
    have bound := Call.i_add_n1_le (le_of_lt more)
    omega
  have chunkLength := Call.length_chunk (le_of_lt more)
  have room : k.off + call.chunk.length ≤ maxFile * bsize := by
    have fits := inv.room made mine
    omega
  have small : k.off + call.chunk.length < 2 ^ 32 := lt_of_le_of_lt room (by decide)
  have count := writei_count notDevice (le_of_eq atEnd) small room ok
  rw [chunkLength] at count
  have opened := session.opened entry agrees
  rw [count] at ok
  obtain ⟨written, size, sameType⟩ := writei_written (opened.maps notDevice) notDevice ok
  obtain ⟨dip', stored⟩ := writei_stored opened ok
  refine ⟨count, dip', stored, ?_, ?_⟩
  · rw [← stored.agrees.1, sameType, agrees.1, type]
  · rw [← stored.agrees.contents, written.appends size atEnd, agrees.contents, bytes]

theorem append (inv : Inv inum k) (locked : k.procs p = .locked call)
    (session : SessionInv ⟨fs', [inum]⟩) (isLocked : (fs'.icache inum).locked = true)
    (ref : 0 < (fs'.icache inum).ref)
    (file : ∃ dip, fs'.dinodes inum = some dip ∧ dip.type = .file ∧
      contents fs'.blocks dip = joined k.written ++ call.chunk) :
    Inv inum { k.goto p (.wrote call (some call.n1)) with
      fs := fs'
      written := k.written ++ [(call.number, call.chunk)] } := by
  obtain ⟨_, others, held, _⟩ := inv.holding locked rfl
  obtain ⟨more, sound⟩ := inv.proper_at locked
  have number : (k.procs p).number? = some call.number := by rw [locked]; rfl
  have numbers : ∀ q, (update k.procs p (.wrote call (some call.n1)) q).number? =
      (k.procs q).number? := update_congr number.symm
  refine
    { session := ?_
      ref := ref
      file := ?_
      locks := ?_
      proper := ?_
      distinct := ?_
      finished := ?_
      known := ?_ }
  · show SessionInv ⟨fs', if (fs'.icache inum).locked then [inum] else []⟩
    rw [if_pos isLocked]
    exact session
  · obtain ⟨dip, entry, type, bytes⟩ := file
    exact ⟨dip, entry, type, by rw [joined_append]; exact bytes⟩
  · show Locks (fs'.icache inum).locked k.off _ (update k.procs p _)
    rw [isLocked]
    refine .inside others rfl ?_
    rw [joined_append, List.length_append, Call.length_chunk (Nat.le_of_lt more)]
    simp only [Position.pending] at held ⊢
    omega
  · intro q
    simp only [Kernel.goto]
    induction q using update_cases with
    | own => exact ⟨rfl, sound.write more⟩
    | others q same =>
      -- another call: the chunk is none of its pieces
      refine (inv.proper q).frame (fun _ _ _ made => made) fun other isCall => ?_
      apply piecesOf_append_of_ne
      intro equal
      apply same
      apply inv.distinct q p call.number ?_ number
      rw [Position.number?, isCall, Option.map_some, equal]
  · intro first second shared
    simp only [Kernel.goto, numbers]
    exact inv.distinct first second shared
  · intro shared src made
    simp only [Kernel.goto, numbers]
    rcases inv.finished shared src made with under | ⟨result, pieces⟩
    · exact .inl under
    · by_cases same : shared = call.number
      · exact .inl ⟨p, by rw [same]; exact number⟩
      · exact .inr ⟨result, by rw [piecesOf_append_of_ne _ _ same, pieces]⟩
  · intro piece mem
    rcases List.mem_append.mp mem with earlier | new
    · exact inv.known piece earlier
    · rw [List.mem_singleton.mp new]
      exact (List.getElem?_eq_some_iff.mp sound.1).1

theorem write (inv : Inv inum k) (within : k.total ≤ maxFile * bsize)
    (locked : k.procs p = .locked call) (taken : k.write inum p call = some k') :
    Inv inum k' := by
  obtain ⟨isLocked, _, _, session⟩ := inv.holding locked rfl
  simp only [Kernel.write] at taken
  split at taken
  · cases taken
  · rename_i ip copy
    split at taken
    · cases taken
    · rename_i r fs' ip' ok
      obtain ⟨rfl, dip', stored, type, bytes⟩ := inv.writei_appends within locked copy ok
      obtain rfl := some.inj taken
      refine inv.append locked (session.stored mem_cons_self stored) ?_ ?_
        ⟨dip', ?_, type, bytes⟩
      · simpa [Kernel.goto, FileSystem.setEntry, stored.icache] using isLocked
      · simpa [Kernel.goto, FileSystem.setEntry, stored.icache] using inv.ref
      · simp [Kernel.goto, FileSystem.setEntry, stored.dinodes]

/-! ### The ends of a call -/

theorem ret (inv : Inv inum k) (atLoop : k.procs p = .loop call)
    (last : ¬ call.i < call.src.length) :
    Inv inum (k.ret p call (if call.i = call.src.length then some call.src.length else none)) := by
  obtain ⟨made, bound, pieces⟩ := inv.proper_at atLoop
  have all : call.i = call.src.length := by omega
  rw [if_pos all]
  have whole : piecesOf k.written call.number = chunks maxChunk call.src := by
    rwa [all, drop_length, chunks_nil, append_nil] at pieces
  have number : (k.procs p).number? = some call.number := by rw [atLoop]; rfl
  have under : ∀ q shared, (update k.procs p .idle q).number? = some shared →
      (k.procs q).number? = some shared := by
    intro q shared isShared
    induction q using update_cases with
    | own => cases isShared
    | others q _ => exact isShared
  refine
    { session := inv.session
      ref := inv.ref
      file := inv.file
      locks := inv.locks.outside (by rw [atLoop]; rfl) rfl
      proper := ?_
      distinct := ?_
      finished := ?_
      known := inv.known }
  · intro q
    simp only [Kernel.ret, Kernel.goto]
    induction q using update_cases with
    | own => trivial
    | others q _ => exact inv.proper q
  · intro first second shared isFirst isSecond
    exact inv.distinct first second shared (under first shared isFirst)
      (under second shared isSecond)
  · intro shared src madeShared
    simp only [Kernel.ret, Kernel.goto] at madeShared ⊢
    by_cases same : shared = call.number
    · subst same
      obtain rfl : call.src = src := some.inj (made.symm.trans madeShared)
      exact .inr ⟨update_self .., whole⟩
    · rcases inv.finished shared src madeShared with ⟨q, isShared⟩ | ⟨result, done⟩
      · have different : q ≠ p := by
          rintro rfl
          exact same (some.inj (isShared.symm.trans number))
        exact .inl ⟨q, by rw [update_of_ne different]; exact isShared⟩
      · exact .inr ⟨by rw [update_of_ne same]; exact result, done⟩

theorem start (inv : Inv inum k) (idle : k.procs p = .idle) (src : List UInt8) :
    Inv inum { k.goto p (.loop ⟨k.calls.length, src, 0⟩) with calls := k.calls ++ [src] } := by
  generalize isNew : (⟨k.calls.length, src, 0⟩ : Call) = new
  have newNumber : new.number = k.calls.length := by rw [← isNew]
  -- the calls under way have smaller numbers
  have smaller : ∀ q shared, (k.procs q).number? = some shared → shared < k.calls.length := by
    intro q shared isShared
    obtain ⟨other, isCall, same⟩ := Option.map_eq_some_iff.mp isShared
    rw [← same]
    exact (List.getElem?_eq_some_iff.mp ((inv.proper q).made isCall).1).1
  refine
    { session := inv.session
      ref := inv.ref
      file := inv.file
      locks := inv.locks.outside (by rw [idle]; rfl) rfl
      proper := ?_
      distinct := ?_
      finished := ?_
      known := ?_ }
  · intro q
    simp only [Kernel.goto]
    induction q using update_cases with
    | own =>
      refine ⟨?_, ?_, ?_⟩
      · rw [← isNew]
        simp
      · rw [← isNew]
        exact Nat.zero_le _
      · have nothing : piecesOf k.written new.number = [] := by
          apply piecesOf_eq_nil
          intro piece mem
          have known := inv.known piece mem
          omega
        rw [nothing, ← isNew]
        rfl
    | others q _ =>
      refine (inv.proper q).frame (fun other isCall made earlier => ?_) fun _ _ => rfl
      rw [List.getElem?_append_left (List.getElem?_eq_some_iff.mp earlier).1]
      exact earlier
  · intro first second shared isFirst isSecond
    simp only [Kernel.goto] at isFirst isSecond
    by_cases firstIsP : first = p <;> by_cases secondIsP : second = p
    · rw [firstIsP, secondIsP]
    · rw [firstIsP, update_self] at isFirst
      rw [update_of_ne secondIsP] at isSecond
      have bound := smaller second shared isSecond
      have equal : new.number = shared := Option.some.inj isFirst
      omega
    · rw [secondIsP, update_self] at isSecond
      rw [update_of_ne firstIsP] at isFirst
      have bound := smaller first shared isFirst
      have equal : new.number = shared := Option.some.inj isSecond
      omega
    · rw [update_of_ne firstIsP] at isFirst
      rw [update_of_ne secondIsP] at isSecond
      exact inv.distinct first second shared isFirst isSecond
  · intro shared bytes made
    simp only [Kernel.goto] at made ⊢
    by_cases earlier : shared < k.calls.length
    · rw [List.getElem?_append_left earlier] at made
      rcases inv.finished shared bytes made with ⟨q, isShared⟩ | done
      · have different : q ≠ p := by
          rintro rfl
          rw [idle] at isShared
          cases isShared
        exact .inl ⟨q, by rw [update_of_ne different]; exact isShared⟩
      · exact .inr done
    · have bound := (List.getElem?_eq_some_iff.mp made).1
      rw [List.length_append, List.length_singleton] at bound
      have isLast : new.number = shared := by omega
      exact .inl ⟨p, by rw [update_self, ← isLast]; rfl⟩
  · intro piece mem
    have known := inv.known piece mem
    rw [List.length_append]
    omega

/-! ## Runs -/

theorem run (inv : Inv inum k) (within : k.total ≤ maxFile * bsize)
    (taken : k.run inum p = some k') : Inv inum k' := by
  unfold Kernel.run at taken
  cases located : k.procs p with
  | idle =>
    rw [located] at taken
    cases taken
  | loop call =>
    rw [located] at taken
    simp only at taken
    split at taken
    · rename_i more
      obtain rfl := some.inj taken
      exact inv.goto located rfl ⟨more, inv.proper_at located⟩ rfl rfl
    · rename_i last
      obtain rfl := some.inj taken
      exact inv.ret located last
  | begun call =>
    rw [located] at taken
    obtain ⟨unlocked, taken⟩ := ite_none_left_eq_some.mp taken
    split at taken
    · rename_i fs' ok
      obtain rfl := some.inj taken
      exact inv.ilock located (by simpa using unlocked) ok
    · cases taken
  | locked call =>
    rw [located] at taken
    exact inv.write within located taken
  | wrote call r =>
    rw [located] at taken
    obtain rfl := (inv.proper_at located).1
    obtain rfl := some.inj taken
    exact inv.advance located
  | advanced call r =>
    rw [located] at taken
    obtain rfl := some.inj taken
    exact inv.iunlock located
  | unlocked call r =>
    rw [located] at taken
    obtain rfl := some.inj taken
    exact inv.goto located rfl (inv.proper_at located :) rfl rfl
  | ended call r =>
    rw [located] at taken
    obtain ⟨rfl, sound⟩ := inv.proper_at located
    simp only [if_true] at taken
    obtain rfl := some.inj taken
    exact inv.goto located rfl sound rfl rfl

omit [DecidableEq Pid] in
theorem initial (start : Initial inum k) : Inv inum k := by
  obtain ⟨consistent, marked, off, procs, calls, results, written, ref, unlocked, dip, entry, type,
    size⟩ := start
  have nobody : ∀ p, (k.procs p).holds = false := fun p => by rw [procs p]; rfl
  have noNumber : ∀ p number, (k.procs p).number? ≠ some number := fun p number => by
    rw [procs p]
    nofun
  refine
    { session := ?_
      ref := ref
      file := ⟨dip, entry, type, ?_⟩
      locks := .of_nobody nobody (by rw [off, written]; rfl)
      proper := fun p => by rw [procs p]; trivial
      distinct := fun p _ number isCall => absurd isCall (noNumber p number)
      finished := ?_
      known := ?_ }
  · simp only [Kernel.session, unlocked, Bool.false_eq_true, if_false]
    exact consistent.sessionInv marked
  · rw [written, contents, size]
    rfl
  · intro number src made
    rw [calls] at made
    cases made
  · intro piece mem
    rw [written] at mem
    cases mem

end Inv

variable [DecidableEq Pid] {k : Kernel Pid}

theorem total_le_of_step {k k' : Kernel Pid} {label : Label Pid}
    (taken : (system inum).step k label = some k') : k.total ≤ k'.total := by
  cases label with
  | call p src =>
    simp only [system, Kernel.call] at taken
    split at taken
    · obtain rfl := Option.some.inj taken
      simp [Kernel.total]
    · cases taken
  | run p =>
    have same : k'.calls = k.calls := by
      simp only [system, Kernel.run, Kernel.write] at taken
      repeat' split at taken
      all_goals first
        | (cases taken; rfl)
        | cases taken
    rw [Kernel.total, Kernel.total, same]

theorem inv_of_reachable (reachable : (system inum).Reachable k)
    (within : k.total ≤ maxFile * bsize) : Inv inum k := by
  induction reachable with
  | init start => exact .initial start
  | @step k k' label _ _ taken ih =>
    have earlier := le_trans (total_le_of_step taken) within
    have inv := ih earlier
    cases label with
    | call p src =>
      simp only [system, call] at taken
      split at taken
      · rename_i idle
        obtain rfl := some.inj taken
        exact inv.start idle src
      · cases taken
    | run p => exact inv.run earlier taken

/-- When all calls have returned and their bytes fit in a file, every call has returned its
length, the size of the file and `off` are the sum of the lengths, and the contents
interleave the calls' chunks. -/
theorem shared_writes (reachable : (system inum).Reachable k)
    (returned : ∀ p, k.procs p = .idle) (within : k.total ≤ maxFile * bsize) :
    k.off = k.total ∧
    (∀ number src, k.calls[number]? = some src → k.results number = some (some src.length)) ∧
    ∃ dip, k.fs.dinodes inum = some dip ∧ dip.size = k.total ∧
      ∃ pieces : Pieces UInt8, contents k.fs.blocks dip = joined pieces ∧
        (∀ piece ∈ pieces, piece.1 < k.calls.length ∧ piece.2.length ≤ maxChunk) ∧
        ∀ number src, k.calls[number]? = some src →
          piecesOf pieces number = chunks maxChunk src ∧
          (piecesOf pieces number).flatten = src ∧
          (src.length ≤ maxChunk → ∃ before after,
            contents k.fs.blocks dip = before ++ src ++ after) := by
  have inv := inv_of_reachable reachable within
  -- no call is under way, so every call has finished
  have done : ∀ number src, k.calls[number]? = some src →
      k.results number = some (some src.length) ∧
        piecesOf k.written number = chunks maxChunk src := by
    intro number src made
    rcases inv.finished number src made with ⟨p, under⟩ | finished
    · rw [returned p] at under
      cases under
    · exact finished
  have nobody : ∀ p, (k.procs p).holds = false := fun p => by rw [returned p]; rfl
  have length : (joined k.written).length = k.total := by
    rw [length_joined k.written inv.known, total_eq_sum]
    apply Finset.sum_congr rfl
    intro number mem
    have made := List.getElem?_eq_getElem (Finset.mem_range.mp mem)
    rw [(done number _ made).2, flatten_chunks maxChunk_pos, getD_eq_getElem?_getD, made,
      getD_some]
  obtain ⟨dip, entry, _, bytes⟩ := inv.file
  refine ⟨?_, fun number src made => (done number src made).1, dip, entry, ?_, k.written, bytes,
    ?_, ?_⟩
  · rw [inv.locks.settled nobody, length]
  · rw [← contents_length k.fs.blocks dip, bytes, length]
  · intro piece mem
    have known := inv.known piece mem
    have inChunks : piece.2 ∈ chunks maxChunk k.calls[piece.1] := by
      rw [← (done piece.1 _ (getElem?_eq_getElem known)).2]
      exact mem_piecesOf mem
    exact ⟨known, length_le_of_mem_chunks maxChunk_pos inChunks⟩
  · intro number src made
    have pieces := (done number src made).2
    refine ⟨pieces, by rw [pieces, flatten_chunks maxChunk_pos], fun short => ?_⟩
    by_cases empty : src = []
    · exact ⟨contents k.fs.blocks dip, [], by simp [empty]⟩
    · rw [chunks_of_le maxChunk_pos empty short] at pieces
      rw [bytes]
      exact contiguous pieces

/-- Two processes share an entry for the empty file of `freshDisk`. -/
def twoWriters : Kernel Bool where
  fs := freshDisk (· < Mkfs.nmeta)
  off := 0
  procs _ := .idle
  calls := []
  results _ := none
  written := []

theorem initial_twoWriters : Initial 1 twoWriters :=
  ⟨freshDisk_marked_consistent, fun _ below => decide_eq_true below, rfl, fun _ => rfl, rfl,
    fun _ => rfl, rfl, by decide, rfl, ⟨_, rfl, rfl, rfl⟩⟩

/-- One process calls while the other is in its critical section. -/
def crossing : List (Label Bool) :=
  [.call true [1, 2], .run true, .run true, .run true, .call false [3], .run false] ++
    List.replicate 5 (.run true) ++ List.replicate 7 (.run false)

theorem crossing_writes_both : ∃ k : Kernel Bool, (system 1).Reachable k ∧
    k.calls = [[1, 2], [3]] ∧ k.off = 3 ∧
    ∃ dip, k.fs.dinodes 1 = some dip ∧ ∃ before after,
      contents k.fs.blocks dip = before ++ [1, 2] ++ after := by
  have ran : ∃ k ∈ (system 1).runWhen (fun _ _ => True) twoWriters crossing,
      (∀ p, k.procs p = .idle) ∧ k.calls = [[1, 2], [3]] := by decide +kernel
  obtain ⟨k, reachable, returned, calls⟩ :=
    System.ReachableWhen.exists_of_runWhen (.init initial_twoWriters) ran
  have total : k.total = 3 := by rw [Kernel.total, calls]; rfl
  obtain ⟨off, _, dip, entry, _, _, _, _, each⟩ :=
    shared_writes reachable returned (by rw [total]; decide)
  refine ⟨k, reachable, calls, by rw [off, total], dip, entry, ?_⟩
  exact (each 0 [1, 2] (by rw [calls]; rfl)).2.2 (by decide)

end Laboratorio.Xv6.SharedFile
