import Laboratorio.Xv6.Console.Model

/-! # The line discipline

`Layout` says where the characters are: the committed ones from `r` to `w`, the current line
from `w` to `e`.  While somebody holds `cons.lock` the buffer may be a part of a change ahead of
the session, and `Frame.Fits` says by what: a line that is being killed has lost some of its
end, a character has been stored and not been tested yet, or a reader has one in its hand.
-/

namespace Laboratorio.Xv6.Console

open Laboratorio.Lib Function

variable {input : Input} {session : Session} {frame : Frame} {pos : IntrAt}

theorem inputBuf_dvd : inputBuf ∣ 2 ^ 32 := by decide

theorem inputBuf_lt : inputBuf < 2 ^ 32 := by decide

/-! ## Sessions -/

namespace Session

/-- Readers have got the committed characters in their order, `^D`s apart. -/
structure Fine (session : Session) : Prop where
  consumed : session.consumed ≤ session.committed.length
  delivered : session.delivered = (session.committed.take session.consumed).filter (· ≠ eof)
  line : newline ∉ session.line

variable {session : Session} {c : UInt8} {rest : List UInt8}

theorem queue_commit (fine : session.Fine) (more : List UInt8) :
    (session.committed ++ more).drop session.consumed = session.queue ++ more := by
  rw [List.drop_append_of_le_length fine.consumed]
  rfl

theorem Fine.commit (fine : session.Fine) (more : List UInt8) :
    Fine { session with committed := session.committed ++ more, line := [] } := by
  have consumed := fine.consumed
  constructor
  · simp only [List.length_append]
    omega
  · rw [fine.delivered]
    rw [List.take_append_of_le_length consumed]
  · exact List.not_mem_nil

theorem Fine.setLine (fine : session.Fine) {line : List UInt8} (noNewline : newline ∉ line) :
    Fine { session with line } :=
  ⟨fine.consumed, fine.delivered, noNewline⟩

theorem Fine.append (fine : session.Fine) (c : UInt8) : (session.append c).Fine := by
  unfold Session.append
  split
  · exact fine.commit _
  · rename_i inLine
    apply fine.setLine
    simp only [List.mem_append, List.mem_singleton, not_or]
    exact ⟨fine.line, fun isNewline => inLine (.inl isNewline.symm)⟩

theorem Fine.type (fine : session.Fine) (c : UInt8) : (session.type c).Fine := by
  unfold Session.type
  split
  · exact fine
  split
  · exact fine.setLine List.not_mem_nil
  split
  · exact fine.setLine fun inLine => fine.line (List.dropLast_subset _ inLine)
  split
  · exact fine.append _
  · exact fine

theorem consumed_lt (next : session.queue = c :: rest) :
    session.consumed < session.committed.length := by
  have length := congrArg List.length next
  simp only [queue, List.length_drop, List.length_cons] at length
  omega

theorem take_consumed (next : session.queue = c :: rest) :
    session.committed.take (session.consumed + 1) =
      session.committed.take session.consumed ++ [c] := by
  have first : session.committed[session.consumed]? = some c := by
    rw [← List.head?_drop]
    show session.queue.head? = some c
    rw [next]
    rfl
  rw [List.take_add_one, first]
  rfl

theorem queue_consumed (next : session.queue = c :: rest) :
    session.committed.drop (session.consumed + 1) = rest := by
  rw [← List.drop_drop]
  show session.queue.drop 1 = rest
  rw [next]
  rfl

theorem Fine.deliver (fine : session.Fine) (next : session.queue = c :: rest) (text : c ≠ eof) :
    (session.deliver c).Fine := by
  refine ⟨consumed_lt next, ?_, fine.line⟩
  show session.delivered ++ [c] = (session.committed.take (session.consumed + 1)).filter _
  have kept : [c].filter (· ≠ eof) = [c] := List.filter_cons_of_pos (decide_eq_true text)
  rw [take_consumed next, List.filter_append, ← fine.delivered, kept]

theorem Fine.discard (fine : session.Fine) (next : session.queue = eof :: rest) :
    session.discard.Fine := by
  refine ⟨consumed_lt next, ?_, fine.line⟩
  show session.delivered = (session.committed.take (session.consumed + 1)).filter _
  rw [take_consumed next, List.filter_append, ← fine.delivered]
  exact (List.append_nil _).symm

end Session

/-! ## Where the characters are -/

structure Layout (input : Input) (base : UInt32) (queue line : List UInt8) : Prop where
  ring : Ring.Holds input.buf base input.e (queue ++ line)
  write : input.w = base + UInt32.ofNat queue.length

namespace Layout

variable {input : Input} {base : UInt32} {queue line : List UInt8} {c : UInt8}

section

variable (layout : Layout input base queue line)
include layout

theorem fits : queue.length + line.length ≤ inputBuf := by
  rw [← List.length_append]
  exact layout.ring.fits

theorem committed : Ring.Holds input.buf base input.w queue := by
  rw [layout.write]
  exact layout.ring.older

theorem sizes :
    (input.w - base).toNat = queue.length ∧
      (input.e - base).toNat = queue.length + line.length := by
  refine ⟨layout.committed.size inputBuf_lt, ?_⟩
  rw [layout.ring.size inputBuf_lt, List.length_append]

theorem edit_eq_iff : input.e = input.w ↔ line = [] := by
  have sizes := layout.sizes
  constructor
  · intro same
    rw [same] at sizes
    exact List.length_eq_zero_iff.mp (by omega)
  · rintro rfl
    rw [layout.ring.counters, List.append_nil, layout.write]

end

theorem erase (layout : Layout input base queue (line ++ [c])) :
    Layout { input with e := input.e - 1 } base queue line := by
  have ring := layout.ring
  rw [← List.append_assoc] at ring
  exact ⟨ring.unpush, layout.write⟩

theorem last (layout : Layout input base queue (line ++ [c])) :
    input.buf (Ring.slot inputBuf (input.e - 1)) = c := by
  have ring := layout.ring
  rw [← List.append_assoc] at ring
  exact ring.last

theorem store (layout : Layout input base queue line)
    (room : queue.length + line.length < inputBuf) (c : UInt8) :
    Layout { input with
      buf := update input.buf (Ring.slot inputBuf input.e) c
      e := input.e + 1 } base queue (line ++ [c]) := by
  rw [← List.length_append] at room
  have ring := layout.ring.push inputBuf_dvd room c
  rw [List.append_assoc] at ring
  exact ⟨ring, layout.write⟩

theorem commit (layout : Layout input base queue line) :
    Layout { input with w := input.e } base (queue ++ line) [] := by
  refine ⟨?_, layout.ring.counters⟩
  rw [List.append_nil]
  exact layout.ring

theorem pop (layout : Layout input base (c :: queue) line) :
    Layout input (base + 1) queue line := by
  refine ⟨layout.ring.pop, ?_⟩
  exact layout.committed.pop.counters

end Layout

/-! ## Who holds the lock, and what it is doing -/

def Frame.holds : Frame → Bool
  | .idle => false
  | .intr pos => !(pos matches .acquire)
  | .read _ _ _ pos => !(pos matches .acquire | .asleep | .returns _)

/-- The characters that belong to the text. -/
structure Plain (c : UInt8) : Prop where
  notListing : c ≠ listing
  notKill : c ≠ killLine
  notBackspace : isBackspace c = false
  notNul : c ≠ 0

def Frame.Fits (input : Input) (session : Session) : Frame → Prop
  | .intr .kill => ∃ line, line <+: session.line ∧ Layout input input.r session.queue line
  | .intr (.commit typed) =>
    Plain typed ∧ session.held < inputBuf ∧
      Layout input input.r session.queue (session.line ++ [translate typed])
  | .read _ _ _ .take =>
    Layout input input.r session.queue session.line ∧ input.r ≠ input.w
  | .read _ _ _ (.got c) =>
    (∃ rest, session.queue = c :: rest) ∧ Layout input (input.r - 1) session.queue session.line
  | _ => Layout input input.r session.queue session.line

theorem Frame.Fits.layout
    (fits : frame.Fits input session) : ∃ queue line, Layout input input.r queue line := by
  cases frame with
  | idle => exact ⟨_, _, fits⟩
  | intr pos =>
    cases pos with
    | kill =>
      obtain ⟨line, -, layout⟩ := fits
      exact ⟨_, line, layout⟩
    | commit c => exact ⟨_, _, fits.2.2⟩
    | _ => exact ⟨_, _, fits⟩
  | read target n dst pos =>
    cases pos with
    | take => exact ⟨_, _, fits.1⟩
    | got c =>
      obtain ⟨⟨rest, isNext⟩, layout⟩ := fits
      rw [isNext] at layout
      have popped := layout.pop
      rw [UInt32.sub_add_cancel] at popped
      exact ⟨rest, _, popped⟩
    | _ => exact ⟨_, _, fits⟩

/-- What a reader has counted. -/
def Frame.Counts : Frame → Prop
  | .read target n dst pos =>
    n = target - dst.length ∧
      match pos with
      | .whileEmpty => 0 < n
      | .sleep => 0 < n
      | .asleep => 0 < n
      | .take => 0 < n
      | .got _ => 0 < n
      | .release result => result = -1 ∨ result = dst.length
      | .returns result => result = -1 ∨ result = dst.length
      | _ => True
  | _ => True

section

variable {Agent : Type}

structure Inv (k : Kernel Agent) : Prop where
  holder : ∀ a, (k.frames a).holds = true ↔ k.lock = some a
  session : k.session.Fine
  free : k.lock = none → Layout k.input k.input.r k.session.queue k.session.line
  fits : ∀ a, k.lock = some a → (k.frames a).Fits k.input k.session
  counts : ∀ a, (k.frames a).Counts

variable [DecidableEq Agent] {k next : Kernel Agent} {a : Agent} {label : Label Agent}

section

variable (inv : Inv k)
include inv

theorem Inv.counts_update (counts : frame.Counts) (b : Agent) :
    (update k.frames a frame b).Counts := by
  induction b using update_cases with
  | own => exact counts
  | others b _ => exact inv.counts b

theorem Inv.works (held : k.lock = some a)
    (frame : Frame) (fine : session.Fine) (holds : frame.holds = true)
    (fits : frame.Fits input session) (counts : frame.Counts) :
    Inv ({ k with input, session }.goto a frame) := by
  constructor <;> simp [Kernel.goto]
  case holder =>
    intro b
    induction b using update_cases with
    | own => exact iff_of_true holds held
    | others b _ => exact inv.holder b
  case session => exact fine
  case free =>
    intro free
    rw [held] at free
    cases free
  case fits =>
    intro b isHolder
    obtain rfl : a = b := Option.some.inj (held.symm.trans isHolder)
    rw [update_self]
    exact fits
  case counts => exact inv.counts_update counts

theorem Inv.acquires (frame : Frame) (holds : frame.holds = true)
    (fits : Layout k.input k.input.r k.session.queue k.session.line → frame.Fits k.input k.session)
    (counts : frame.Counts) (taken : k.acquire a frame = some next) : Inv next := by
  obtain ⟨free, rfl⟩ := of_guard taken
  constructor <;> simp only [Kernel.goto]
  case holder =>
    intro b
    induction b using update_cases with
    | own => exact iff_of_true holds rfl
    | others b same =>
      rw [inv.holder b, free]
      exact iff_of_false nofun fun isB => same (Option.some.inj isB).symm
  case session => exact inv.session
  case free => nofun
  case fits =>
    intro b isHolder
    obtain rfl : a = b := Option.some.inj isHolder
    rw [update_self]
    exact fits (inv.free free)
  case counts => exact inv.counts_update counts

theorem Inv.releases (held : k.lock = some a)
    (layout : Layout k.input k.input.r k.session.queue k.session.line)
    (outside : frame.holds = false) (counts : frame.Counts) : Inv (k.release a frame) := by
  constructor <;> simp only [Kernel.release, Kernel.goto]
  case holder =>
    intro b
    by_cases same : b = a
    · subst same
      rw [update_self, outside]
      exact iff_of_false Bool.false_ne_true nofun
    · rw [update_of_ne same, inv.holder b, held]
      exact iff_of_false (fun isB => same (Option.some.inj isB).symm) nofun
  case session => exact inv.session
  case free => exact fun _ => layout
  case fits => nofun
  case counts => exact inv.counts_update counts

theorem Inv.outside (before : (k.frames a).holds = false)
    (after : frame.holds = false) (counts : frame.Counts) : Inv (k.goto a frame) := by
  have notHolder : k.lock ≠ some a := by
    rw [Ne, ← inv.holder a, before]
    exact Bool.false_ne_true
  constructor <;> simp only [Kernel.goto]
  case holder =>
    intro b
    induction b using update_cases with
    | own =>
      rw [after]
      exact iff_of_false Bool.false_ne_true notHolder
    | others b _ => exact inv.holder b
  case session => exact inv.session
  case free => exact inv.free
  case fits =>
    intro b isHolder
    have different : b ≠ a := fun same => notHolder (same ▸ isHolder)
    rw [update_of_ne different]
    exact inv.fits b isHolder
  case counts => exact inv.counts_update counts

/-! ## Steps -/

theorem Inv.nextChar (held : k.lock = some a) (typed : UInt8)
    (layout : Layout input input.r (k.session.type typed).queue (k.session.type typed).line) :
    Inv ({ k with input }.nextChar a typed) :=
  inv.works held (.intr .getc) (inv.session.type typed) rfl layout trivial

theorem typed_inv (here : k.frames a = .intr .getc) (c : UInt8) : Inv (k.typed a c) := by
  have held : k.lock = some a := (inv.holder a).mp (by rw [here]; rfl)
  have layout : Layout k.input k.input.r k.session.queue k.session.line := by
    have fits := inv.fits a held
    rwa [here] at fits
  obtain ⟨-, size⟩ := layout.sizes
  have room : k.input.e - k.input.r < UInt32.ofNat inputBuf ↔ k.session.held < inputBuf := by
    rw [UInt32.lt_iff_toNat_lt, size]
    rfl
  unfold Kernel.typed
  dsimp only
  split
  · rename_i isListing
    apply inv.nextChar held c
    rw [Session.type, if_pos isListing]
    exact layout
  split
  · exact inv.works held (.intr .kill) inv.session rfl ⟨_, List.prefix_refl _, layout⟩ trivial
  split
  · rename_i notListing notKill backspace
    have erased : k.session.type c = { k.session with line := k.session.line.dropLast } := by
      rw [Session.type, if_neg notListing, if_neg notKill, if_pos backspace]
    split
    · rename_i uncommitted
      have some_line : k.session.line ≠ [] := fun none => uncommitted (layout.edit_eq_iff.mpr none)
      apply inv.nextChar held c
      rw [erased]
      rw [← List.dropLast_concat_getLast some_line] at layout
      exact layout.erase
    · rename_i committed
      have no_line : k.session.line = [] := layout.edit_eq_iff.mp (not_not.mp committed)
      apply inv.nextChar held c
      rw [erased]
      rw [no_line] at layout ⊢
      exact layout
  split
  · rename_i notListing notKill notBackspace stores
    obtain ⟨notNul, small⟩ := stores
    have small := room.mp small
    apply inv.works held (.intr (.commit c)) inv.session rfl _ trivial
    exact ⟨⟨notListing, notKill, Bool.eq_false_iff.mpr notBackspace, notNul⟩, small,
      layout.store small _⟩
  · rename_i notListing notKill notBackspace ignored
    apply inv.nextChar held c
    rw [Session.type, if_neg notListing, if_neg notKill, if_neg notBackspace,
      if_neg (by rwa [← room])]
    exact layout

theorem consoleintr_inv (here : k.frames a = .intr pos)
    (taken : k.consoleintr a pos = some next) : Inv next := by
  have holder := inv.holder a
  have fits := inv.fits a
  rw [here] at holder fits
  cases pos with
  | acquire => exact inv.acquires (.intr .getc) rfl (fun layout => layout) trivial taken
  | getc => cases taken
  | kill =>
    have held : k.lock = some a := holder.mp rfl
    obtain ⟨line, isPrefix, layout⟩ := fits held
    simp only [Kernel.consoleintr] at taken
    split at taken
    · rename_i more
      cases taken
      have some_line : line ≠ [] := fun none => more.1 (layout.edit_eq_iff.mpr none)
      apply inv.works held (.intr .kill) inv.session rfl _ trivial
      refine ⟨line.dropLast, (List.dropLast_prefix line).trans isPrefix, ?_⟩
      rw [← List.dropLast_concat_getLast some_line] at layout
      exact layout.erase
    · rename_i ended
      cases taken
      -- the line has no newline that could stop the loop before its beginning
      have no_line : line = [] := by
        by_contra some_line
        apply ended
        refine ⟨fun same => some_line (layout.edit_eq_iff.mp same), ?_⟩
        have inLine := isPrefix.subset (List.getLast_mem some_line)
        rw [← List.dropLast_concat_getLast some_line] at layout
        rw [layout.last]
        intro isNewline
        exact inv.session.line (isNewline ▸ inLine)
      rw [no_line] at layout
      exact inv.nextChar held killLine layout
  | commit c =>
    have held : k.lock = some a := holder.mp rfl
    obtain ⟨plain, small, layout⟩ := fits held
    have appended : k.session.type c = k.session.append (translate c) := by
      rw [Session.type, if_neg plain.notListing, if_neg plain.notKill,
        if_neg (by rw [plain.notBackspace]; exact Bool.false_ne_true),
        if_pos ⟨plain.notNul, small⟩]
    have full : k.input.e = k.input.r + UInt32.ofNat inputBuf ↔
        k.session.held + 1 = inputBuf := by
      rw [layout.ring.full_iff inputBuf_lt]
      simp [Session.held, Nat.add_assoc]
    simp only [Kernel.consoleintr, full] at taken
    split at taken
    · rename_i commits
      cases taken
      apply inv.nextChar held c
      rw [appended, Session.append, if_pos commits, Session.queue,
        Session.queue_commit inv.session]
      exact layout.commit
    · rename_i stays
      cases taken
      apply inv.nextChar held c
      rw [appended, Session.append, if_neg stays]
      exact layout
  | release =>
    have held : k.lock = some a := holder.mp rfl
    cases taken
    exact inv.releases held (fits held) rfl trivial

theorem consoleread_inv {killed : Bool} {target n : Int} {dst : List UInt8}
    {pos : ReadAt} (here : k.frames a = .read target n dst pos)
    (taken : k.consoleread a killed target n dst pos = some next) : Inv next := by
  have holder := inv.holder a
  have fits := inv.fits a
  have counts := inv.counts a
  rw [here] at holder fits counts
  obtain ⟨count, counts⟩ := counts
  cases pos with
  | acquire =>
    exact inv.acquires (.read target n dst .loop) rfl (fun layout => layout) ⟨count, trivial⟩ taken
  | loop =>
    have held : k.lock = some a := holder.mp rfl
    simp only [Kernel.consoleread] at taken
    split at taken
    · rename_i more
      cases taken
      exact inv.works held _ inv.session rfl (fits held) ⟨count, more⟩
    · cases taken
      exact inv.works held _ inv.session rfl (fits held) ⟨count, .inr (by omega)⟩
  | whileEmpty =>
    have held : k.lock = some a := holder.mp rfl
    simp only [Kernel.consoleread] at taken
    split at taken
    · split at taken
      · cases taken
        exact inv.works held _ inv.session rfl (fits held) ⟨count, .inl rfl⟩
      · cases taken
        exact inv.works held _ inv.session rfl (fits held) ⟨count, counts⟩
    · rename_i notEmpty
      cases taken
      exact inv.works held (.read target n dst .take) inv.session rfl ⟨fits held, notEmpty⟩
        ⟨count, counts⟩
  | sleep =>
    have held : k.lock = some a := holder.mp rfl
    cases taken
    exact inv.releases held (fits held) rfl ⟨count, counts⟩
  | asleep =>
    exact inv.acquires (.read target n dst .whileEmpty) rfl (fun layout => layout)
      ⟨count, counts⟩ taken
  | take =>
    have held : k.lock = some a := holder.mp rfl
    obtain ⟨layout, notEmpty⟩ := fits held
    have some_char : k.session.queue ≠ [] := by
      rw [Ne, ← layout.committed.empty_iff inputBuf_lt]
      exact notEmpty
    obtain ⟨c, rest, isNext⟩ := List.exists_cons_of_ne_nil some_char
    have isHead : k.input.buf (Ring.slot inputBuf k.input.r) = c := by
      have committed := layout.committed
      rw [isNext] at committed
      exact committed.head
    cases taken
    rw [isHead]
    apply inv.works held (.read target n dst (.got c)) inv.session rfl _ ⟨count, counts⟩
    refine ⟨⟨rest, isNext⟩, ?_⟩
    rw [UInt32.add_sub_cancel]
    exact ⟨layout.ring, layout.write⟩
  | got c =>
    have held : k.lock = some a := holder.mp rfl
    obtain ⟨⟨rest, isNext⟩, layout⟩ := fits held
    have left : Layout k.input k.input.r rest k.session.line := by
      rw [isNext] at layout
      have popped := layout.pop
      rwa [UInt32.sub_add_cancel] at popped
    simp only [Kernel.consoleread] at taken
    split at taken
    · rename_i isEof
      subst isEof
      split at taken
      · cases taken
        exact inv.works held (.read target n dst (.release (target - n))) inv.session rfl
          ⟨layout.ring, layout.write⟩ ⟨count, .inr (by omega)⟩
      · cases taken
        apply inv.works held (.read target n dst (.release (target - n)))
          (inv.session.discard isNext) rfl _ ⟨count, .inr (by omega)⟩
        show Layout k.input k.input.r (k.session.committed.drop (k.session.consumed + 1)) _
        rw [Session.queue_consumed isNext]
        exact left
    · rename_i text
      cases taken
      have delivered : Layout k.input k.input.r (k.session.deliver c).queue
          (k.session.deliver c).line := by
        show Layout k.input k.input.r (k.session.committed.drop (k.session.consumed + 1)) _
        rw [Session.queue_consumed isNext]
        exact left
      have counted : n - 1 = target - (dst ++ [c]).length := by
        rw [List.length_append, List.length_singleton]
        omega
      have fine := inv.session.deliver isNext text
      split
      · exact inv.works held _ fine rfl delivered ⟨counted, .inr (by omega)⟩
      · exact inv.works held _ fine rfl delivered ⟨counted, trivial⟩
  | release result =>
    have held : k.lock = some a := holder.mp rfl
    cases taken
    exact inv.releases held (fits held) rfl ⟨count, counts⟩
  | returns result =>
    cases taken
    exact inv.outside (by rw [here]; rfl) rfl trivial

theorem step_inv (taken : step k label = some next) : Inv next := by
  cases label with
  | interrupt a =>
    obtain ⟨idle, rfl⟩ := of_guard taken
    exact inv.outside (by rw [idle]; rfl) rfl trivial
  | getc a c =>
    obtain ⟨here, taken⟩ := Option.ite_none_right_eq_some.mp taken
    cases c with
    | none =>
      cases taken
      have held : k.lock = some a := (inv.holder a).mp (by rw [here]; rfl)
      have fits := inv.fits a held
      rw [here] at fits
      exact inv.works held (.intr .release) inv.session rfl fits trivial
    | some c =>
      cases taken
      exact typed_inv inv here c
  | call a n =>
    obtain ⟨idle, rfl⟩ := of_guard taken
    exact inv.outside (by rw [idle]; rfl) rfl ⟨(Int.sub_zero n).symm, trivial⟩
  | run a killed =>
    simp only [step] at taken
    split at taken
    · cases taken
    · exact consoleintr_inv inv ‹_› taken
    · exact consoleread_inv inv ‹_› taken

end

omit [DecidableEq Agent] in
theorem inv_initial (initial : Initial k) : Inv k := by
  have empty : Layout k.input k.input.r k.session.queue k.session.line := by
    rw [initial.session, initial.read]
    refine ⟨?_, ?_⟩
    · rw [initial.edit]
      exact Ring.Holds.nil _ _
    · exact (UInt32.add_zero _).symm
  constructor
  case holder =>
    intro a
    rw [initial.idle, initial.lock]
    exact iff_of_false Bool.false_ne_true nofun
  case session =>
    rw [initial.session]
    exact ⟨Nat.le_refl _, rfl, List.not_mem_nil⟩
  case free => exact fun _ => empty
  case fits =>
    intro a held
    rw [initial.lock] at held
    cases held
  case counts =>
    intro a
    rw [initial.idle]
    exact trivial

theorem reachable_inv (reachable : system.Reachable k) : Inv k := by
  refine reachable.invariant inv_initial ?_
  intro state label next _ inv _ taken
  exact step_inv inv taken

/-! ## What the handler leaves alone -/

theorem Session.queue_type (fine : session.Fine) (c : UInt8) :
    session.queue <+: (session.type c).queue := by
  unfold Session.type
  split
  · exact List.prefix_refl _
  split
  · exact List.prefix_refl _
  split
  · exact List.prefix_refl _
  split
  · unfold Session.append
    split
    · show session.queue <+: (session.committed ++ _).drop session.consumed
      rw [Session.queue_commit fine]
      exact List.prefix_append _ _
    · exact List.prefix_refl _
  · exact List.prefix_refl _

/-- The characters from `r` to `w` stay as they are. -/
structure KeepsCommitted (before after : Input) : Prop where
  r : after.r = before.r
  w : (before.w - before.r).toNat ≤ (after.w - after.r).toNat
  cells : ∀ j < (before.w - before.r).toNat,
    after.buf (Ring.slot inputBuf (before.r + UInt32.ofNat j)) =
      before.buf (Ring.slot inputBuf (before.r + UInt32.ofNat j))

theorem KeepsCommitted.of_holds {before after : Input} {queue queue' : List UInt8}
    (r : after.r = before.r) (holds : Ring.Holds before.buf before.r before.w queue)
    (holds' : Ring.Holds after.buf after.r after.w queue') (grows : queue <+: queue') :
    KeepsCommitted before after := by
  have length := grows.length_le
  refine ⟨r, ?_, ?_⟩
  · rw [holds.size inputBuf_lt, holds'.size inputBuf_lt]
    exact length
  · intro j inside
    rw [holds.size inputBuf_lt] at inside
    rw [holds.cells j inside, ← r, holds'.cells j (by omega)]
    exact (grows.getElem inside).symm

omit [DecidableEq Agent] in
theorem Inv.committed_intr (inv : Inv k) (here : k.frames a = .intr pos)
    (held : k.lock = some a) : Ring.Holds k.input.buf k.input.r k.input.w k.session.queue := by
  have fits := inv.fits a held
  rw [here] at fits
  cases pos with
  | kill =>
    obtain ⟨line, -, layout⟩ := fits
    exact layout.committed
  | commit c => exact fits.2.2.committed
  | acquire => exact Layout.committed fits
  | getc => exact Layout.committed fits
  | release => exact Layout.committed fits

theorem typed_frame (k : Kernel Agent) (a : Agent) (c : UInt8) :
    (∃ pos, (k.typed a c).frames a = .intr pos) ∧ (k.typed a c).lock = k.lock ∧
      (k.typed a c).input.r = k.input.r ∧
      ((k.typed a c).session = k.session ∨ (k.typed a c).session = k.session.type c) := by
  unfold Kernel.typed
  dsimp only
  split_ifs
  all_goals
    refine ⟨⟨_, update_self ..⟩, rfl, rfl, ?_⟩
    first | exact .inl rfl | exact .inr rfl

theorem handler_keeps (inv : Inv k)
    (here : k.frames a = .intr pos) (own : (∃ c, label = .getc a c) ∨ ∃ killed, label = .run a killed)
    (taken : step k label = some next) : KeepsCommitted k.input next.input := by
  have same : ∀ input : Input, KeepsCommitted input input :=
    fun _ => ⟨rfl, Nat.le_refl _, fun _ _ => rfl⟩
  have nextInv := step_inv inv taken
  obtain ⟨c, rfl⟩ | ⟨killed, rfl⟩ := own
  · obtain ⟨atGetc, taken⟩ := Option.ite_none_right_eq_some.mp taken
    have held : k.lock = some a := (inv.holder a).mp (by rw [atGetc]; rfl)
    cases c with
    | none =>
      cases taken
      exact same _
    | some c =>
      cases taken
      obtain ⟨⟨pos', after⟩, lock, r, session⟩ := typed_frame k a c
      apply KeepsCommitted.of_holds r (inv.committed_intr here held)
        (nextInv.committed_intr after (lock.trans held))
      obtain session | session := session
      · exact session ▸ List.prefix_refl _
      · rw [session]
        exact Session.queue_type inv.session c
  · simp only [step, here] at taken
    cases pos with
    | acquire =>
      simp only [Kernel.consoleintr, Kernel.acquire, Option.ite_none_right_eq_some,
        Option.some.injEq] at taken
      obtain ⟨-, rfl⟩ := taken
      exact same _
    | getc => cases taken
    | kill =>
      simp only [Kernel.consoleintr] at taken
      split at taken
      · cases taken
        exact ⟨rfl, Nat.le_refl _, fun _ _ => rfl⟩
      · cases taken
        exact same _
    | commit c =>
      have held : k.lock = some a := (inv.holder a).mp (by rw [here]; rfl)
      simp only [Kernel.consoleintr] at taken
      split at taken
      · cases taken
        have atGetc : ({ k with input.w := k.input.e }.nextChar a c).frames a = .intr .getc :=
          update_self ..
        exact KeepsCommitted.of_holds rfl (inv.committed_intr here held)
          (nextInv.committed_intr atGetc held) (Session.queue_type inv.session c)
      · cases taken
        exact same _
    | release =>
      cases taken
      exact same _

/-! ## The discipline -/

/-- No reader is between its `input.r++` and what it does with the character. -/
def Kernel.handsEmpty (k : Kernel Agent) : Prop :=
  ∀ a target n dst c, k.frames a ≠ .read target n dst (.got c)

omit [DecidableEq Agent] in
theorem Inv.counters (inv : Inv k) :
    (k.input.w - k.input.r).toNat ≤ (k.input.e - k.input.r).toNat ∧
      (k.input.e - k.input.r).toNat ≤ inputBuf := by
  have laidOut : ∃ queue line, Layout k.input k.input.r queue line := by
    cases lock : k.lock with
    | none => exact ⟨_, _, inv.free lock⟩
    | some a => exact (inv.fits a lock).layout
  obtain ⟨queue, line, layout⟩ := laidOut
  have sizes := layout.sizes
  have fits := layout.fits
  omega

omit [DecidableEq Agent] in
theorem Inv.committed (inv : Inv k) (handsEmpty : k.handsEmpty) :
    Ring.Holds k.input.buf k.input.r k.input.w k.session.queue := by
  cases lock : k.lock with
  | none => exact (inv.free lock).committed
  | some a =>
    have fits := inv.fits a lock
    rcases here : k.frames a with _ | pos | ⟨target, n, dst, pos⟩
    · rw [here] at fits
      exact Layout.committed fits
    · exact inv.committed_intr here lock
    · rw [here] at fits
      cases pos with
      | take => exact fits.1.committed
      | got c => exact absurd here (handsEmpty a target n dst c)
      | _ => exact Layout.committed fits

/-- A reader that has taken a `^D` ends its read; it leaves the `^D` in its place if it has
stored something before. -/
theorem Inv.takesEof (inv : Inv k) {target n : Int} {dst : List UInt8} {killed : Bool}
    (here : k.frames a = .read target n dst (.got eof))
    (taken : step k (.run a killed) = some next) :
    next.frames a = .read target n dst (.release dst.length) ∧
      if dst = [] then next.session = k.session.discard
      else next.session = k.session ∧ next.input.r = k.input.r - 1 ∧
        next.session.queue.head? = some eof := by
  have counts := inv.counts a
  have fits := inv.fits a ((inv.holder a).mp (by rw [here]; rfl))
  rw [here] at counts fits
  obtain ⟨⟨rest, isNext⟩, -⟩ := fits
  have result : target - n = dst.length := by
    have count := counts.1
    omega
  have stored : n < target ↔ dst ≠ [] := by
    rw [← List.length_pos_iff]
    omega
  simp only [step, here, Kernel.consoleread, if_true, stored, result] at taken
  split at taken
  · rename_i some_char
    cases taken
    refine ⟨update_self .., ?_⟩
    rw [if_neg some_char]
    refine ⟨rfl, rfl, ?_⟩
    show k.session.queue.head? = some eof
    rw [isNext]
    rfl
  · rename_i no_char
    cases taken
    refine ⟨update_self .., ?_⟩
    rw [if_pos (not_not.mp no_char)]
    rfl

/-- The line discipline, in every reachable state:
* the counters keep their order and their distance;
* readers have stored the first `consumed` of the committed characters, in their order and
  once each, the `^D`s apart; the others are in the buffer from `r` to `w`;
* the handler, whatever is typed, leaves the characters from `r` to `w` alone;
* a `^D` ends a read, and is consumed only if the read has stored nothing. -/
theorem console_line_discipline (k : Kernel Agent) (reachable : system.Reachable k) :
    ((k.input.w - k.input.r).toNat ≤ (k.input.e - k.input.r).toNat ∧
        (k.input.e - k.input.r).toNat ≤ inputBuf) ∧
      (k.session.consumed ≤ k.session.committed.length ∧
        k.session.delivered =
          (k.session.committed.take k.session.consumed).filter (· ≠ eof) ∧
        (k.handsEmpty → Ring.Holds k.input.buf k.input.r k.input.w
          (k.session.committed.drop k.session.consumed))) ∧
      (∀ a pos label next, k.frames a = .intr pos →
        (∃ c, label = .getc a c) ∨ (∃ killed, label = .run a killed) →
        step k label = some next → KeepsCommitted k.input next.input) ∧
      ∀ a target n dst killed next, k.frames a = .read target n dst (.got eof) →
        step k (.run a killed) = some next →
        next.frames a = .read target n dst (.release dst.length) ∧
          if dst = [] then next.session = k.session.discard
          else next.session = k.session ∧ next.input.r = k.input.r - 1 ∧
            next.session.queue.head? = some eof := by
  have inv := reachable_inv reachable
  refine ⟨inv.counters, ⟨inv.session.consumed, inv.session.delivered, inv.committed⟩, ?_, ?_⟩
  · intro a pos label next here own taken
    exact handler_keeps inv here own taken
  · intro a target n dst killed next here taken
    exact inv.takesEof here taken

/-- Two characters, a backspace, `^D`: a reader gets the one that is left, and the `^D` stays. -/
theorem backspaced_line_read :
    ∃ k : Kernel Bool, system.Reachable k ∧ k.frames true = .read 5 4 [97] (.got eof) ∧
      k.session.delivered = (k.session.committed.take k.session.consumed).filter (· ≠ eof) ∧
      k.session.committed = [97, eof] := by
  let start : Kernel Bool :=
    { input := ⟨fun _ => 0, 0xffffffff, 0xffffffff, 0xffffffff⟩, lock := none
      frames := fun _ => .idle, session := ⟨[], [], 0, []⟩ }
  have initial : Initial start := ⟨rfl, rfl, rfl, fun _ => rfl, rfl⟩
  have ran : ∃ k ∈ system.runWhen (fun _ _ => True) start
      [.interrupt false, .run false false, .getc false (some 97), .run false false,
        .getc false (some 98), .run false false, .getc false (some 0x7f),
        .getc false (some eof), .run false false, .getc false none, .run false false,
        .call true 5, .run true false, .run true false, .run true false, .run true false,
        .run true false, .run true false, .run true false, .run true false],
      k.frames true = .read 5 4 [97] (.got eof) ∧ k.session.committed = [97, eof] := by
    decide +kernel
  obtain ⟨k, reachable, ended⟩ := System.ReachableWhen.exists_of_runWhen (.init initial) ran
  obtain ⟨-, ⟨-, delivered, -⟩, -, -⟩ := console_line_discipline k reachable
  exact ⟨k, reachable, ended.1, delivered, ended.2⟩

end

end Laboratorio.Xv6.Console
