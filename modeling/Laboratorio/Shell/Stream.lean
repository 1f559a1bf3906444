import Mathlib.Data.List.Forall2
import Laboratorio.Shell.Model

/-! # Parsing over two streams

Two streams on which `peek` and `gettoken` say the same give the same command, word for
word: the parser sees the line through these two functions only.
-/

namespace Laboratorio.Shell

open Laboratorio.Lib

variable {S S' W W' : Type} {cmd : Cmd W}

def Redirection.Rel (T : W → W' → Prop) (redirection : Redirection W)
    (redirection' : Redirection W') : Prop :=
  T redirection.file redirection'.file ∧ redirection.mode = redirection'.mode ∧
    redirection.fd = redirection'.fd

/-- Two commands of the same shape with related words. -/
inductive Cmd.Rel (T : W → W' → Prop) : Cmd W → Cmd W' → Prop where
  | exec {argv argv'} (words : List.Forall₂ T argv argv') : Rel T (.exec argv) (.exec argv')
  | redir {cmd cmd' redirection redirection'} (inner : Rel T cmd cmd')
      (redirections : Redirection.Rel T redirection redirection') :
      Rel T (.redir cmd redirection) (.redir cmd' redirection')
  | pipe {left left' right right'} (first : Rel T left left') (second : Rel T right right') :
      Rel T (.pipe left right) (.pipe left' right')
  | list {left left' right right'} (first : Rel T left left') (second : Rel T right right') :
      Rel T (.list left right) (.list left' right')
  | back {cmd cmd'} (inner : Rel T cmd cmd') : Rel T (.back cmd) (.back cmd')

theorem Cmd.Rel.eq {cmd' : Cmd W} (related : Cmd.Rel Eq cmd cmd') : cmd = cmd' := by
  induction related with
  | exec words =>
    rw [List.forall₂_eq_eq_eq] at words
    rw [words]
  | @redir cmd cmd' redirection redirection' inner redirections ih =>
    cases redirection'
    obtain ⟨file, mode, fd⟩ := redirections
    cases file
    cases mode
    cases fd
    rw [ih]
  | pipe first second first_ih second_ih => rw [first_ih, second_ih]
  | list first second first_ih second_ih => rw [first_ih, second_ih]
  | back inner ih => rw [ih]

theorem Cmd.Rel.redirs {T : W → W' → Prop} {redirs : List (Redirection W)}
    {redirs' : List (Redirection W')} (related : List.Forall₂ (Redirection.Rel T) redirs redirs')
    {cmd' : Cmd W'} (inner : Cmd.Rel T cmd cmd') :
    Cmd.Rel T (redirs.foldl .redir cmd) (redirs'.foldl .redir cmd') := by
  induction related generalizing cmd cmd' with
  | nil => exact inner
  | cons head rest ih =>
    apply ih
    exact .redir inner head

/-- `R` relates cursors of the two streams before the same input, `T` the texts they give
for the same word.  `peek` is asked about characters of `asked` only. -/
structure Stream.Sim (stream : Stream S W) (stream' : Stream S' W') (asked : List Char)
    (R : S → S' → Prop) (T : W → W' → Prop) : Prop where
  peek : ∀ {s s'}, R s s' → ∀ toks, toks ⊆ asked →
    (stream.peek s toks).found = (stream'.peek s' toks).found ∧
      R (stream.peek s toks).next (stream'.peek s' toks).next
  gettoken : ∀ {s s'}, R s s' →
    (stream.gettoken s).tok = (stream'.gettoken s').tok ∧
      ((stream'.gettoken s').tok = 'a' → T (stream.gettoken s).text (stream'.gettoken s').text) ∧
      R (stream.gettoken s).next (stream'.gettoken s').next

namespace Stream.Sim

variable {stream : Stream S W} {stream' : Stream S' W'} {asked : List Char} {R : S → S' → Prop}
  {T : W → W' → Prop} {s' : S'} {s : S}

theorem skip (sim : stream.Sim stream' asked R T) (same : R s s') :
    R (stream.gettoken s).next (stream'.gettoken s').next :=
  (sim.gettoken same).2.2

section

variable {dialect : Dialect} (sim : stream.Sim stream' asked R T)
include sim

theorem parseredirs (asks : ['<', '>'] ⊆ asked) (fuel : Nat) (same : R s s') :
    Agree Eq (fun result result' => List.Forall₂ (Redirection.Rel T) result.1 result'.1 ∧
        R result.2 result'.2)
      (parseredirs dialect stream fuel s) (parseredirs dialect stream' fuel s') := by
  induction fuel generalizing s s' with
  | zero => exact rfl
  | succ fuel ih =>
    obtain ⟨found, next⟩ := sim.peek same ['<', '>'] asks
    simp only [Shell.parseredirs]
    rw [found]
    split
    case isFalse => exact ⟨.nil, next⟩
    case isTrue =>
      obtain ⟨tok, _, afterTok⟩ := sim.gettoken next
      obtain ⟨kind, text, afterFile⟩ := sim.gettoken afterTok
      rw [kind, tok]
      split
      case isTrue => exact rfl
      case isFalse word =>
        apply (ih afterFile).bind
        intro rest rest' related
        cases dialect.redirection (stream'.gettoken (stream'.peek s' ['<', '>']).next).tok with
        | none => exact related
        | some redirection =>
          -- the word was read just now, and both streams give the same text for it
          exact ⟨.cons ⟨text (not_not.mp word), rfl, rfl⟩ related.1, related.2⟩

theorem parseargs (asks : ['<', '>'] ⊆ asked) (stops : dialect.stops ⊆ asked) (fuel argc : Nat)
    (same : R s s') :
    Agree Eq (fun result result' => List.Forall₂ T result.1.1 result'.1.1 ∧
        List.Forall₂ (Redirection.Rel T) result.1.2 result'.1.2 ∧ R result.2 result'.2)
      (parseargs dialect stream fuel argc s) (parseargs dialect stream' fuel argc s') := by
  induction fuel generalizing argc s s' with
  | zero => exact rfl
  | succ fuel ih =>
    obtain ⟨found, next⟩ := sim.peek same dialect.stops stops
    obtain ⟨kind, text, afterWord⟩ := sim.gettoken next
    simp only [Shell.parseargs]
    rw [found, kind]
    split
    case isTrue => exact ⟨.nil, .nil, next⟩
    case isFalse =>
      split
      case isTrue => exact ⟨.nil, .nil, afterWord⟩
      case isFalse =>
        split
        case isTrue => exact rfl
        case isFalse word =>
          split
          case isTrue => exact rfl
          case isFalse =>
            apply (sim.parseredirs asks fuel afterWord).bind
            intro redirs redirs' related
            apply (ih (argc + 1) related.2).bind
            intro rest rest' others
            exact ⟨.cons (text (not_not.mp word)) others.1, List.rel_append related.1 others.2.1, others.2.2⟩

/-- The relation that all functions that return a command keep. -/
def Same (R : S → S' → Prop) (T : W → W' → Prop) (result : Cmd W × S) (result' : Cmd W' × S') :
    Prop :=
  Cmd.Rel T result.1 result'.1 ∧ R result.2 result'.2

theorem parsesimple (asks : ['<', '>'] ⊆ asked) (stops : dialect.stops ⊆ asked) (fuel : Nat)
    (same : R s s') :
    Agree Eq (Same R T) (parsesimple dialect stream fuel s)
      (parsesimple dialect stream' fuel s') := by
  apply (sim.parseredirs asks fuel same).bind
  intro first first' related
  apply (sim.parseargs asks stops fuel 0 related.2).bind
  intro rest rest' others
  exact ⟨.redirs (List.rel_append related.1 others.2.1) (.exec others.1), others.2.2⟩

end

section

variable (sim : stream.Sim stream' symbols R T)
include sim

theorem parseback (fuel : Nat) {cmd' : Cmd W'} (inner : Cmd.Rel T cmd cmd') (same : R s s') :
    Agree Eq (Same R T) (parseback stream fuel cmd s) (parseback stream' fuel cmd' s') := by
  induction fuel generalizing cmd cmd' s s' with
  | zero => exact rfl
  | succ fuel ih =>
    obtain ⟨found, next⟩ := sim.peek same ['&'] (by decide)
    simp only [Shell.parseback]
    rw [found]
    split
    case isTrue => exact ih (.back inner) (sim.skip next)
    case isFalse => exact ⟨inner, next⟩

/-- One call of `parsepipe` and of `parseline`: a command, and another one after a
separator. -/
theorem joined {first : Except Fault (Cmd W × S)} {first' : Except Fault (Cmd W' × S')}
    (agree : Agree Eq (Same R T) first first') (separator : Char)
    (asks : [separator] ⊆ symbols) {join : Cmd W → Cmd W → Cmd W}
    {join' : Cmd W' → Cmd W' → Cmd W'}
    (joins : ∀ {a a' b b'}, Cmd.Rel T a a' → Cmd.Rel T b b' → Cmd.Rel T (join a b) (join' a' b'))
    {parse : S → Except Fault (Cmd W × S)} {parse' : S' → Except Fault (Cmd W' × S')}
    (rest : ∀ {s s'}, R s s' → Agree Eq (Same R T) (parse s) (parse' s')) :
    Agree Eq (Same R T)
      (do
        let cmd ← first
        let look := stream.peek cmd.2 [separator]
        if look.found then
          let rest ← parse (stream.gettoken look.next).next
          pure (join cmd.1 rest.1, rest.2)
        else
          pure (cmd.1, look.next))
      (do
        let cmd ← first'
        let look := stream'.peek cmd.2 [separator]
        if look.found then
          let rest ← parse' (stream'.gettoken look.next).next
          pure (join' cmd.1 rest.1, rest.2)
        else
          pure (cmd.1, look.next)) := by
  apply agree.bind
  intro cmd cmd' related
  obtain ⟨found, next⟩ := sim.peek related.2 [separator] asks
  simp only
  rw [found]
  split
  case isTrue =>
    apply (rest (sim.skip next)).bind
    intro other other' others
    exact ⟨joins related.1 others.1, others.2⟩
  case isFalse => exact ⟨related.1, next⟩

/-- The four functions call each other, so they are compared together; `fuel` decreases at
each call. -/
theorem parse (fuel : Nat) : ∀ {s : S} {s' : S'}, R s s' →
    Agree Eq (Same R T) (parseline stream fuel s) (parseline stream' fuel s') ∧
    Agree Eq (Same R T) (parsepipe stream fuel s) (parsepipe stream' fuel s') ∧
    Agree Eq (Same R T) (parseexec stream fuel s) (parseexec stream' fuel s') ∧
    Agree Eq (Same R T) (parseblock stream fuel s) (parseblock stream' fuel s') := by
  induction fuel with
  | zero =>
    intro s s' same
    exact ⟨rfl, rfl, rfl, rfl⟩
  | succ fuel ih =>
    intro s s' same
    refine ⟨?line, ?pipe, ?exec, ?block⟩
    case line =>
      have first := (ih same).2.1.bind fun _ _ related => sim.parseback fuel related.1 related.2
      have both := sim.joined first ';' (by decide) Cmd.Rel.list fun same => (ih same).1
      simpa only [parseline, bind_assoc] using both
    case pipe =>
      exact sim.joined (ih same).2.2.1 '|' (by decide) Cmd.Rel.pipe fun same => (ih same).2.1
    case exec =>
      obtain ⟨found, next⟩ := sim.peek same ['('] (by decide)
      simp only [parseexec]
      rw [found]
      split
      case isTrue => exact (ih next).2.2.2
      case isFalse => exact sim.parsesimple (by decide) (by decide) fuel next
    case block =>
      obtain ⟨found, next⟩ := sim.peek same ['('] (by decide)
      simp only [parseblock]
      rw [found]
      split
      case isTrue => exact rfl
      case isFalse =>
        apply (ih (sim.skip next)).1.bind
        intro cmd cmd' related
        obtain ⟨closed, after⟩ := sim.peek related.2 [')'] (by decide)
        rw [closed]
        split
        case isTrue => exact rfl
        case isFalse =>
          apply (sim.parseredirs (by decide) fuel (sim.skip after)).bind
          intro redirs redirs' others
          exact ⟨.redirs others.1 related.1, others.2⟩

end

end Stream.Sim

end Laboratorio.Shell
