import Laboratorio.Shell.Grammar

/-! # The command parser of `lab-02/sh.c`

The laboratory's shell has pipes and redirections only, copies each word when it reads it
and uses the `strchr` of the C library, which also finds the terminator.  On a line without
`&`, `;`, `(`, `)` and `>>` it accepts what the shell of xv6 accepts and builds the same
command.

On such a line both lexers give the same tokens (`copies_sim`); over such tokens the two
parsers go through the same calls (`agree_parsepipe`).
-/

namespace Laboratorio.Shell

open Laboratorio.Lib List

variable {line : List Char} {ts : List Token} {fuel : Nat}

namespace Lab02

/-! ## The parser -/

def strchr (set : List Char) (c : Char) : Bool :=
  c == nul || set.contains c

def symbols : List Char := ['<', '|', '>']

def isWhitespace (c : Char) : Bool :=
  strchr whitespace c

def isWord (c : Char) : Bool :=
  !strchr whitespace c && !strchr symbols c

def peek (line : List Char) (s : Nat) (toks : List Char) : Look Nat :=
  let s := skip isWhitespace line s
  ⟨charAt line s != nul && strchr toks (charAt line s), s⟩

def scanToken (line : List Char) (s : Nat) : Char × Nat :=
  let c := charAt line s
  if c = nul then (nul, s)
  else if c ∈ ['|', '<'] then (c, s + 1)
  else if c = '>' then (c, s + 1)
  else ('a', skip isWord line s)

def gettoken (line : List Char) (s : Nat) : Read Nat Slice :=
  let q := skip isWhitespace line s
  let token := scanToken line q
  ⟨token.1, ⟨q, token.2⟩, skip isWhitespace line token.2⟩

/-- The string in the copy: `strncpy` stops at a terminator. -/
def mkcopy (line : List Char) (slice : Slice) : List Char :=
  ((line.drop slice.start).take (slice.stop - slice.start)).takeWhile (· != nul)

def copies (line : List Char) : Stream Nat (List Char) where
  peek := peek line
  gettoken s :=
    let token := gettoken line s
    ⟨token.tok, mkcopy line token.text, token.next⟩

def dialect : Dialect where
  stops := ['|']
  redirection
    | '<' => some ([.rdonly], 0)
    | '>' => some ([.wronly, .create, .trunc], 1)
    | _ => none
  missingFile := "missing file for redirection\n"
  badToken := "syntax error\n"
  tooManyArgs := "too many args\n"

section

variable {S W : Type} (stream : Stream S W)

def parseexec : Nat → S → Except Fault (Cmd W × S)
  | 0, _ => .error .noFuel
  | fuel + 1, s => parsesimple dialect stream fuel s

def parsepipe : Nat → S → Except Fault (Cmd W × S)
  | 0, _ => .error .noFuel
  | fuel + 1, s => do
    let cmd ← parseexec stream fuel s
    let look := stream.peek cmd.2 ['|']
    if look.found then
      let rest ← parsepipe fuel (stream.gettoken look.next).next
      pure (.pipe cmd.1 rest.1, rest.2)
    else
      pure (cmd.1, look.next)

def parseline : Nat → S → Except Fault (Cmd W × S)
  | 0, _ => .error .noFuel
  | fuel + 1, s => parsepipe stream fuel s

end

def parsecmd (fuel : Nat) (line : List Char) : Except Fault (Cmd (List Char)) := do
  let cmd ← parseline (copies line) fuel 0
  let rest := peek line cmd.2 []
  if rest.next ≠ line.length then
    .error (.died ("leftovers: " ++ String.ofList (line.drop rest.next) ++ "\n"))
  else
    pure cmd.1

/-! ## Plain lines -/

/-- A line on which the two lexers agree. -/
structure Plain (line : List Char) : Prop where
  clean : nul ∉ line
  marks : ∀ c ∈ ['&', ';', '(', ')'], c ∉ line
  single : ¬ ['>', '>'] <:+: line

theorem skip_congr {test test' : Char → Bool}
    (same : ∀ c ∈ line, test c = test' c) (s : Nat) : skip test line s = skip test' line s := by
  have sameRest : ∀ c ∈ line.drop s, test c = test' c :=
    fun c member => same c (mem_of_mem_drop member)
  rw [skip, skip]
  generalize line.drop s = rest at sameRest
  have sameRun : rest.takeWhile test = rest.takeWhile test' := by
    induction rest with
    | nil => rfl
    | cons c rest ih =>
      rw [takeWhile_cons, takeWhile_cons, sameRest c mem_cons_self,
        ih fun c member => sameRest c (mem_cons_of_mem _ member)]
  rw [sameRun]

theorem strchr_eq {c : Char} (notNul : c ≠ nul) (set : List Char) :
    strchr set c = set.contains c := by
  rw [strchr, beq_eq_false_iff_ne.mpr notNul, Bool.false_or]

theorem charAt_mem (line : List Char) (s : Nat) : charAt line s = nul ∨ charAt line s ∈ line := by
  rw [charAt, getD_eq_getElem?_getD]
  cases found : (line)[s]? with
  | none => exact .inl rfl
  | some c => exact .inr (mem_of_getElem? found)

namespace Plain

variable {line : List Char} (plain : Plain line)
include plain

theorem ne_nul {c : Char} (member : c ∈ line) : c ≠ nul :=
  fun isNul => plain.clean (isNul ▸ member)

theorem skip_whitespace (s : Nat) : skip isWhitespace line s = skip Shell.isWhitespace line s :=
  skip_congr (fun _ member => strchr_eq (plain.ne_nul member) whitespace) s

theorem skip_word (s : Nat) : skip isWord line s = skip (Shell.isWord Shell.symbols) line s := by
  apply skip_congr
  intro c member
  have notNul := plain.ne_nul member
  -- the symbols that only xv6 knows do not occur
  have sameSymbols : symbols.contains c = Shell.symbols.contains c := by
    have marks := plain.marks
    rw [Bool.eq_iff_iff, List.contains_iff_mem, List.contains_iff_mem]
    simp only [symbols, Shell.symbols, List.mem_cons, List.not_mem_nil, or_false]
    constructor
    · tauto
    · intro symbol
      obtain isLt | isBar | isGt | isMark := symbol
      · exact .inl isLt
      · exact .inr (.inl isBar)
      · exact .inr (.inr isGt)
      · exfalso
        exact marks c (by simpa using isMark) member
  rw [isWord, Shell.isWord, strchr_eq notNul, strchr_eq notNul, sameSymbols]

theorem peek_eq : peek line = Shell.peek line := by
  funext s toks
  simp only [peek, Shell.peek, plain.skip_whitespace]
  by_cases isNul : charAt line (skip Shell.isWhitespace line s) = nul
  · rw [isNul]
    rfl
  · rw [strchr_eq isNul]

theorem scanToken_eq (s : Nat) : scanToken line s = Shell.scanToken line s := by
  cases charAt_mem line s with
  | inl isNul => simp [scanToken, Shell.scanToken, isNul]
  | inr member =>
    have notNul := plain.ne_nul member
    have notMark : charAt line s ∉ ['&', ';', '(', ')'] :=
      fun isMark => plain.marks _ isMark member
    have same : charAt line s ∈ ['|', '(', ')', ';', '&', '<'] ↔ charAt line s ∈ ['|', '<'] := by
      simp only [List.mem_cons] at notMark ⊢
      tauto
    simp only [scanToken, Shell.scanToken, if_neg notNul, same, plain.skip_word]
    split
    case isTrue => rfl
    case isFalse =>
      split
      case isFalse => rfl
      case isTrue isGt =>
        -- another `>` behind it would be `>>`
        have notTwice : charAt line (s + 1) ≠ '>' := by
          intro twice
          apply plain.single
          have first : (line)[s]? = some '>' := by
            exact (Option.getD_eq_iff.mp isGt).resolve_right (by rintro ⟨-, isNul⟩; cases isNul)
          have second : (line)[s + 1]? = some '>' := by
            exact (Option.getD_eq_iff.mp twice).resolve_right (by rintro ⟨-, isNul⟩; cases isNul)
          obtain ⟨bound, isFirst⟩ := List.getElem?_eq_some_iff.mp first
          obtain ⟨bound', isSecond⟩ := List.getElem?_eq_some_iff.mp second
          refine ⟨line.take s, line.drop (s + 2), ?_⟩
          have split := List.take_append_drop s line
          rw [List.drop_eq_getElem_cons bound, List.drop_eq_getElem_cons bound', isFirst,
            isSecond] at split
          rw [List.append_assoc]
          exact split
        rw [if_neg notTwice, isGt]

theorem gettoken_eq : gettoken line = Shell.gettoken line := by
  funext s
  simp [gettoken, Shell.gettoken, plain.skip_whitespace, plain.scanToken_eq]

theorem mkcopy_eq {slice : Slice} {word : List Char} (spans : Spans line slice word) :
    mkcopy line slice = word := by
  rw [mkcopy, spans.between, takeWhile_eq_self_iff]
  intro c member
  rw [bne_iff_ne]
  rintro rfl
  exact spans.clean plain.clean member

theorem copies_sim : (copies line).Sim tokens Shell.symbols (Before line) Eq where
  peek {s ts} same toks asks := by
    show (peek line s toks).found = _ ∧ Before line (peek line s toks).next _
    rw [plain.peek_eq]
    exact (chars_sim plain.clean).peek same toks asks
  gettoken {s ts} same := by
    show (gettoken line s).tok = _ ∧ (_ → mkcopy line (gettoken line s).text = _) ∧
      Before line (gettoken line s).next _
    rw [plain.gettoken_eq]
    obtain ⟨kind, text, next⟩ := (chars_sim plain.clean).gettoken same
    exact ⟨kind, fun word => plain.mkcopy_eq (text word), next⟩

end Plain

/-! ## Plain tokens -/

/-- The tokens that both parsers know. -/
def isPlain : Token → Bool
  | .word _ | .lt | .gt | .bar => true
  | .append | .amp | .semi | .lparen | .rparen => false

def PlainTokens (ts : List Token) : Prop :=
  ∀ token ∈ ts, isPlain token = true

theorem Plain.suffix {rest : List Char} (plain : Plain line) (suffix : rest <:+ line) :
    Plain rest where
  clean member := plain.clean (suffix.subset member)
  marks c isMark member := plain.marks c isMark (suffix.subset member)
  single twice := plain.single (twice.trans suffix.isInfix)

theorem plain_tokenize (plain : Plain line) : PlainTokens (tokenize line) := by
  fun_induction tokenize line with
  | case1 =>
    intro token member
    cases member
  | case2 c rest white ih => exact ih (plain.suffix (suffix_cons c rest))
  | case3 rest twice white ih =>
    obtain ⟨rest', isCons⟩ := head?_eq_some_iff.mp twice
    exact absurd ⟨[], rest', by rw [isCons]; rfl⟩ plain.single
  | case4 rest single white ih =>
    exact forall_mem_cons.mpr ⟨rfl, ih (plain.suffix (suffix_cons _ rest))⟩
  | case5 c rest white notGt token found ih =>
    refine forall_mem_cons.mpr ⟨?_, ih (plain.suffix (suffix_cons c rest))⟩
    have notMark : c ∉ ['&', ';', '(', ')'] :=
      fun isMark => plain.marks c isMark mem_cons_self
    simp only [punctuation] at found
    split at found <;> cases found <;> first | rfl | exact absurd notMark (by decide)
  | case6 c rest white notGt none ih =>
    refine forall_mem_cons.mpr ⟨rfl, ih (plain.suffix ?_)⟩
    exact (dropWhile_suffix _).trans (suffix_cons c rest)

/-! ## The two parsers over plain tokens -/

/-- Both run out of fuel, or both give up on the line. -/
def Alike (fault fault' : Fault) : Prop :=
  fault = .noFuel ↔ fault' = .noFuel

theorem alike_died (message message' : String) : Alike (.died message) (.died message') := by
  constructor
  · intro stuck
    cases stuck
  · intro stuck
    cases stuck

end Lab02

/-- The mode of a redirection is the one thing in which the shells differ. -/
def Redirection.eraseMode {W : Type} (redirection : Redirection W) : Redirection W :=
  ⟨redirection.file, [], redirection.fd⟩

def Cmd.eraseModes {W : Type} : Cmd W → Cmd W
  | .exec argv => .exec argv
  | .redir cmd redirection => .redir cmd.eraseModes redirection.eraseMode
  | .pipe left right => .pipe left.eraseModes right.eraseModes
  | .list left right => .list left.eraseModes right.eraseModes
  | .back cmd => .back cmd.eraseModes

theorem eraseModes_redirs {W : Type} (redirs : List (Redirection W)) (cmd : Cmd W) :
    (redirs.foldl .redir cmd).eraseModes =
      (redirs.map Redirection.eraseMode).foldl .redir cmd.eraseModes := by
  induction redirs generalizing cmd with
  | nil => rfl
  | cons redirection redirs ih => exact ih (.redir cmd redirection)

namespace Lab02

theorem agree_parseredirs (fuel : Nat) (plain : PlainTokens ts) :
    Agree Alike (fun result result' =>
        result.1.map Redirection.eraseMode = result'.1.map Redirection.eraseMode ∧
          result.2 = result'.2 ∧ PlainTokens result.2)
      (parseredirs xv6 tokens fuel ts) (parseredirs dialect tokens fuel ts) := by
  induction fuel generalizing ts with
  | zero => exact Iff.rfl
  | succ fuel ih =>
    cases ts with
    | nil => exact ⟨rfl, rfl, plain⟩
    | cons token rest =>
      have plainRest : PlainTokens rest := (forall_mem_cons.mp plain).2
      cases token with
      | append | amp | semi | lparen | rparen => cases (forall_mem_cons.mp plain).1
      | word | bar => exact ⟨rfl, rfl, plain⟩
      | lt | gt =>
        -- the file name, and then the redirections after it
        cases rest with
        | nil => exact alike_died _ _
        | cons token rest =>
          cases token with
          | lt | gt | append | bar | amp | semi | lparen | rparen => exact alike_died _ _
          | word file =>
            apply (ih (forall_mem_cons.mp plainRest).2).bind
            intro result result' related
            exact ⟨congrArg (Redirection.eraseMode ⟨file, [], _⟩ :: ·) related.1, related.2⟩

theorem agree_parseargs (fuel argc : Nat) (plain : PlainTokens ts) :
    Agree Alike (fun result result' => result.1.1 = result'.1.1 ∧
          result.1.2.map Redirection.eraseMode = result'.1.2.map Redirection.eraseMode ∧
          result.2 = result'.2 ∧ PlainTokens result.2)
      (parseargs xv6 tokens fuel argc ts) (parseargs dialect tokens fuel argc ts) := by
  induction fuel generalizing argc ts with
  | zero => exact Iff.rfl
  | succ fuel ih =>
    cases ts with
    | nil => exact ⟨rfl, rfl, rfl, plain⟩
    | cons token rest =>
      cases token with
      | append | amp | semi | lparen | rparen => cases (forall_mem_cons.mp plain).1
      | bar => exact ⟨rfl, rfl, rfl, plain⟩
      | lt | gt => exact alike_died _ _
      | word word =>
        rw [parseargs_word]
        show Agree _ _ _ (if argc + 1 ≥ maxArgs then _ else _)
        split
        case isTrue => exact alike_died _ _
        case isFalse =>
          apply (agree_parseredirs fuel (forall_mem_cons.mp plain).2).bind
          intro redirs redirs' related
          obtain ⟨sameRedirs, sameRest, plainRest⟩ := related
          rw [← sameRest]
          apply (ih (argc + 1) plainRest).bind
          intro others others' related'
          obtain ⟨sameWords, sameOthers, sameEnd, plainEnd⟩ := related'
          refine ⟨?_, ?_, sameEnd, plainEnd⟩
          · show word :: _ = word :: _
            rw [sameWords]
          · show map _ (_ ++ _) = map _ (_ ++ _)
            rw [map_append, map_append, sameRedirs, sameOthers]

/-- The same command up to the modes, and the same plain rest. -/
def SameCmd (result result' : Cmd (List Char) × List Token) : Prop :=
  result.1.eraseModes = result'.1.eraseModes ∧ result.2 = result'.2 ∧ PlainTokens result.2

theorem agree_parseexec (fuel : Nat) (plain : PlainTokens ts) :
    Agree Alike SameCmd (Shell.parseexec tokens fuel ts) (parseexec tokens fuel ts) := by
  cases fuel with
  | zero => exact Iff.rfl
  | succ fuel =>
    rw [parseexec_tokens]
    split
    case h_1 rest => cases (forall_mem_cons.mp plain).1
    case h_2 =>
      apply (agree_parseredirs fuel plain).bind
      intro first first' related
      obtain ⟨sameFirst, sameRest, plainRest⟩ := related
      rw [← sameRest]
      apply (agree_parseargs fuel 0 plainRest).bind
      intro others others' related'
      obtain ⟨sameWords, sameOthers, sameEnd, plainEnd⟩ := related'
      refine ⟨?_, sameEnd, plainEnd⟩
      rw [eraseModes_redirs, eraseModes_redirs, map_append, map_append, sameFirst,
        sameOthers, sameWords]

theorem agree_parsepipe (fuel : Nat) (plain : PlainTokens ts) :
    Agree Alike SameCmd (Shell.parsepipe tokens fuel ts) (parsepipe tokens fuel ts) := by
  induction fuel generalizing ts with
  | zero => exact Iff.rfl
  | succ fuel ih =>
    apply (agree_parseexec fuel plain).bind
    intro cmd cmd' related
    obtain ⟨cmd, rest⟩ := cmd
    obtain ⟨cmd', rest'⟩ := cmd'
    obtain ⟨sameCmd, sameRest, plainRest⟩ := related
    subst sameRest
    cases rest with
    | nil => exact ⟨sameCmd, rfl, plainRest⟩
    | cons token rest =>
      cases token with
      | word | lt | gt | append | amp | semi | lparen | rparen => exact ⟨sameCmd, rfl, plainRest⟩
      | bar =>
        apply (ih (forall_mem_cons.mp plainRest).2).bind
        intro others others' related'
        refine ⟨?_, related'.2⟩
        show Cmd.pipe _ _ = Cmd.pipe _ _
        rw [related'.1]
        exact congrArg (Cmd.pipe · _) sameCmd

theorem agree_parseline (fuel : Nat) (plain : PlainTokens ts) :
    Agree Alike SameCmd (Shell.parseline tokens fuel ts) (parseline tokens fuel ts) := by
  cases fuel with
  | zero => exact Iff.rfl
  | succ fuel =>
    rw [parseline, ← bind_pure (parsepipe tokens fuel ts)]
    cases fuel with
    | zero => exact Iff.rfl
    | succ fuel =>
      apply (agree_parsepipe (fuel + 1) plain).bind
      intro cmd cmd' related
      obtain ⟨cmd, rest⟩ := cmd
      -- neither `&` nor `;` is left, so the loop and the list do nothing
      cases rest with
      | nil => exact related
      | cons token rest =>
        have plainToken := (forall_mem_cons.mp related.2.2).1
        cases token with
        | append | amp | semi | lparen | rparen => cases plainToken
        | word | lt | gt | bar => exact related

/-! ## Lines -/

section

variable (plain : Plain line)
include plain

theorem sim_parsepipe (fuel : Nat) {s : Nat} (before : Before line s ts) :
    Agree Eq (Stream.Sim.Same (Before line) Eq) (parsepipe (copies line) fuel s)
      (parsepipe tokens fuel ts) := by
  induction fuel generalizing s ts with
  | zero => exact rfl
  | succ fuel ih =>
    have execs : Agree Eq (Stream.Sim.Same (Before line) Eq) (parseexec (copies line) fuel s)
        (parseexec tokens fuel ts) := by
      cases fuel with
      | zero => exact rfl
      | succ fuel => exact plain.copies_sim.parsesimple (by decide) (by decide) fuel before
    exact plain.copies_sim.joined execs '|' (by decide) Cmd.Rel.pipe ih

theorem parsecmd_of_ok {s : Nat}
    {cmd : Cmd (List Char)} (ok : parseline (copies line) fuel 0 = .ok (cmd, s)) :
    parsecmd fuel line = if skip Shell.isWhitespace line s = line.length then .ok cmd
      else .error (.died ("leftovers: " ++
        String.ofList (line.drop (skip Shell.isWhitespace line s)) ++ "\n")) := by
  rw [parsecmd, ok, ← plain.skip_whitespace]
  show (if skip isWhitespace line s ≠ line.length then _ else _) = _
  rw [ite_not]
  rfl

theorem sim_parseline (fuel : Nat) :
    Agree Eq (Stream.Sim.Same (Before line) Eq) (parseline (copies line) fuel 0)
      (parseline tokens fuel (tokenize line)) := by
  cases fuel with
  | zero => exact rfl
  | succ fuel => exact sim_parsepipe plain fuel ⟨Nat.zero_le _, rfl⟩

theorem parsecmd_iff_tokens (fuel : Nat) (words : Cmd (List Char)) :
    parsecmd fuel line = .ok words ↔ parseline tokens fuel (tokenize line) = .ok (words, []) := by
  have agree := sim_parseline plain fuel
  constructor
  · intro parsed
    obtain ⟨⟨cmd, s⟩, ok, -⟩ := bind_eq_ok.mp parsed
    obtain ⟨⟨cmd', rest⟩, ok', related, before⟩ := agree.of_ok ok
    rw [parsecmd_of_ok plain ok] at parsed
    split at parsed
    case isFalse => cases parsed
    case isTrue ended =>
      cases parsed
      have isNil : rest = [] := (before.skip_eq_length_iff plain.clean).mp ended
      have same : words = cmd' := related.eq
      rw [ok', isNil, ← same]
  · intro parsed
    obtain ⟨⟨cmd, s⟩, ok, related, before⟩ := agree.of_ok' parsed
    have ended := (before.skip_eq_length_iff plain.clean).mpr rfl
    have same : cmd = words := related.eq
    rw [parsecmd_of_ok plain ok, if_pos ended, same]

theorem parsecmd_fuel
    (enough : 4 * line.length + 4 ≤ fuel) : parsecmd fuel line ≠ .error .noFuel := by
  intro stuck
  have length := length_tokenize line
  have reads := reads_parse fuel .line (tokenize line)
    (by simp only [Nonterminal.depth]; omega)
  cases bind_eq_error.mp stuck with
  | inl failed =>
    obtain ⟨fault, failed', same⟩ := (sim_parseline plain fuel).of_error failed
    subst same
    -- the parser of xv6 would run out of fuel on the same tokens
    obtain ⟨fault', failed'', alike⟩ :=
      (agree_parseline fuel (plain_tokenize plain)).of_error' failed'
    rw [parse, failed'', alike.mpr rfl] at reads
    exact reads
  | inr later =>
    obtain ⟨⟨cmd, s⟩, ok, -⟩ := later
    rw [parsecmd_of_ok plain ok] at stuck
    split at stuck
    case isTrue => cases stuck
    case isFalse => cases stuck

theorem accepted_iff (fuel : Nat) :
    (∃ words, Shell.parseline tokens fuel (tokenize line) = .ok (words, [])) ↔
      ∃ words, parseline tokens fuel (tokenize line) = .ok (words, []) := by
  have agree := agree_parseline fuel (plain_tokenize plain)
  constructor
  · intro accepted
    obtain ⟨words, ok⟩ := accepted
    obtain ⟨⟨words', rest⟩, ok', -, same, -⟩ := agree.of_ok ok
    change [] = rest at same
    exact ⟨words', by rw [ok', same]⟩
  · intro accepted
    obtain ⟨words', ok'⟩ := accepted
    obtain ⟨⟨words, rest⟩, ok, -, same, -⟩ := agree.of_ok' ok'
    change rest = [] at same
    exact ⟨words, by rw [ok, same]⟩

end

theorem exists_died {A : Type} {outcome : Except Fault A} (total : outcome ≠ .error .noFuel)
    (rejects : ∀ result, outcome ≠ .ok result) : ∃ message, outcome = .error (.died message) := by
  cases outcome with
  | ok result => exact absurd rfl (rejects result)
  | error fault =>
    cases fault with
    | noFuel => exact absurd rfl total
    | died message => exact ⟨message, rfl⟩

/-- On a line without `&`, `;`, `(`, `)` and `>>`, either both shells reject the line or
both accept it with the same command: the same nesting, the same strings and the same
descriptors. -/
theorem shells_parse_alike {line : List Char} (clean : nul ∉ line)
    (marks : ∀ c ∈ ['&', ';', '(', ')'], c ∉ line) (single : ¬ ['>', '>'] <:+: line) {fuel : Nat}
    (enough : 4 * line.length + 4 ≤ fuel) :
    ((∃ message, Shell.parsecmd fuel line = .error (.died message)) ∧
      ∃ message, parsecmd fuel line = .error (.died message)) ∨
    ∃ cmd memory words, Shell.parsecmd fuel line = .ok (cmd, memory) ∧
      parsecmd fuel line = .ok words ∧
      (cmd.strings memory).eraseModes = words.eraseModes := by
  have plain : Plain line := ⟨clean, marks, single⟩
  have accepts := accepted_iff plain fuel
  by_cases accepted : ∃ words, parseline tokens fuel (tokenize line) = .ok (words, [])
  · right
    obtain ⟨words, ok⟩ := accepted
    obtain ⟨⟨words', rest⟩, ok', same, isNil, -⟩ :=
      (agree_parseline fuel (plain_tokenize plain)).of_ok' ok
    subst isNil
    obtain ⟨cmd, memory, parsed, strings⟩ := (Shell.parsecmd_iff_tokens clean fuel words').mpr ok'
    refine ⟨cmd, memory, words, parsed, (parsecmd_iff_tokens plain fuel words).mpr ok, ?_⟩
    rw [strings]
    exact same
  · left
    constructor
    · apply exists_died (Shell.parsecmd_fuel clean enough)
      intro result parsed
      apply accepted
      apply accepts.mp
      exact ⟨_, (Shell.parsecmd_iff_tokens clean fuel _).mp ⟨result.1, result.2, parsed, rfl⟩⟩
    · apply exists_died (parsecmd_fuel plain enough)
      intro words parsed
      apply accepted
      exact ⟨words, (parsecmd_iff_tokens plain fuel words).mp parsed⟩

theorem redirected_pipe_alike :
    ((∃ message, Shell.parsecmd 36 ['a', ' ', '>', 'x', ' ', 'b', '|', 'c'] =
        .error (.died message)) ∧
      ∃ message, parsecmd 36 ['a', ' ', '>', 'x', ' ', 'b', '|', 'c'] = .error (.died message)) ∨
    ∃ cmd memory words,
      Shell.parsecmd 36 ['a', ' ', '>', 'x', ' ', 'b', '|', 'c'] = .ok (cmd, memory) ∧
      parsecmd 36 ['a', ' ', '>', 'x', ' ', 'b', '|', 'c'] = .ok words ∧
      (cmd.strings memory).eraseModes = words.eraseModes :=
  shells_parse_alike (by decide) (by simp) (by decide) (by decide)

example : (parsecmd 36 ['a', ' ', '>', 'x', ' ', 'b', '|', 'c']).toOption =
    some (.pipe (.redir (.exec [['a'], ['b']]) ⟨['x'], [.wronly, .create, .trunc], 1⟩)
      (.exec [['c']])) := by
  decide

end Lab02

end Laboratorio.Shell
