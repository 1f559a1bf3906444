import Mathlib.Logic.Function.Iterate
import Laboratorio.Shell.Tokens

/-! # The grammar of the shell

The parser accepts exactly the lines whose tokens the grammar derives, and returns the
command of the derivation.

Over tokens, with fuel for four calls a token, the parser either dies or has read a prefix
that the grammar derives (`reads_parse`); and it reads any derivable prefix whose next token
may follow it (`parse_derives`).  Over characters this is carried by `chars_sim`.
-/

namespace Laboratorio.Shell

open Laboratorio.Lib List Nat

variable {rest : List Token} {fuel : Nat} {symbol : Nonterminal} {line : List Char}

/-! ## The grammar -/

inductive Arrow where
  | input
  | output
  | append
deriving DecidableEq, Repr

def Arrow.token : Arrow → Token
  | input => .lt
  | output => .gt
  | append => .append

/-- `redir := ('<' | '>' | '>>') word` -/
structure Redir where
  arrow : Arrow
  file : List Char
deriving DecidableEq, Repr

namespace Redir

def tokens (redir : Redir) : List Token :=
  [redir.arrow.token, .word redir.file]

def redirection (redir : Redir) : Redirection (List Char) :=
  match redir.arrow with
  | .input => ⟨redir.file, [.rdonly], 0⟩
  | .output => ⟨redir.file, [.wronly, .create], 1⟩
  | .append => ⟨redir.file, [.wronly, .create], 1⟩

end Redir

/-- `word redir*` -/
structure Argument where
  word : List Char
  redirs : List Redir
deriving DecidableEq, Repr

def Argument.tokens (argument : Argument) : List Token :=
  .word argument.word :: argument.redirs.flatMap Redir.tokens

/-- Each redirection wraps the command built so far. -/
def wrap (redirs : List Redir) (cmd : Cmd (List Char)) : Cmd (List Char) :=
  redirs.foldl (fun cmd redir => .redir cmd redir.redirection) cmd

inductive Nonterminal where
  | line
  | pipe
  | exec
deriving DecidableEq, Repr

/-- The tokens that a nonterminal derives, with the command of the derivation. -/
inductive Derives : Nonterminal → List Token → Cmd (List Char) → Prop where
  -- line := pipe '&'*
  | line {ts cmd} (n : Nat) (first : Derives .pipe ts cmd) :
      Derives .line (ts ++ List.replicate n .amp) (Cmd.back^[n] cmd)
  -- line := pipe '&'* ';' line
  | list {ts ts' cmd cmd'} (n : Nat) (first : Derives .pipe ts cmd)
      (second : Derives .line ts' cmd') :
      Derives .line (ts ++ List.replicate n .amp ++ .semi :: ts')
        (.list (Cmd.back^[n] cmd) cmd')
  -- pipe := exec
  | exec {ts cmd} (only : Derives .exec ts cmd) : Derives .pipe ts cmd
  -- pipe := exec '|' pipe
  | pipe {ts ts' cmd cmd'} (first : Derives .exec ts cmd) (second : Derives .pipe ts' cmd') :
      Derives .pipe (ts ++ .bar :: ts') (.pipe cmd cmd')
  -- exec := '(' line ')' redir*
  | block {ts cmd} (redirs : List Redir) (inner : Derives .line ts cmd) :
      Derives .exec (.lparen :: ts ++ .rparen :: redirs.flatMap Redir.tokens) (wrap redirs cmd)
  -- exec := redir* (word redir*)*
  | simple (redirs : List Redir) (arguments : List Argument)
      (few : arguments.length ≤ maxArgs - 1) :
      Derives .exec (redirs.flatMap Redir.tokens ++ arguments.flatMap Argument.tokens)
        (wrap (redirs ++ arguments.flatMap Argument.redirs) (.exec (arguments.map Argument.word)))

/-! ## The parser over tokens

Over tokens the calls of `peek` and `gettoken` are case distinctions on the first token. -/

def Token.arrow? : Token → Option Arrow
  | .lt => some .input
  | .gt => some .output
  | .append => some .append
  | _ => none

theorem eq_token_of_arrow? {token : Token} {arrow : Arrow} (isArrow : token.arrow? = some arrow) :
    token = arrow.token := by
  cases token <;> cases isArrow <;> rfl

section

variable (fuel : Nat)

theorem parseredirs_stop {ts : List Token} (stop : ts.head?.bind Token.arrow? = none) :
    parseredirs xv6 tokens (fuel + 1) ts = .ok ([], ts) := by
  cases ts with
  | nil => rfl
  | cons token rest =>
    cases token with
    | lt | gt | append => cases stop
    | word | bar | amp | semi | lparen | rparen => rfl

theorem parseredirs_file (arrow : Arrow) (file : List Char) (rest : List Token) :
    parseredirs xv6 tokens (fuel + 1) (arrow.token :: .word file :: rest) =
      parseredirs xv6 tokens fuel rest >>= fun result =>
        pure (Redir.redirection ⟨arrow, file⟩ :: result.1, result.2) := by
  cases arrow <;> rfl

theorem parseredirs_missing (arrow : Arrow) (missing : ∀ file rest', rest ≠ .word file :: rest') :
    parseredirs xv6 tokens (fuel + 1) (arrow.token :: rest) =
      .error (.died "missing file for redirection") := by
  cases rest with
  | nil => cases arrow <;> rfl
  | cons token rest =>
    cases token with
    | word file => exact absurd rfl (missing file rest)
    | lt | gt | append | bar | amp | semi | lparen | rparen => cases arrow <;> rfl

variable (argc : Nat)

theorem parseargs_word (word : List Char) (rest : List Token) :
    parseargs xv6 tokens (fuel + 1) argc (.word word :: rest) =
      if argc + 1 ≥ maxArgs then .error (.died "too many args")
      else (do
        let redirs ← parseredirs xv6 tokens fuel rest
        let more ← parseargs xv6 tokens fuel (argc + 1) redirs.2
        pure ((word :: more.1.1, redirs.1 ++ more.1.2), more.2)) := rfl

theorem parseargs_mark (token : Token) (rest : List Token) (mark : token.mark ≠ none) :
    parseargs xv6 tokens (fuel + 1) argc (token :: rest) =
      if token ∈ [.bar, .rparen, .amp, .semi] then .ok (([], []), token :: rest)
      else .error (.died "syntax") := by
  cases token with
  | word text => exact absurd rfl mark
  | lt | gt | append | bar | amp | semi | lparen | rparen => rfl

variable (ts : List Token)

theorem parseback_tokens (cmd : Cmd (List Char)) :
    parseback tokens (fuel + 1) cmd ts =
      match ts with
      | .amp :: rest => parseback tokens fuel (.back cmd) rest
      | _ => .ok (cmd, ts) := by
  cases ts with
  | nil => rfl
  | cons token rest => cases token <;> rfl

theorem parseline_tokens :
    parseline tokens (fuel + 1) ts = (do
      let first ← parsepipe tokens fuel ts
      let cmd ← parseback tokens fuel first.1 first.2
      match cmd.2 with
      | .semi :: rest => do
        let others ← parseline tokens fuel rest
        pure (.list cmd.1 others.1, others.2)
      | _ => pure cmd) := by
  apply bind_congr
  intro first
  apply bind_congr
  intro cmd
  obtain ⟨cmd, rest⟩ := cmd
  cases rest with
  | nil => rfl
  | cons token rest => cases token <;> rfl

theorem parsepipe_tokens :
    parsepipe tokens (fuel + 1) ts = (do
      let cmd ← parseexec tokens fuel ts
      match cmd.2 with
      | .bar :: rest => do
        let others ← parsepipe tokens fuel rest
        pure (.pipe cmd.1 others.1, others.2)
      | _ => pure cmd) := by
  apply bind_congr
  intro cmd
  obtain ⟨cmd, rest⟩ := cmd
  cases rest with
  | nil => rfl
  | cons token rest => cases token <;> rfl

theorem parseexec_tokens :
    parseexec tokens (fuel + 1) ts =
      match ts with
      | .lparen :: _ => parseblock tokens fuel ts
      | _ => parsesimple xv6 tokens fuel ts := by
  cases ts with
  | nil => rfl
  | cons token rest => cases token <;> rfl

theorem parseblock_lparen (rest : List Token) :
    parseblock tokens (fuel + 1) (.lparen :: rest) = (do
      let cmd ← parseline tokens fuel rest
      match cmd.2 with
      | .rparen :: rest => do
        let redirs ← parseredirs xv6 tokens fuel rest
        pure (redirs.1.foldl .redir cmd.1, redirs.2)
      | _ => .error (.died "syntax - missing )")) := by
  apply bind_congr
  intro cmd
  obtain ⟨cmd, rest⟩ := cmd
  cases rest with
  | nil => rfl
  | cons token rest => cases token <;> rfl

end

/-! ## What a call reads -/

/-- The call dies, or it takes from `ts` some tokens that are in the relation `P` with its
result. -/
def Reads {A : Type} (ts : List Token) (P : List Token → A → Prop) :
    Except Fault (A × List Token) → Prop
  | .ok (result, rest) => ∃ read, ts = read ++ rest ∧ P read result
  | .error .noFuel => False
  | .error (.died _) => True

namespace Reads

variable {A B : Type} {ts : List Token} {P : List Token → A → Prop} {Q : List Token → B → Prop}
  {outcome : Except Fault (A × List Token)}

theorem nothing {result : A} (holds : P [] result) : Reads ts P (.ok (result, ts)) :=
  ⟨[], rfl, holds⟩

/-- The tokens that are left, and what the call makes of those it takes, decide. -/
theorem shift (read : List Token) (reads : Reads rest (fun more => P (read ++ more)) outcome)
    (split : ts = read ++ rest) : Reads ts P outcome := by
  cases outcome with
  | error fault =>
    cases fault with
    | noFuel => exact reads.elim
    | died message => trivial
  | ok result =>
    obtain ⟨more, same, holds⟩ := reads
    exact ⟨read ++ more, by rw [append_assoc, ← same, split], holds⟩

theorem token {token : Token} (reads : Reads ts (fun read => P (token :: read)) outcome) :
    Reads (token :: ts) P outcome :=
  reads.shift [token] rfl

theorem mono {P' : List Token → A → Prop} (reads : Reads ts P outcome)
    (imp : ∀ read result, P read result → P' read result) : Reads ts P' outcome := by
  cases outcome with
  | error fault =>
    cases fault with
    | noFuel => exact reads.elim
    | died message => trivial
  | ok result =>
    obtain ⟨read, same, holds⟩ := reads
    exact ⟨read, same, imp _ _ holds⟩

theorem bind {first : Except Fault (A × List Token)}
    {next : A × List Token → Except Fault (B × List Token)} (reads : Reads ts P first)
    (then' : ∀ result read rest, ts = read ++ rest → P read result →
      Reads rest (fun more => Q (read ++ more)) (next (result, rest))) :
    Reads ts Q (first >>= next) := by
  cases first with
  | error fault =>
    cases fault with
    | noFuel => exact reads.elim
    | died message => trivial
  | ok result =>
    obtain ⟨result, rest⟩ := result
    obtain ⟨read, split, holds⟩ := reads
    exact (then' result read rest split holds).shift read split

end Reads

theorem reads_parseredirs (fuel : Nat) (ts : List Token) (enough : ts.length < fuel) :
    Reads ts
      (fun read result => ∃ redirs : List Redir,
        read = redirs.flatMap Redir.tokens ∧ result = redirs.map Redir.redirection)
      (parseredirs xv6 tokens fuel ts) := by
  induction fuel generalizing ts with
  | zero => exact absurd enough (not_lt_zero _)
  | succ fuel ih =>
    cases head : ts.head?.bind Token.arrow? with
    | none =>
      rw [parseredirs_stop fuel head]
      exact .nothing ⟨[], rfl, rfl⟩
    | some arrow =>
      obtain ⟨token, isHead, isArrow⟩ := Option.bind_eq_some_iff.mp head
      obtain ⟨rest, isCons⟩ := head?_eq_some_iff.mp isHead
      rw [isCons, eq_token_of_arrow? isArrow]
      by_cases missing : ∀ file rest', rest ≠ .word file :: rest'
      · rw [parseredirs_missing fuel arrow missing]
        trivial
      · simp only [ne_eq, not_forall, not_not] at missing
        obtain ⟨file, rest', isWord⟩ := missing
        rw [isWord, parseredirs_file]
        apply Reads.token
        apply Reads.token
        have shorter : rest'.length < fuel := by
          rw [isCons, isWord] at enough
          simp only [length_cons] at enough
          omega
        apply (ih rest' shorter).bind
        intro redirections read more _ parsed
        obtain ⟨redirs, isRead, isResult⟩ := parsed
        apply Reads.nothing
        refine ⟨⟨arrow, file⟩ :: redirs, ?_, ?_⟩
        · rw [isRead, append_nil]
          rfl
        · rw [isResult, map_cons]

theorem reads_parseargs (fuel argc : Nat) (ts : List Token) (enough : ts.length < fuel)
    (few : argc ≤ maxArgs - 1) :
    Reads ts
      (fun read result => ∃ arguments : List Argument,
        read = arguments.flatMap Argument.tokens ∧ argc + arguments.length ≤ maxArgs - 1 ∧
          result = (arguments.map Argument.word,
            (arguments.flatMap Argument.redirs).map Redir.redirection))
      (parseargs xv6 tokens fuel argc ts) := by
  induction fuel generalizing argc ts with
  | zero => exact absurd enough (not_lt_zero _)
  | succ fuel ih =>
    cases ts with
    | nil => exact .nothing ⟨[], rfl, few, rfl⟩
    | cons token rest =>
      cases token with
      | word word =>
        rw [parseargs_word]
        split
        case isTrue => trivial
        case isFalse fits =>
          apply Reads.token
          rw [length_cons] at enough
          apply (reads_parseredirs fuel rest (by omega)).bind
          intro redirections read more split parsed
          obtain ⟨redirs, isRead, isResult⟩ := parsed
          have shorter : more.length < fuel := by
            rw [split, length_append] at enough
            omega
          apply (ih (argc + 1) more shorter (by omega)).bind
          intro others read' rest' _ parsed'
          obtain ⟨arguments, isRead', few', isOthers⟩ := parsed'
          apply Reads.nothing
          refine ⟨⟨word, redirs⟩ :: arguments, ?_, ?_, ?_⟩
          · rw [isRead, isRead', append_nil]
            rfl
          · rw [length_cons]
            omega
          · rw [isResult, isOthers, map_cons, flatMap_cons, map_append]
      | lt | gt | append | bar | amp | semi | lparen | rparen =>
        rw [parseargs_mark fuel argc _ rest (by decide)]
        split
        case isTrue => exact .nothing ⟨[], rfl, few, rfl⟩
        case isFalse => trivial

theorem foldl_redir (redirs : List Redir) (cmd : Cmd (List Char)) :
    (redirs.map Redir.redirection).foldl .redir cmd = wrap redirs cmd := by
  rw [wrap, foldl_map]

theorem reads_parsesimple (fuel : Nat) (ts : List Token) (enough : ts.length < fuel) :
    Reads ts (Derives .exec) (parsesimple xv6 tokens fuel ts) := by
  apply (reads_parseredirs fuel ts enough).bind
  intro redirections read rest split parsed
  obtain ⟨redirs, isRead, isResult⟩ := parsed
  have shorter : rest.length < fuel := by
    rw [split, length_append] at enough
    omega
  apply (reads_parseargs fuel 0 rest shorter (by decide)).bind
  intro others read' rest' _ parsed'
  obtain ⟨arguments, isRead', few, isOthers⟩ := parsed'
  apply Reads.nothing
  rw [isRead, isRead', isResult, isOthers, append_nil, ← map_append, foldl_redir]
  exact .simple redirs arguments (by omega)

theorem reads_parseback (fuel : Nat) (cmd : Cmd (List Char)) (ts : List Token)
    (enough : ts.length < fuel) :
    Reads ts (fun read result => ∃ n, read = List.replicate n .amp ∧ result = Cmd.back^[n] cmd)
      (parseback tokens fuel cmd ts) := by
  induction fuel generalizing cmd ts with
  | zero => exact absurd enough (not_lt_zero _)
  | succ fuel ih =>
    rw [parseback_tokens]
    split
    case h_2 => exact .nothing ⟨0, rfl, rfl⟩
    case h_1 rest =>
      rw [length_cons] at enough
      apply Reads.token
      apply (ih (.back cmd) rest (by omega)).mono
      intro read result parsed
      obtain ⟨n, isRead, isResult⟩ := parsed
      refine ⟨n + 1, ?_, ?_⟩
      · rw [isRead, replicate_succ]
      · rw [isResult, Function.iterate_succ_apply]

/-- The parser of a nonterminal, over tokens. -/
def parse : Nonterminal → Nat → List Token → Except Fault (Cmd (List Char) × List Token)
  | .line => parseline tokens
  | .pipe => parsepipe tokens
  | .exec => parseexec tokens

/-- The calls that may be open without a token taken. -/
def Nonterminal.depth : Nonterminal → Nat
  | .line => 4
  | .pipe => 3
  | .exec => 2

theorem reads_parseblock (enough : 4 * rest.length + 4 ≤ fuel)
    (inner : Reads rest (Derives .line) (parseline tokens fuel rest)) :
    Reads (.lparen :: rest) (Derives .exec) (parseblock tokens (fuel + 1) (.lparen :: rest)) := by
  rw [parseblock_lparen]
  apply Reads.token
  apply inner.bind
  intro cmd read more split derives
  split
  case h_2 => trivial
  case h_1 rest' isClose =>
    change more = .rparen :: rest' at isClose
    rw [isClose]
    apply Reads.token
    have shorter : rest'.length < fuel := by
      rw [split, isClose, length_append, length_cons] at enough
      omega
    apply (reads_parseredirs fuel rest' shorter).bind
    intro redirections read' last _ parsed
    obtain ⟨redirs, isRead, isResult⟩ := parsed
    apply Reads.nothing
    rw [isRead, isResult, append_nil, foldl_redir]
    exact .block redirs derives

/-- With fuel for four calls a token, a call dies or reads what the grammar derives.  The
functions call each other with less fuel, so this is one induction for all of them. -/
theorem reads_parse (fuel : Nat) (symbol : Nonterminal) (ts : List Token)
    (enough : 4 * ts.length + symbol.depth ≤ fuel) :
    Reads ts (Derives symbol) (parse symbol fuel ts) := by
  induction fuel using Nat.strong_induction_on generalizing symbol ts with
  | _ fuel ih =>
    cases fuel with
    | zero => cases symbol <;> exact absurd enough (not_succ_le_zero _)
    | succ fuel =>
      cases symbol with
      | line =>
        simp only [Nonterminal.depth] at enough
        rw [parse, parseline_tokens]
        apply (ih fuel (lt_succ_self _) .pipe ts (by simp only [Nonterminal.depth]; omega)).bind
        intro cmd read rest split derives
        rw [split, length_append] at enough
        apply (reads_parseback fuel cmd rest (by omega)).bind
        intro backs read' rest' split' parsed
        obtain ⟨n, isRead, isBacks⟩ := parsed
        split
        case h_2 =>
          apply Reads.nothing
          rw [isRead, isBacks, append_nil]
          exact .line n derives
        case h_1 rest'' isSemi =>
          change rest' = .semi :: rest'' at isSemi
          rw [isSemi]
          apply Reads.token
          have shorter : 4 * rest''.length + 4 ≤ fuel := by
            rw [split', isSemi, length_append, length_cons] at enough
            omega
          apply (ih fuel (lt_succ_self _) .line rest'' shorter).bind
          intro cmd' read'' last _ derives'
          apply Reads.nothing
          rw [isRead, isBacks, append_nil, ← append_assoc]
          exact .list n derives derives'
      | pipe =>
        simp only [Nonterminal.depth] at enough
        rw [parse, parsepipe_tokens]
        apply (ih fuel (lt_succ_self _) .exec ts (by simp only [Nonterminal.depth]; omega)).bind
        intro cmd read rest split derives
        split
        case h_2 =>
          apply Reads.nothing
          rw [append_nil]
          exact .exec derives
        case h_1 rest' isBar =>
          change rest = .bar :: rest' at isBar
          rw [isBar]
          apply Reads.token
          have shorter : 4 * rest'.length + 3 ≤ fuel := by
            rw [split, isBar, length_append, length_cons] at enough
            omega
          apply (ih fuel (lt_succ_self _) .pipe rest' shorter).bind
          intro cmd' read' last _ derives'
          apply Reads.nothing
          rw [append_nil]
          exact .pipe derives derives'
      | exec =>
        simp only [Nonterminal.depth] at enough
        rw [parse, parseexec_tokens]
        split
        case h_2 => exact reads_parsesimple fuel ts (by omega)
        case h_1 rest =>
          -- a block: two calls further down, `parseline` starts behind the parenthesis
          rw [length_cons] at enough
          obtain ⟨fuel, rfl⟩ : ∃ less, fuel = less + 1 := ⟨fuel - 1, by omega⟩
          apply reads_parseblock (by omega)
          exact ih fuel (by omega) .line rest (by simp only [Nonterminal.depth]; omega)

/-! ## Every derivation is found -/

/-- The tokens that may stand after what the nonterminal derives. -/
def Nonterminal.follow : Nonterminal → List Token
  | .line => [.rparen]
  | .pipe => [.rparen, .amp, .semi]
  | .exec => [.bar, .rparen, .amp, .semi]

def Follows (symbol : Nonterminal) (rest : List Token) : Prop :=
  ∀ token, rest.head? = some token → token ∈ symbol.follow

theorem Follows.cons {token : Token} (rest : List Token)
    (member : token ∈ symbol.follow) : Follows symbol (token :: rest) := by
  intro other isHead
  cases isHead
  exact member

theorem Follows.weaken {symbol' : Nonterminal}
    (follows : Follows symbol rest) (fewer : symbol.follow ⊆ symbol'.follow) :
    Follows symbol' rest :=
  fun token isHead => fewer (follows token isHead)

theorem parseredirs_derives (redirs : List Redir)
    (stop : rest.head?.bind Token.arrow? = none) (enough : redirs.length < fuel) :
    parseredirs xv6 tokens fuel (redirs.flatMap Redir.tokens ++ rest) =
      .ok (redirs.map Redir.redirection, rest) := by
  induction redirs generalizing fuel with
  | nil =>
    obtain ⟨fuel, rfl⟩ : ∃ less, fuel = less + 1 := ⟨fuel - 1, by omega⟩
    exact parseredirs_stop fuel stop
  | cons redir redirs ih =>
    rw [length_cons] at enough
    obtain ⟨fuel, rfl⟩ : ∃ less, fuel = less + 1 := ⟨fuel - 1, by omega⟩
    rw [flatMap_cons, Redir.tokens]
    simp only [cons_append, nil_append]
    rw [parseredirs_file, ih (by omega)]
    rfl

theorem length_redirs (redirs : List Redir) :
    (redirs.flatMap Redir.tokens).length = 2 * redirs.length := by
  induction redirs with
  | nil => rfl
  | cons redir redirs ih =>
    rw [flatMap_cons, length_append, Redir.tokens]
    simp only [length_cons, length_nil]
    omega

theorem arguments_stop (arguments : List Argument) (follows : Follows .exec rest) :
    (arguments.flatMap Argument.tokens ++ rest).head?.bind Token.arrow? = none := by
  cases arguments with
  | cons argument arguments => rfl
  | nil =>
    cases rest with
    | nil => rfl
    | cons token rest =>
      have allowed := follows token rfl
      simp only [Nonterminal.follow, mem_cons, not_mem_nil, or_false] at allowed
      obtain rfl | rfl | rfl | rfl := allowed <;> rfl

theorem parseargs_derives (arguments : List Argument) {argc : Nat}
    (few : argc + arguments.length ≤ maxArgs - 1) (follows : Follows .exec rest)
    (enough : (arguments.flatMap Argument.tokens).length < fuel) :
    parseargs xv6 tokens fuel argc (arguments.flatMap Argument.tokens ++ rest) =
      .ok ((arguments.map Argument.word,
        (arguments.flatMap Argument.redirs).map Redir.redirection), rest) := by
  induction arguments generalizing argc fuel with
  | nil =>
    obtain ⟨fuel, rfl⟩ : ∃ less, fuel = less + 1 := ⟨fuel - 1, by omega⟩
    cases rest with
    | nil => rfl
    | cons token rest =>
      have allowed : token ∈ [.bar, .rparen, .amp, .semi] := follows token rfl
      have mark : token.mark ≠ none := by
        intro noMark
        cases token with
        | word text => exact absurd allowed (by simp)
        | lt | gt | append | bar | amp | semi | lparen | rparen => cases noMark
      rw [flatMap_nil, nil_append, parseargs_mark fuel argc token rest mark,
        if_pos allowed]
      rfl
  | cons argument arguments ih =>
    rw [flatMap_cons, length_append] at enough
    rw [length_cons] at few
    have words := length_redirs argument.redirs
    rw [Argument.tokens, length_cons] at enough
    obtain ⟨fuel, rfl⟩ : ∃ less, fuel = less + 1 := ⟨fuel - 1, by omega⟩
    have fits : ¬ argc + 1 ≥ maxArgs := by
      omega
    rw [flatMap_cons, append_assoc, Argument.tokens, cons_append, parseargs_word,
      if_neg fits, parseredirs_derives argument.redirs (arguments_stop arguments follows) (by omega)]
    show (parseargs xv6 tokens fuel (argc + 1) _ >>= _) = _
    rw [ih (by omega) (by omega)]
    simp only [flatMap_cons, map_append]
    rfl

theorem parseback_derives (n : Nat) (cmd : Cmd (List Char))
    (stop : rest.head? ≠ some .amp) (enough : n < fuel) :
    parseback tokens fuel cmd (List.replicate n .amp ++ rest) = .ok (Cmd.back^[n] cmd, rest) := by
  induction n generalizing cmd fuel with
  | zero =>
    obtain ⟨fuel, rfl⟩ : ∃ less, fuel = less + 1 := ⟨fuel - 1, by omega⟩
    rw [replicate_zero, nil_append, parseback_tokens]
    split
    case h_1 => exact absurd rfl stop
    case h_2 => rfl
  | succ n ih =>
    obtain ⟨fuel, rfl⟩ : ∃ less, fuel = less + 1 := ⟨fuel - 1, by omega⟩
    exact ih (.back cmd) (by omega)

/-- Before a token that may follow, the parser reads all that the grammar derives. -/
theorem parse_derives {ts : List Token} {cmd : Cmd (List Char)}
    (derives : Derives symbol ts cmd) (follows : Follows symbol rest)
    (enough : 4 * ts.length + symbol.depth ≤ fuel) :
    parse symbol fuel (ts ++ rest) = .ok (cmd, rest) := by
  induction derives generalizing rest fuel with
  | @line ts cmd n first ih =>
    simp only [Nonterminal.depth, length_append, length_replicate] at enough
    obtain ⟨fuel, rfl⟩ : ∃ less, fuel = less + 1 := ⟨fuel - 1, by omega⟩
    have pipeEnds : Follows .pipe (replicate n .amp ++ rest) := by
      cases n with
      | zero => exact follows.weaken (by decide)
      | succ n => exact .cons _ (by decide)
    have stop : rest.head? ≠ some .amp := fun isAmp => absurd (follows _ isAmp) (by decide)
    have pipeOk : parsepipe tokens fuel (ts ++ (replicate n .amp ++ rest)) =
        .ok (cmd, replicate n .amp ++ rest) :=
      ih pipeEnds (by simp only [Nonterminal.depth]; omega)
    rw [parse, parseline_tokens, append_assoc, pipeOk]
    show (parseback tokens fuel cmd (replicate n .amp ++ rest) >>= _) = _
    rw [parseback_derives n cmd stop (by omega)]
    show (match rest with | .semi :: _ => _ | _ => _) = _
    split
    case h_1 => exact absurd (follows _ rfl) (by decide)
    case h_2 => rfl
  | @list ts ts' cmd cmd' n first second ih ih' =>
    simp only [Nonterminal.depth, length_append, length_replicate,
      length_cons] at enough
    obtain ⟨fuel, rfl⟩ : ∃ less, fuel = less + 1 := ⟨fuel - 1, by omega⟩
    have pipeEnds : Follows .pipe (replicate n .amp ++ .semi :: (ts' ++ rest)) := by
      cases n with
      | zero => exact .cons _ (by decide)
      | succ n => exact .cons _ (by decide)
    have pipeOk : parsepipe tokens fuel (ts ++ (replicate n .amp ++ .semi :: (ts' ++ rest))) =
        .ok (cmd, replicate n .amp ++ .semi :: (ts' ++ rest)) :=
      ih pipeEnds (by simp only [Nonterminal.depth]; omega)
    have lineOk : parseline tokens fuel (ts' ++ rest) = .ok (cmd', rest) :=
      ih' follows (by simp only [Nonterminal.depth]; omega)
    rw [parse, parseline_tokens, append_assoc, cons_append, append_assoc, pipeOk]
    show (parseback tokens fuel cmd (replicate n .amp ++ .semi :: (ts' ++ rest)) >>= _) = _
    rw [parseback_derives n cmd (by simp) (by omega)]
    show (parseline tokens fuel (ts' ++ rest) >>= _) = _
    rw [lineOk]
    rfl
  | @exec ts cmd only ih =>
    simp only [Nonterminal.depth] at enough
    obtain ⟨fuel, rfl⟩ : ∃ less, fuel = less + 1 := ⟨fuel - 1, by omega⟩
    have execOk : parseexec tokens fuel (ts ++ rest) = .ok (cmd, rest) :=
      ih (follows.weaken (by decide)) (by simp only [Nonterminal.depth]; omega)
    rw [parse, parsepipe_tokens, execOk]
    show (match rest with | .bar :: _ => _ | _ => _) = _
    split
    case h_1 => exact absurd (follows _ rfl) (by decide)
    case h_2 => rfl
  | @pipe ts ts' cmd cmd' first second ih ih' =>
    simp only [length_append, length_cons] at enough
    obtain ⟨fuel, rfl⟩ : ∃ less, fuel = less + 1 := ⟨fuel - 1, by omega⟩
    have execOk : parseexec tokens fuel (ts ++ .bar :: (ts' ++ rest)) =
        .ok (cmd, .bar :: (ts' ++ rest)) :=
      ih (.cons _ (by decide)) (by simp only [Nonterminal.depth]; omega)
    have pipeOk : parsepipe tokens fuel (ts' ++ rest) = .ok (cmd', rest) :=
      ih' follows (by simp only [Nonterminal.depth]; omega)
    rw [parse, parsepipe_tokens, append_assoc, cons_append, execOk]
    show (parsepipe tokens fuel (ts' ++ rest) >>= _) = _
    rw [pipeOk]
    rfl
  | @block ts cmd redirs inner ih =>
    simp only [length_append, length_cons] at enough
    obtain ⟨fuel, rfl⟩ : ∃ less, fuel = less + 2 := ⟨fuel - 2, by omega⟩
    have lineOk : parseline tokens fuel (ts ++ .rparen :: (redirs.flatMap Redir.tokens ++ rest)) =
        .ok (cmd, .rparen :: (redirs.flatMap Redir.tokens ++ rest)) :=
      ih (.cons _ (by decide)) (by simp only [Nonterminal.depth]; omega)
    have stop : rest.head?.bind Token.arrow? = none := arguments_stop [] follows
    rw [parse, parseexec_tokens, cons_append, cons_append]
    rw [parseblock_lparen, append_assoc, cons_append, lineOk]
    show (parseredirs xv6 tokens fuel (redirs.flatMap Redir.tokens ++ rest) >>= _) = _
    rw [parseredirs_derives redirs stop (by have := length_redirs redirs; omega)]
    show Except.ok (foldl Cmd.redir cmd (redirs.map Redir.redirection), rest) = _
    rw [foldl_redir]
  | simple redirs arguments few =>
    simp only [Nonterminal.depth, length_append] at enough
    obtain ⟨fuel, rfl⟩ : ∃ less, fuel = less + 1 := ⟨fuel - 1, by omega⟩
    have notBlock : ∀ more, redirs.flatMap Redir.tokens ++ arguments.flatMap Argument.tokens ++
        rest ≠ .lparen :: more := by
      intro more isBlock
      cases redirs with
      | cons redir redirs =>
        obtain ⟨arrow, file⟩ := redir
        cases arrow <;> cases isBlock
      | nil =>
        cases arguments with
        | cons argument arguments => cases isBlock
        | nil =>
          change rest = .lparen :: more at isBlock
          rw [isBlock] at follows
          exact absurd (follows _ rfl) (by decide)
    rw [parse, parseexec_tokens]
    split
    case h_1 more isBlock => exact absurd isBlock (notBlock more)
    case h_2 =>
      rw [parsesimple, append_assoc,
        parseredirs_derives redirs (arguments_stop arguments follows)
          (by have := length_redirs redirs; omega)]
      show (parseargs xv6 tokens fuel 0 (arguments.flatMap Argument.tokens ++ rest) >>= _) = _
      rw [parseargs_derives arguments (by omega) follows (by omega)]
      show Except.ok (foldl Cmd.redir _ (redirs.map Redir.redirection ++ _), rest) = _
      rw [← map_append, foldl_redir]

/-! ## Lines -/

theorem length_tokenize (line : List Char) : (tokenize line).length ≤ line.length := by
  fun_induction tokenize line with
  | case1 => exact le_refl _
  | case2 c rest white ih =>
    rw [length_cons]
    omega
  | case3 rest twice white ih =>
    rw [length_drop] at ih
    rw [length_cons, length_cons]
    omega
  | case4 rest single white ih =>
    rw [length_cons, length_cons]
    omega
  | case5 c rest white isGt token found ih =>
    rw [length_cons, length_cons]
    omega
  | case6 c rest white isGt none ih =>
    have shorter := (dropWhile_sublist (isWord symbols) (l := rest)).length_le
    rw [length_cons, length_cons]
    omega

theorem parsecmd_of_ok {s : Nat} {cmd : Cmd Slice}
    (ok : parseline (chars line) fuel 0 = .ok (cmd, s)) :
    parsecmd fuel line =
      if skip isWhitespace line s = line.length then .ok (cmd, nulterminate cmd (line ++ [nul]))
      else .error (.died "syntax") := by
  rw [parsecmd, ok]
  show (if skip isWhitespace line s ≠ line.length then _ else _) = _
  rw [ite_not]
  rfl

/-- The pointers of an accepted line read as what stood between them, when the terminators have
been written. -/
theorem nulterminate_keeps_tokens {memory : List Char} (clean : nul ∉ line)
    {cmd : Cmd Slice} (parsed : parsecmd fuel line = .ok (cmd, memory)) :
    ∀ word ∈ cmd.words, stringAt memory word.start =
      (line.drop word.start).take (word.stop - word.start) := by
  intro word member
  have start : Before line 0 (tokenize line) := ⟨zero_le _, rfl⟩
  obtain ⟨⟨cmd', s⟩, ok, -⟩ := bind_eq_ok.mp parsed
  obtain ⟨words, -, related, -⟩ := (((chars_sim clean).parse fuel start).1).of_ok ok
  rw [parsecmd_of_ok ok] at parsed
  split at parsed
  case isFalse => cases parsed
  case isTrue =>
    cases parsed
    obtain ⟨text, spans⟩ := related.exists_word member
    rw [stringAt_nulterminate clean related member spans, spans.between]

theorem touching_tokens : ∃ cmd memory,
    parsecmd 40 ['l', 's', '>', 'o', 'u', 't', ';'] = .ok (cmd, memory) ∧
      cmd.words = [⟨0, 2⟩, ⟨3, 6⟩] ∧ stringAt memory 0 = ['l', 's'] ∧
      stringAt memory 3 = ['o', 'u', 't'] := by
  have parsed : parsecmd 40 ['l', 's', '>', 'o', 'u', 't', ';'] =
      .ok (.list (.redir (.exec [⟨0, 2⟩]) ⟨⟨3, 6⟩, [.wronly, .create], 1⟩) (.exec []),
        ['l', 's', nul, 'o', 'u', 't', nul, nul]) := by
    decide
  have tokens := nulterminate_keeps_tokens (by decide) parsed
  exact ⟨_, _, parsed, rfl, tokens ⟨0, 2⟩ (by decide), tokens ⟨3, 6⟩ (by decide)⟩

/-- `parsecmd` accepts a line exactly when the parser takes all its tokens, and the strings
of its result are the words of theirs. -/
theorem parsecmd_iff_tokens (clean : nul ∉ line) (fuel : Nat) (words : Cmd (List Char)) :
    (∃ cmd memory, parsecmd fuel line = .ok (cmd, memory) ∧ cmd.strings memory = words) ↔
      parseline tokens fuel (tokenize line) = .ok (words, []) := by
  have start : Before line 0 (tokenize line) := ⟨zero_le _, rfl⟩
  have agree := ((chars_sim clean).parse fuel start).1
  constructor
  · intro accepted
    obtain ⟨cmd, memory, parsed, strings⟩ := accepted
    obtain ⟨⟨cmd', s⟩, ok, -⟩ := bind_eq_ok.mp parsed
    obtain ⟨⟨words', rest⟩, ok', related, before⟩ := agree.of_ok ok
    rw [parsecmd_of_ok ok] at parsed
    split at parsed
    case isFalse => cases parsed
    case isTrue ended =>
      cases parsed
      have isNil : rest = [] := (before.skip_eq_length_iff clean).mp ended
      rw [← strings, strings_nulterminate clean related, ok', isNil]
  · intro parsed
    obtain ⟨⟨cmd, s⟩, ok, related, before⟩ := agree.of_ok' parsed
    have ended := (before.skip_eq_length_iff clean).mpr rfl
    refine ⟨cmd, nulterminate cmd (line ++ [nul]), ?_, strings_nulterminate clean related⟩
    rw [parsecmd_of_ok ok, if_pos ended]

theorem parsecmd_fuel (clean : nul ∉ line)
    (enough : 4 * line.length + 4 ≤ fuel) : parsecmd fuel line ≠ .error .noFuel := by
  intro stuck
  have start : Before line 0 (tokenize line) := ⟨zero_le _, rfl⟩
  have agree := ((chars_sim clean).parse fuel start).1
  have length := length_tokenize line
  have reads := reads_parse fuel .line (tokenize line)
    (by simp only [Nonterminal.depth]; omega)
  cases bind_eq_error.mp stuck with
  | inl failed =>
    obtain ⟨fault, failed', same⟩ := agree.of_error failed
    rw [parse, failed', ← same] at reads
    exact reads
  | inr later =>
    obtain ⟨⟨cmd, s⟩, ok, -⟩ := later
    rw [parsecmd_of_ok ok] at stuck
    split at stuck
    case isTrue => cases stuck
    case isFalse => cases stuck

/-- For every line without a terminator in it the parser comes to an end, and it accepts
the line with a command exactly when the grammar derives the line's tokens with that
command. -/
theorem parsecmd_grammar {line : List Char} (clean : nul ∉ line) {fuel : Nat}
    (enough : 4 * line.length + 4 ≤ fuel) :
    parsecmd fuel line ≠ .error .noFuel ∧
    ∀ words : Cmd (List Char),
      (∃ cmd memory, parsecmd fuel line = .ok (cmd, memory) ∧ cmd.strings memory = words) ↔
        Derives .line (tokenize line) words := by
  refine ⟨parsecmd_fuel clean enough, fun words => ?_⟩
  have length := length_tokenize line
  have suffices' : 4 * (tokenize line).length + Nonterminal.depth .line ≤ fuel := by
    simp only [Nonterminal.depth]
    omega
  rw [parsecmd_iff_tokens clean]
  constructor
  · intro parsed
    have reads := reads_parse fuel .line (tokenize line) suffices'
    rw [parse, parsed] at reads
    obtain ⟨read, split, derives⟩ := reads
    rw [append_nil] at split
    rw [split]
    exact derives
  · intro derives
    have follows : Follows .line [] := by
      intro token isHead
      cases isHead
    have parsed := parse_derives derives follows suffices'
    rw [append_nil] at parsed
    exact parsed

theorem block_in_pipe_grammar :
    parsecmd 64 ['a', ' ', '>', 'x', ' ', 'b', '|', '(', 'c', ';', 'd', ')', '&'] ≠
        .error .noFuel ∧
    ∀ words : Cmd (List Char),
      (∃ cmd memory,
        parsecmd 64 ['a', ' ', '>', 'x', ' ', 'b', '|', '(', 'c', ';', 'd', ')', '&'] =
            .ok (cmd, memory) ∧ cmd.strings memory = words) ↔
        Derives .line
          (tokenize ['a', ' ', '>', 'x', ' ', 'b', '|', '(', 'c', ';', 'd', ')', '&']) words :=
  parsecmd_grammar (by decide) (by decide)

example :
    (parsecmd 64 ['a', ' ', '>', 'x', ' ', 'b', '|', '(', 'c', ';', 'd', ')', '&']).toOption.map
        (fun result => result.1.strings result.2) =
      some (.back (.pipe (.redir (.exec [['a'], ['b']]) ⟨['x'], [.wronly, .create], 1⟩)
        (.list (.exec [['c']]) (.exec [['d']])))) := by
  decide

end Laboratorio.Shell
