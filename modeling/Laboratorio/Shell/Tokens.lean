import Mathlib.Data.List.TakeWhile
import Laboratorio.Shell.Stream

/-! # The tokens of a line

`tokenize` cuts a line into its tokens.  `peek` and `gettoken` over the characters of a line
without a terminator in it do what looking at the first token and taking it do over the
tokens (`chars_sim`), and the words that `gettoken` reports are exactly the maximal runs of
characters that are neither blanks nor symbols.  `nulterminate` overwrites only characters
after words, so reading the strings back gives these words (`strings_nulterminate`).
-/

namespace Laboratorio.Shell

open Laboratorio.Lib List Cmd

variable {c : Char} {rest line : List Char} {s : Nat} {slice : Slice}

inductive Token where
  | word (text : List Char)
  | lt
  | gt
  | append
  | bar
  | amp
  | semi
  | lparen
  | rparen
deriving DecidableEq, Repr

namespace Token

/-- The value that `gettoken` returns for the token. -/
def kind : Token → Char
  | word _ => 'a'
  | lt => '<'
  | gt => '>'
  | append => '+'
  | bar => '|'
  | amp => '&'
  | semi => ';'
  | lparen => '('
  | rparen => ')'

/-- The first character of a token that is not a word. -/
def mark : Token → Option Char
  | word _ => none
  | append => some '>'
  | token => some token.kind

def text : Token → List Char
  | word text => text
  | _ => []

end Token

/-- The symbols that are always a token of their own. -/
def punctuation : Char → Option Token
  | '<' => some .lt
  | '|' => some .bar
  | '&' => some .amp
  | ';' => some .semi
  | '(' => some .lparen
  | ')' => some .rparen
  | _ => none

def tokenize : List Char → List Token
  | [] => []
  | c :: rest =>
    if isWhitespace c then
      tokenize rest
    else if c = '>' then
      if rest.head? = some '>' then .append :: tokenize (rest.drop 1) else .gt :: tokenize rest
    else
      match punctuation c with
      | some token => token :: tokenize rest
      | none =>
        .word (c :: rest.takeWhile (isWord symbols)) ::
          tokenize (rest.dropWhile (isWord symbols))
termination_by line => line.length
decreasing_by
  all_goals simp only [List.length_cons, List.length_drop]
  all_goals first
    | omega
    | exact Nat.lt_succ_of_le (List.dropWhile_sublist _).length_le

/-- The tokens as a stream. -/
def tokens : Stream (List Token) (List Char) where
  peek ts toks := ⟨(ts.head?.bind Token.mark).any toks.contains, ts⟩
  gettoken
    | [] => ⟨nul, [], []⟩
    | token :: rest => ⟨token.kind, token.text, rest⟩

/-! ## One token -/

theorem isWord_iff (visible : isWhitespace c = false) : isWord symbols c = true ↔ c ∉ symbols := by
  simp only [isWhitespace] at visible
  rw [isWord, visible, Bool.not_false, Bool.true_and, Bool.not_eq_true', contains_eq_mem,
    decide_eq_false_iff_not]

theorem punctuation_none (notGt : c ≠ '>') (none : punctuation c = none) : c ∉ symbols := by
  intro symbol
  simp only [symbols, mem_cons, not_mem_nil, or_false] at symbol
  obtain rfl | rfl | rfl | rfl | rfl | rfl | rfl := symbol
  all_goals first
    | exact notGt rfl
    | simp [punctuation] at none

theorem punctuation_some {token : Token} (some : punctuation c = some token) :
    c ∈ ['|', '(', ')', ';', '&', '<'] ∧ token.kind = c ∧ token.mark = .some c := by
  simp only [punctuation] at some
  split at some <;> cases some <;> decide

theorem tokenize_white (white : isWhitespace c = true) : tokenize (c :: rest) = tokenize rest := by
  rw [tokenize, if_pos white]

theorem tokenize_dropWhile (line : List Char) :
    tokenize (line.dropWhile isWhitespace) = tokenize line := by
  induction line with
  | nil => rfl
  | cons c rest ih =>
    by_cases white : isWhitespace c = true
    · rw [dropWhile_cons_of_pos white, ih, tokenize_white white]
    · rw [dropWhile_cons_of_neg white]

/-- The mark of the first token of a line that does not start with a blank. -/
theorem mark_tokenize (visible : isWhitespace c = false) :
    (tokenize (c :: rest)).head?.bind Token.mark = if c ∈ symbols then some c else none := by
  rw [tokenize, if_neg (by rw [visible]; decide)]
  by_cases isGt : c = '>'
  · rw [if_pos isGt, isGt]
    split <;> rfl
  · rw [if_neg isGt]
    split
    case h_1 token found =>
      obtain ⟨member, -, mark⟩ := punctuation_some found
      have symbol : c ∈ symbols := by
        revert member
        simp only [symbols, mem_cons]
        tauto
      rw [if_pos symbol]
      exact mark
    case h_2 none =>
      rw [if_neg (punctuation_none isGt none)]
      rfl

/-! ## The cursor and the rest of the line -/

theorem drop_skip (test : Char → Bool) (line : List Char) (s : Nat) :
    line.drop (skip test line s) = (line.drop s).dropWhile test := by
  rw [skip, ← drop_drop]
  generalize line.drop s = rest
  induction rest with
  | nil => rfl
  | cons c rest ih =>
    by_cases passes : test c = true
    · rw [takeWhile_cons_of_pos passes, dropWhile_cons_of_pos passes]
      exact ih
    · rw [takeWhile_cons_of_neg passes, dropWhile_cons_of_neg passes]
      rfl

theorem skip_le (test : Char → Bool) (within : s ≤ line.length) :
    skip test line s ≤ line.length := by
  have shorter := (takeWhile_sublist test (l := line.drop s)).length_le
  rw [length_drop] at shorter
  rw [skip]
  omega

theorem tokenize_skip (line : List Char) (s : Nat) :
    tokenize (line.drop (skip isWhitespace line s)) = tokenize (line.drop s) := by
  rw [drop_skip, tokenize_dropWhile]

theorem charAt_drop (line : List Char) (s : Nat) : charAt line s = (line.drop s).head?.getD nul := by
  rw [charAt, getD_eq_getElem?_getD, head?_drop]

theorem skip_cases (clean : nul ∉ line) (s : Nat) :
    line.drop (skip isWhitespace line s) = [] ∨
      ∃ c rest, line.drop (skip isWhitespace line s) = c :: rest ∧ isWhitespace c = false ∧
        c ≠ nul := by
  cases ahead : line.drop (skip isWhitespace line s) with
  | nil => exact .inl rfl
  | cons c rest =>
    refine .inr ⟨c, rest, rfl, ?_, ?_⟩
    · rw [drop_skip] at ahead
      have head := head?_dropWhile_not isWhitespace (line.drop s)
      rw [ahead] at head
      simpa using head
    · intro isNul
      have member : c ∈ line.drop (skip isWhitespace line s) := by
        rw [ahead]
        exact mem_cons_self
      rw [isNul] at member
      exact clean (mem_of_mem_drop member)

/-! ## Words -/

/-- The slice is a maximal run of word characters of the line and its text is `word`. -/
structure Spans (line : List Char) (slice : Slice) (word : List Char) : Prop where
  text : ∀ k, k < word.length → (line)[slice.start + k]? = word[k]?
  stop : slice.stop = slice.start + word.length
  letters : ∀ c ∈ word, isWord symbols c = true
  ends : ∀ c, (line)[slice.stop]? = some c → isWord symbols c = false
  inside : slice.stop ≤ line.length

theorem Spans.between {word : List Char} (spans : Spans line slice word) :
    (line.drop slice.start).take (slice.stop - slice.start) = word := by
  have length : slice.stop - slice.start = word.length := by rw [spans.stop]; omega
  apply ext_getElem?
  intro k
  rw [length]
  by_cases inside : k < word.length
  · rw [getElem?_take_of_lt inside, getElem?_drop, spans.text k inside]
  · rw [getElem?_eq_none (by rw [length_take]; omega),
      getElem?_eq_none (by omega)]

theorem Spans.clean {word : List Char} (spans : Spans line slice word)
    (clean : nul ∉ line) : nul ∉ word := by
  rw [← spans.between]
  exact fun isIn => clean (mem_of_mem_drop (mem_of_mem_take isIn))

theorem spans_skip (within : s ≤ line.length) :
    Spans line ⟨s, skip (isWord symbols) line s⟩ ((line.drop s).takeWhile (isWord symbols)) where
  text k inside := by
    have split := takeWhile_append_dropWhile (p := isWord symbols) (l := line.drop s)
    rw [← getElem?_drop, ← getElem?_append_left inside, split]
  stop := rfl
  letters c member := mem_takeWhile_imp member
  ends c found := by
    have head := head?_dropWhile_not (isWord symbols) (line.drop s)
    rw [← drop_skip, head?_drop, found] at head
    simpa using head
  inside := skip_le _ within

theorem scanToken_tokenize
    (ahead : line.drop s = c :: rest) (visible : isWhitespace c = false) (notNul : c ≠ nul) :
    ∃ token ts, tokenize (line.drop s) = token :: ts ∧ (scanToken line s).1 = token.kind ∧
      (token.kind = 'a' → Spans line ⟨s, (scanToken line s).2⟩ token.text) ∧
      (scanToken line s).2 ≤ line.length ∧ tokenize (line.drop (scanToken line s).2) = ts := by
  have here : charAt line s = c := by rw [charAt_drop, ahead, head?_cons, Option.getD_some]
  have after : line.drop (s + 1) = rest := by rw [← drop_drop, ahead]; rfl
  have length : line.length - s = rest.length + 1 := by
    rw [← length_drop, ahead, length_cons]
  rw [ahead, tokenize, if_neg (by rw [visible]; decide)]
  by_cases isGt : c = '>'
  · subst isGt
    have next : charAt line (s + 1) = rest.head?.getD nul := by rw [charAt_drop, after]
    by_cases twice : rest.head? = some '>'
    · have scan : scanToken line s = ('+', s + 2) := by
        simp only [scanToken, here, next, twice, Option.getD_some]
        rw [if_neg (by decide), if_neg (by decide), if_pos trivial, if_pos trivial]
      rw [if_pos twice, scan]
      refine ⟨_, _, rfl, rfl, fun word => absurd word (by decide), ?_, ?_⟩
      · obtain ⟨rest', isCons⟩ := head?_eq_some_iff.mp twice
        rw [isCons, length_cons] at length
        omega
      · rw [← after, drop_drop]
    · have scan : scanToken line s = ('>', s + 1) := by
        have single : ¬ charAt line (s + 1) = '>' := by
          rw [next]
          intro same
          cases head : rest.head? with
          | none =>
            rw [head] at same
            exact absurd same (by decide)
          | some d =>
            rw [head, Option.getD_some] at same
            exact twice (by rw [head, same])
        simp only [scanToken, here, if_neg single]
        rw [if_neg (by decide), if_neg (by decide), if_pos trivial]
      rw [if_neg twice, scan]
      refine ⟨_, _, rfl, rfl, fun word => absurd word (by decide), ?_, by rw [after]⟩
      omega
  · rw [if_neg isGt]
    split
    case h_1 token found =>
      obtain ⟨member, kind, -⟩ := punctuation_some found
      have scan : scanToken line s = (c, s + 1) := by
        simp only [scanToken, here, if_neg notNul, if_pos member]
      rw [scan]
      refine ⟨token, _, rfl, kind.symm, ?_, ?_, by rw [after]⟩
      · intro word
        -- a symbol is never reported as a word
        rw [kind] at word
        subst word
        exact absurd member (by decide)
      · simp only
        omega
    case h_2 none =>
      have notSymbol := punctuation_none isGt none
      have letter : isWord symbols c = true := (isWord_iff visible).mpr notSymbol
      have notMember : c ∉ ['|', '(', ')', ';', '&', '<'] := by
        intro member
        apply notSymbol
        revert member
        simp only [symbols, mem_cons]
        tauto
      have scan : scanToken line s = ('a', skip (isWord symbols) line s) := by
        simp only [scanToken, here, if_neg notNul, if_neg notMember, if_neg isGt]
      have within : s ≤ line.length := by omega
      have word := spans_skip within
      rw [ahead, takeWhile_cons_of_pos letter] at word
      rw [scan]
      refine ⟨_, _, rfl, rfl, fun _ => word, skip_le _ within, ?_⟩
      rw [drop_skip, ahead, dropWhile_cons_of_pos letter]

/-- The cursor is inside the line and the tokens are those of the rest of the line. -/
def Before (line : List Char) (s : Nat) (ts : List Token) : Prop :=
  s ≤ line.length ∧ tokenize (line.drop s) = ts

/-- Over a line, the parser sees its tokens. -/
theorem chars_sim (clean : nul ∉ line) :
    (chars line).Sim tokens symbols (Before line) (Spans line) where
  peek {s ts} same toks asks := by
    obtain ⟨within, same⟩ := same
    subst same
    refine ⟨?_, skip_le _ within, tokenize_skip line s⟩
    show (peek line s toks).found = _
    simp only [peek, tokens]
    rw [← tokenize_skip, charAt_drop]
    cases skip_cases clean s with
    | inl ended =>
      rw [ended, tokenize]
      rfl
    | inr visible =>
      obtain ⟨c, rest, ahead, visible, notNul⟩ := visible
      rw [ahead, mark_tokenize visible]
      by_cases symbol : c ∈ symbols
      · simp [symbol, notNul]
      · have notAsked : c ∉ toks := fun member => symbol (asks member)
        simp [symbol, notAsked]
  gettoken {s ts} same := by
    obtain ⟨within, same⟩ := same
    subst same
    show (gettoken line s).tok = _ ∧ (_ → Spans line (gettoken line s).text _) ∧
      Before line (gettoken line s).next _
    simp only [gettoken, Before, tokenize_skip]
    rw [← tokenize_skip line s]
    cases skip_cases clean s with
    | inl ended =>
      have scan : scanToken line (skip isWhitespace line s) =
          (nul, skip isWhitespace line s) := by
        have here : charAt line (skip isWhitespace line s) = nul := by
          rw [charAt_drop, ended]
          rfl
        simp [scanToken, here]
      rw [scan, ended, tokenize]
      exact ⟨rfl, fun word => absurd word (by decide), skip_le _ (skip_le _ within), rfl⟩
    | inr visible =>
      obtain ⟨c, rest, ahead, visible, notNul⟩ := visible
      obtain ⟨token, ts, tokens, kind, text, inside, next⟩ :=
        scanToken_tokenize ahead visible notNul
      rw [tokens]
      exact ⟨kind, text, skip_le _ inside, next⟩

theorem Before.skip_eq_length_iff {ts : List Token}
    (clean : nul ∉ line) (before : Before line s ts) :
    skip isWhitespace line s = line.length ↔ ts = [] := by
  obtain ⟨within, same⟩ := before
  rw [← same, ← tokenize_skip]
  cases skip_cases clean s with
  | inl ended =>
    have reached := drop_eq_nil_iff.mp ended
    have bounded := skip_le isWhitespace within
    rw [ended, tokenize]
    simp only [iff_true]
    omega
  | inr visible =>
    obtain ⟨c, rest, ahead, visible, notNul⟩ := visible
    obtain ⟨token, ts, tokens, -⟩ := scanToken_tokenize ahead visible notNul
    rw [tokens]
    constructor
    · intro ended
      rw [ended, drop_length] at ahead
      cases ahead
    · intro none
      cases none

/-! ## Terminators -/

/-- All the words of a command, file names included. -/
def Cmd.words {W : Type} : Cmd W → List W
  | .exec argv => argv
  | .redir cmd redirection => cmd.words ++ [redirection.file]
  | .pipe left right => left.words ++ right.words
  | .list left right => left.words ++ right.words
  | .back cmd => cmd.words

theorem nulterminate_words (cmd : Cmd Slice) (memory : List Char) :
    nulterminate cmd memory =
      cmd.words.foldl (fun memory word => memory.set word.stop nul) memory := by
  induction cmd generalizing memory with
  | exec argv => rfl
  | redir cmd redirection ih =>
    simp [nulterminate, words, ih]
  | pipe left right left_ih right_ih =>
    simp [nulterminate, words, left_ih, right_ih]
  | list left right left_ih right_ih =>
    simp [nulterminate, words, left_ih, right_ih]
  | back cmd ih => exact ih memory

theorem Cmd.Rel.exists_word {W W' : Type} {T : W → W' → Prop} {cmd : Cmd W} {cmd' : Cmd W'}
    (related : Cmd.Rel T cmd cmd') {word : W} (member : word ∈ cmd.words) : ∃ word', T word word' := by
  induction related with
  | @exec argv argv' words =>
    induction words with
    | nil => cases member
    | cons head tail ih =>
      cases member with
      | head => exact ⟨_, head⟩
      | tail _ member => exact ih member
  | redir inner redirections ih =>
    simp only [words, mem_append, mem_singleton] at member
    cases member with
    | inl member => exact ih member
    | inr isFile => exact ⟨_, isFile ▸ redirections.1⟩
  | pipe first second first_ih second_ih =>
    cases mem_append.mp member with
    | inl member => exact first_ih member
    | inr member => exact second_ih member
  | list first second first_ih second_ih =>
    cases mem_append.mp member with
    | inl member => exact first_ih member
    | inr member => exact second_ih member
  | back inner ih => exact ih member

theorem Cmd.Rel.map_eq {W W' : Type} {T : W → W' → Prop} {cmd : Cmd W} {cmd' : Cmd W'}
    {f : W → W'} (related : Cmd.Rel T cmd cmd')
    (gives : ∀ word ∈ cmd.words, ∀ word', T word word' → f word = word') : cmd.map f = cmd' := by
  induction related with
  | @exec argv argv' words =>
    rw [map]
    have same : argv.map f = argv' := by
      induction words with
      | nil => rfl
      | cons head tail ih =>
        rw [map_cons, gives _ mem_cons_self _ head,
          ih fun word member => gives word (mem_cons_of_mem _ member)]
    rw [same]
  | redir inner redirections ih =>
    simp only [words, mem_append, mem_singleton] at gives
    rw [map, ih fun word member => gives word (.inl member)]
    rw [Redirection.map, gives _ (.inr rfl) _ redirections.1, redirections.2.1, redirections.2.2]
  | pipe first second first_ih second_ih =>
    simp only [words, mem_append] at gives
    rw [map, first_ih fun word member => gives word (.inl member),
      second_ih fun word member => gives word (.inr member)]
  | list first second first_ih second_ih =>
    simp only [words, mem_append] at gives
    rw [map, first_ih fun word member => gives word (.inl member),
      second_ih fun word member => gives word (.inr member)]
  | back inner ih => rw [map, ih gives]

theorem stringAt_eq {memory word : List Char} {start : Nat} (clean : nul ∉ word)
    (text : ∀ k, k < word.length → memory[start + k]? = word[k]?)
    (ended : memory[start + word.length]? = some nul) : stringAt memory start = word := by
  induction word generalizing start with
  | nil =>
    have here : memory[start]? = some nul := ended
    obtain ⟨inside, isNul⟩ := List.getElem?_eq_some_iff.mp here
    rw [stringAt, List.drop_eq_getElem_cons inside, isNul]
    rfl
  | cons c word ih =>
    have here : memory[start]? = some c := text 0 (Nat.succ_pos _)
    obtain ⟨inside, isC⟩ := List.getElem?_eq_some_iff.mp here
    have notNul : (c != nul) = true := by
      rw [bne_iff_ne]
      intro isNul
      exact clean (isNul ▸ List.mem_cons_self)
    have rest : stringAt memory (start + 1) = word := by
      apply ih (fun member => clean (List.mem_cons_of_mem c member))
      · intro k bound
        rw [Nat.add_assoc, Nat.add_comm 1 k]
        exact text (k + 1) (Nat.succ_lt_succ bound)
      · rw [Nat.add_assoc, Nat.add_comm 1]
        exact ended
    rw [stringAt, List.drop_eq_getElem_cons inside, isC]
    rw [stringAt] at rest
    simp [notNul, rest]

theorem getElem?_terminate (words : List Slice) (memory : List Char) {i : Nat}
    (untouched : ∀ word ∈ words, word.stop ≠ i) :
    (words.foldl (fun memory word => memory.set word.stop nul) memory)[i]? = memory[i]? := by
  induction words generalizing memory with
  | nil => rfl
  | cons word words ih =>
    rw [foldl_cons, ih _ fun word member => untouched word (mem_cons_of_mem _ member)]
    rw [getElem?_set_ne (untouched word mem_cons_self)]

theorem getElem?_terminated (words : List Slice) (memory : List Char) {i : Nat}
    (inside : i < memory.length)
    (marked : memory[i]? = some nul ∨ ∃ word ∈ words, word.stop = i) :
    (words.foldl (fun memory word => memory.set word.stop nul) memory)[i]? = some nul := by
  induction words generalizing memory with
  | nil =>
    cases marked with
    | inl here => exact here
    | inr word =>
      obtain ⟨word, member, -⟩ := word
      cases member
  | cons word words ih =>
    rw [foldl_cons]
    apply ih _ (by rw [length_set]; exact inside)
    by_cases here : word.stop = i
    · left
      rw [here, getElem?_set_self inside]
    · cases marked with
      | inl already =>
        left
        rw [getElem?_set_ne here]
        exact already
      | inr later =>
        obtain ⟨other, member, same⟩ := later
        cases member with
        | head => exact absurd same here
        | tail _ member => exact .inr ⟨other, member, same⟩

theorem Spans.apart {text text' : List Char} {slice' : Slice}
    (spans : Spans line slice text) (spans' : Spans line slice' text') {k : Nat}
    (inside : k < text.length) : slice'.stop ≠ slice.start + k := by
  intro same
  have letter := spans.text k inside
  rw [← same, getElem?_eq_getElem inside] at letter
  have ends := spans'.ends _ letter
  rw [spans.letters _ (getElem_mem inside)] at ends
  cases ends

theorem stringAt_nulterminate {text : List Char} (clean : nul ∉ line) {cmd : Cmd Slice}
    {words : Cmd (List Char)} (related : Cmd.Rel (Spans line) cmd words)
    (member : slice ∈ cmd.words) (spans : Spans line slice text) :
    stringAt (nulterminate cmd (line ++ [nul])) slice.start = text := by
  rw [nulterminate_words]
  apply stringAt_eq (spans.clean clean)
  · intro k bound
    have inside : slice.start + k < line.length := by
      have stop := spans.stop
      have within := spans.inside
      omega
    rw [getElem?_terminate, getElem?_append_left inside, spans.text k bound]
    intro other isWord
    obtain ⟨text', spans'⟩ := related.exists_word isWord
    exact spans.apart spans' bound
  · rw [← spans.stop]
    apply getElem?_terminated
    · rw [length_append]
      exact Nat.lt_succ_of_le spans.inside
    · exact .inr ⟨slice, member, rfl⟩

/-- After `nulterminate` the pointers of a command read as the words it was parsed from. -/
theorem strings_nulterminate (clean : nul ∉ line) {cmd : Cmd Slice}
    {words : Cmd (List Char)} (related : Cmd.Rel (Spans line) cmd words) :
    cmd.strings (nulterminate cmd (line ++ [nul])) = words := by
  apply related.map_eq
  intro slice member text spans
  exact stringAt_nulterminate clean related member spans

end Laboratorio.Shell
