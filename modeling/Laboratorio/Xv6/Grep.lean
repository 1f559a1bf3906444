import Mathlib.Computability.Language

/-! # The regular expressions of grep

The matcher of `grep.c` against the language that a pattern denotes.  A string is the list of the
bytes before its NUL.
-/

namespace Laboratorio.Xv6.Grep

open Language
open scoped Computability

abbrev Str := List UInt8

def caret : UInt8 := 94
def dot : UInt8 := 46
def star : UInt8 := 42
def dollar : UInt8 := 36

/-- `matchstar`; `matchhere` is the matcher for the rest of the pattern. -/
def matchstar (c : UInt8) (matchhere : Str → Bool) : Str → Bool
  | [] => matchhere []
  | t :: text => matchhere (t :: text) || ((t == c || c == dot) && matchstar c matchhere text)

def matchchar (c : UInt8) (matchhere : Str → Bool) : Str → Bool
  | [] => false
  | t :: text => (c == dot || c == t) && matchhere text

def matchhere : Str → Str → Bool
  | [], _ => true
  | [c], text => if c = dollar then text.isEmpty else matchchar c (matchhere []) text
  | c :: d :: re, text =>
    if d = star then matchstar c (matchhere re) text else matchchar c (matchhere (d :: re)) text

def matchloop (re : Str) : Str → Bool
  | [] => matchhere re []
  | t :: text => matchhere re (t :: text) || matchloop re text

/-- `match` -/
def matchRe (re text : Str) : Bool :=
  if re.head? = some caret then matchhere re.tail text else matchloop re text

/-! ## What a pattern denotes -/

def chars (c : UInt8) : Language UInt8 :=
  {word | ∃ t, (c = dot ∨ c = t) ∧ word = [t]}

/-- The texts that begin with a match. -/
def beginning : Str → Language UInt8
  | [] => ⊤
  | [c] => if c = dollar then 1 else chars c * ⊤
  | c :: d :: re => if d = star then (chars c)∗ * beginning re else chars c * beginning (d :: re)

/-- The texts with a match anywhere, or at their beginning if the pattern has a caret. -/
def containing (re : Str) : Language UInt8 :=
  if re.head? = some caret then beginning re.tail else (chars dot)∗ * beginning re

section

variable {c : UInt8} {re text : Str} {here : Str → Bool} {rest : Language UInt8}

theorem mem_chars_mul : text ∈ chars c * rest ↔
    ∃ t text', text = t :: text' ∧ (c = dot ∨ c = t) ∧ text' ∈ rest := by
  rw [mem_mul]
  constructor
  · rintro ⟨_, ⟨t, same, rfl⟩, text', later, rfl⟩
    exact ⟨t, text', rfl, same, later⟩
  · rintro ⟨t, text', rfl, same, later⟩
    exact ⟨[t], ⟨t, same, rfl⟩, text', later, rfl⟩

section

variable (same : ∀ text, here text = true ↔ text ∈ rest)
include same

theorem matchchar_iff : matchchar c here text = true ↔ text ∈ chars c * rest := by
  cases text with
  | nil => simp [matchchar, mem_chars_mul]
  | cons t text => simp [matchchar, mem_chars_mul, same]

theorem matchstar_iff : matchstar c here text = true ↔ text ∈ (chars c)∗ * rest := by
  have next : (chars c)∗ * rest = rest + chars c * ((chars c)∗ * rest) := by
    rw [← mul_assoc, ← one_add_mul, one_add_self_mul_kstar_eq_kstar]
  induction text with
  | nil =>
    rw [next, mem_add, mem_chars_mul]
    simp [matchstar, same]
  | cons t text ih =>
    have either : t = c ∨ c = dot ↔ c = dot ∨ c = t := or_comm.trans (or_congr_right eq_comm)
    rw [next, mem_add, mem_chars_mul]
    simp [matchstar, same, ih, either]

end

theorem matchhere_iff : matchhere re text = true ↔ text ∈ beginning re := by
  induction re using List.twoStepInduction generalizing text with
  | nil => exact iff_of_true rfl trivial
  | singleton c =>
    rw [matchhere, beginning]
    split
    · rw [List.isEmpty_iff, mem_one]
    · exact matchchar_iff fun _ => iff_of_true rfl trivial
  | cons_cons c d re ihStar ih =>
    rw [matchhere, beginning]
    split
    · exact matchstar_iff fun _ => ihStar
    · exact matchchar_iff fun _ => ih d

theorem matchloop_eq (text : Str) : matchloop re text = matchstar dot (matchhere re) text := by
  induction text with
  | nil => rfl
  | cons t text ih => simp [matchloop, matchstar, ih]

end

theorem matchRe_iff (re text : Str) : matchRe re text = true ↔ text ∈ containing re := by
  rw [matchRe, containing]
  split
  · exact matchhere_iff
  · rw [matchloop_eq]
    exact matchstar_iff fun _ => matchhere_iff

end Laboratorio.Xv6.Grep
