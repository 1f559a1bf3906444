import Mathlib.Data.List.GetD

/-! # Strings of C

A `char *` is the bytes from there on.  `Word` is a string without its NUL, and `strncpy_eq` and
`text_eq` say when such a string is copied and printed as a whole.
-/

namespace Laboratorio.Lib.CString

/-- The bytes from a `char *` on. -/
abbrev Chars := Nat → UInt8

/-- `strncpy(dst, src, n)`: after the first NUL of `src` the rest is filled with NULs. -/
def strncpy (dst src : Chars) (n : Nat) : Chars := fun j =>
  if j < n then
    if (List.range j).all (src · ≠ 0) then src j else 0
  else dst j

/-- What `%s` prints, if there is a NUL within `n` bytes. -/
def text (chars : Chars) : Nat → Option (List UInt8)
  | 0 => none
  | n + 1 =>
    if chars 0 = 0 then some []
    else (text (fun j => chars (j + 1)) n).map (chars 0 :: ·)

structure Word where
  bytes : List UInt8
  noNul : 0 ∉ bytes

namespace Word

variable (word : Word) (size : Nat)

def chars : Chars := fun j => word.bytes.getD j 0

/-- What fits in an array together with the NUL. -/
def cut : List UInt8 := word.bytes.take (size - 1)

theorem cut_noNul : 0 ∉ word.cut size :=
  fun nul => word.noNul (List.mem_of_mem_take nul)

theorem cut_length : (word.cut size).length ≤ size - 1 :=
  List.length_take_le _ _

theorem cut_eq {size : Nat} (fits : word.bytes.length < size) : word.cut size = word.bytes :=
  List.take_of_length_le (Nat.le_sub_one_of_lt fits)

theorem getD_ne_zero {j : Nat} (inside : j < word.bytes.length) : word.bytes.getD j 0 ≠ 0 := by
  rw [List.getD_eq_getElem _ _ inside]
  exact fun nul => word.noNul (nul ▸ List.getElem_mem _)

end Word

variable {bytes : List UInt8}

theorem strncpy_eq {dst src : Chars} {n : Nat} (noNul : 0 ∉ bytes)
    (isSrc : ∀ j < n, j ≤ bytes.length → src j = bytes.getD j 0) {j : Nat} (below : j < n) :
    strncpy dst src n j = bytes.getD j 0 := by
  rw [strncpy, if_pos below]
  by_cases inside : j ≤ bytes.length
  · have before : (List.range j).all (src · ≠ 0) = true := by
      simp only [List.all_eq_true, List.mem_range, decide_eq_true_eq]
      intro i early nul
      rw [isSrc i (by omega) (by omega), List.getD_eq_getElem _ _ (by omega)] at nul
      exact noNul (nul ▸ List.getElem_mem _)
    rw [if_pos before, isSrc j below inside]
  · have nul : ¬ (List.range j).all (src · ≠ 0) = true := by
      simp only [List.all_eq_true, List.mem_range, decide_eq_true_eq]
      intro none
      apply none bytes.length (by omega)
      rw [isSrc _ (by omega) (Nat.le_refl _), List.getD_eq_default _ _ (Nat.le_refl _)]
    rw [if_neg nul, List.getD_eq_default _ _ (by omega)]

theorem text_eq {chars : Chars} {n : Nat} (noNul : 0 ∉ bytes) (fits : bytes.length < n)
    (isChars : ∀ j ≤ bytes.length, chars j = bytes.getD j 0) : text chars n = some bytes := by
  induction bytes generalizing chars n with
  | nil =>
    obtain ⟨n, rfl⟩ := Nat.exists_eq_add_one.mpr fits
    have nul : chars 0 = 0 := isChars 0 (Nat.zero_le _)
    rw [text, if_pos nul]
  | cons byte bytes ih =>
    obtain ⟨n, rfl⟩ := Nat.exists_eq_add_one.mpr (Nat.zero_lt_of_lt fits)
    simp only [List.mem_cons, not_or] at noNul
    simp only [List.length_cons, Nat.add_lt_add_iff_right] at fits
    have first : chars 0 = byte := isChars 0 (Nat.zero_le _)
    have rest : text (fun j => chars (j + 1)) n = some bytes := by
      apply ih noNul.2 fits
      intro j inside
      exact isChars (j + 1) (Nat.succ_le_succ inside)
    rw [text, first, if_neg (Ne.symm noNul.1), rest]
    rfl

end Laboratorio.Lib.CString
