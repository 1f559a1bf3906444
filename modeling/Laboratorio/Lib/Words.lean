import Mathlib.Algebra.Ring.Nat
import Mathlib.Data.List.Basic
import Mathlib.Logic.Function.Basic

/-! # Little-endian words in a block of bytes

A block of `4 * words` bytes read and written as an array of 32-bit words.  `put`
writes one word, `putAll` a list of words from an index on.

* `get_put_self`, `get_put_of_ne` — a word is read back where it was written and
  nowhere else.
* `getAll_putAll`, `getAll_putAll_of_apart` — so is a list of words.
-/

namespace Laboratorio.Lib.Words

variable {words : Nat}

def byte (word : UInt32) (k : Nat) : UInt8 :=
  UInt8.ofNat (word.toNat / 256 ^ k)

def get (block : Fin (4 * words) → UInt8) (i : Nat) : UInt32 :=
  if bound : i < words then
    UInt32.ofNat ((block ⟨4 * i, by omega⟩).toNat + (block ⟨4 * i + 1, by omega⟩).toNat * 256 +
      (block ⟨4 * i + 2, by omega⟩).toNat * 256 ^ 2 + (block ⟨4 * i + 3, by omega⟩).toNat * 256 ^ 3)
  else 0

def put (block : Fin (4 * words) → UInt8) (i : Nat) (word : UInt32) : Fin (4 * words) → UInt8 :=
  fun position => if position.val / 4 = i then byte word (position.val % 4) else block position

def putAll (block : Fin (4 * words) → UInt8) (i : Nat) : List UInt32 → Fin (4 * words) → UInt8
  | [] => block
  | word :: rest => putAll (put block i word) (i + 1) rest

def getAll (block : Fin (4 * words) → UInt8) (i : Nat) : Nat → List UInt32
  | 0 => []
  | count + 1 => get block i :: getAll block (i + 1) count

theorem bytes_toNat (word : UInt32) :
    (byte word 0).toNat + (byte word 1).toNat * 256 + (byte word 2).toNat * 256 ^ 2 +
      (byte word 3).toNat * 256 ^ 3 = word.toNat := by
  have small := word.toNat_lt
  simp only [byte, UInt8.toNat_ofNat']
  omega

section

variable (block : Fin (4 * words) → UInt8) {i j : Nat}
include block

theorem get_put_self (word : UInt32) (bound : i < words) : get (put block i word) i = word := by
  have first : 4 * i / 4 = i ∧ 4 * i % 4 = 0 := by omega
  have second : (4 * i + 1) / 4 = i ∧ (4 * i + 1) % 4 = 1 := by omega
  have third : (4 * i + 2) / 4 = i ∧ (4 * i + 2) % 4 = 2 := by omega
  have fourth : (4 * i + 3) / 4 = i ∧ (4 * i + 3) % 4 = 3 := by omega
  simp only [get, put, dif_pos bound, first, second, third, fourth, if_true, bytes_toNat,
    UInt32.ofNat_toNat]

theorem get_put_of_ne (word : UInt32)
    (different : i ≠ j) : get (put block j word) i = get block i := by
  unfold get
  split
  · have first : 4 * i / 4 ≠ j := by omega
    have second : (4 * i + 1) / 4 ≠ j := by omega
    have third : (4 * i + 2) / 4 ≠ j := by omega
    have fourth : (4 * i + 3) / 4 ≠ j := by omega
    simp only [put, first, second, third, fourth, if_false]
  · rfl

theorem get_putAll_of_lt (list : List UInt32)
    (before : i < j) : get (putAll block j list) i = get block i := by
  induction list generalizing block j with
  | nil => rfl
  | cons word rest ih =>
    rw [putAll, ih _ (by omega), get_put_of_ne _ _ (by omega)]

theorem getAll_putAll (list : List UInt32)
    (fits : i + list.length ≤ words) : getAll (putAll block i list) i list.length = list := by
  induction list generalizing block i with
  | nil => rfl
  | cons word rest ih =>
    simp only [List.length_cons] at fits
    rw [List.length_cons, getAll, putAll, ih _ (by omega),
      get_putAll_of_lt _ _ (Nat.lt_succ_self i), get_put_self _ _ (by omega)]

theorem get_putAll_of_ge (list : List UInt32)
    (after : j + list.length ≤ i) : get (putAll block j list) i = get block i := by
  induction list generalizing block j with
  | nil => rfl
  | cons word rest ih =>
    rw [List.length_cons] at after
    rw [putAll, ih _ (by omega), get_put_of_ne _ _ (by omega)]

theorem getAll_putAll_of_apart {count : Nat}
    (list : List UInt32) (apart : i + count ≤ j ∨ j + list.length ≤ i) :
    getAll (putAll block j list) i count = getAll block i count := by
  induction count generalizing i with
  | zero => rfl
  | succ count ih =>
    have first : get (putAll block j list) i = get block i := by
      rcases apart with before | after
      · exact get_putAll_of_lt block list (by omega)
      · exact get_putAll_of_ge block list (by omega)
    rw [getAll, getAll, first, ih (by omega)]

end

end Laboratorio.Lib.Words
