import Mathlib.Data.Fin.Basic
import Mathlib.Data.List.FinRange
import Mathlib.Data.List.Rotate
import Mathlib.Data.ZMod.Defs

/-! # Searching a circle

`scan test start` is the first index from `start` on, around the circle, that passes the
test.  A pointer that moves to the result of a scan that starts right after it cannot jump
over an index that passes the test: measured from any fixed origin, it stays before that
index (`scan_before`).

`circle start` lists the indices in the order in which the scan visits them.  After a scan
has ended at an index, the next circle begins with what lay behind it
(`circle_after`), so the indices that pass the test form a queue.
-/

namespace Laboratorio.Lib

open List

variable {n : Nat} [NeZero n] {test : Fin n → Bool} {z start x : Fin n} {before behind : List (Fin n)}

def scan (test : Fin n → Bool) (start : Fin n) : Option (Fin n) :=
  ((List.finRange n).map fun offset => start + offset).find? test

theorem scan_eq_none (none : scan test start = none) (y : Fin n) : test y = false := by
  have fails := find?_eq_none.mp none y
  rw [Bool.not_eq_true] at fails
  apply fails
  rw [mem_map]
  exact ⟨y - start, mem_finRange _, by rw [add_comm, sub_add_cancel]⟩

/-- The result passes the test, and nothing on the way to it does. -/
theorem scan_eq_some (found : scan test start = some z) :
    test z = true ∧ ∀ y, test y = true → (z - start).val ≤ (y - start).val := by
  obtain ⟨passes, i, bound, isZ, before⟩ := find?_eq_some_iff_getElem.mp found
  refine ⟨passes, fun y passesY => ?_⟩
  have length : i < n := by simpa using bound
  have offsetZ : z - start = ⟨i, length⟩ := by
    rw [← isZ]
    simp
  by_contra earlier
  have smaller : (y - start).val < i := by
    rw [offsetZ] at earlier
    exact Nat.lt_of_not_le earlier
  have fails := before (y - start).val smaller
  have isY : start + (y - start) = y := by rw [add_comm, sub_add_cancel]
  simp only [getElem_map, getElem_finRange, Fin.cast_mk, isY, passesY] at fails
  cases fails

theorem val_sub_of_lt {a b : Fin n} (within : (a - x).val + (b - a).val < n) :
    (b - x).val = (a - x).val + (b - a).val := by
  have split : b - x = (a - x) + (b - a) := by rw [add_comm, sub_add_sub_cancel]
  rw [split, Fin.val_add_eq_of_add_lt within]

theorem val_sub_of_le {a b : Fin n} (before : (a - x).val ≤ (b - x).val) :
    (b - a).val = (b - x).val - (a - x).val := by
  have split : b - a = (b - x) - (a - x) := by rw [sub_sub_sub_cancel_right]
  rw [split, Fin.sub_val_of_le before]

/-- A scan that starts after `index` ends before `y`, seen from the origin `x`, when `y`
lies after `index` and passes the test, unless it ends at `y`. -/
theorem scan_before {y index : Fin n} (ahead : (index - x).val < (y - x).val)
    (passes : test y = true) (found : scan test (index + 1) = some z) (other : z ≠ y) :
    (index - x).val < (z - x).val ∧ (z - x).val < (y - x).val := by
  obtain ⟨_, first⟩ := scan_eq_some found
  -- the scan starts one further than `index`
  have one : (index + 1 - index).val = 1 := by
    rw [add_sub_cancel_left, Fin.val_one']
    exact Nat.mod_eq_of_lt (by omega)
  have start : (index + 1 - x).val = (index - x).val + (index + 1 - index).val :=
    val_sub_of_lt (by omega)
  have toY : (y - (index + 1)).val = (y - x).val - (index + 1 - x).val := val_sub_of_le (by omega)
  have before := first y passes
  have strict : (z - (index + 1)).val ≠ (y - (index + 1)).val := by
    intro same
    exact other (sub_left_injective (Fin.ext same))
  have fromOrigin : (z - x).val = (index + 1 - x).val + (z - (index + 1)).val :=
    val_sub_of_lt (by omega)
  omega

/-! ## The order of a scan -/

def circle (start : Fin n) : List (Fin n) :=
  (List.finRange n).map fun offset => start + offset

omit [NeZero n] in
theorem scan_eq_head (test : Fin n → Bool) (start : Fin n) :
    scan test start = ((circle start).filter test).head? := by
  rw [head?_filter]
  rfl

omit [NeZero n] in
theorem length_circle (start : Fin n) : (circle start).length = n := by
  simp [circle]

theorem getElem_circle (start : Fin n) (i : Nat) (bound : i < (circle start).length) :
    (circle start)[i] = start + Fin.ofNat n i := by
  have small : i < n := by simpa [circle] using bound
  simp only [circle, List.getElem_map, List.getElem_finRange]
  congr 1
  exact Fin.ext (Nat.mod_eq_of_lt small).symm

omit [NeZero n] in
theorem nodup_circle (start : Fin n) : (circle start).Nodup :=
  (nodup_finRange n).map (add_right_injective start)

theorem circle_add (start : Fin n) (k : Nat) :
    circle (start + Fin.ofNat n k) = (circle start).rotate k := by
  apply List.ext_getElem
  · rw [List.length_rotate, length_circle, length_circle]
  · intro i left right
    rw [List.getElem_rotate, getElem_circle, getElem_circle, length_circle, add_assoc]
    apply Fin.ext
    simp [Fin.val_add, Nat.add_comm]

theorem circle_after (split : circle start = before ++ z :: behind) :
    circle (z + 1) = behind ++ (before ++ [z]) := by
  have inside : before.length < (circle start).length := by simp [split]
  have isZ : z = start + Fin.ofNat n before.length := by
    rw [← getElem_circle start before.length inside]
    simp [split]
  have further : z + 1 = start + Fin.ofNat n (before ++ [z]).length := by
    rw [isZ, add_assoc]
    apply Fin.ext
    simp [Fin.val_add]
  have regroup : before ++ z :: behind = (before ++ [z]) ++ behind := by simp
  rw [further, circle_add, split, regroup, List.rotate_append_length_eq]

theorem circle_last (index : Fin n) : ∃ others, circle (index + 1) = others ++ [index] := by
  obtain ⟨before, behind, split⟩ : ∃ before behind, circle index = before ++ index :: behind := by
    apply List.append_of_mem
    rw [circle, List.mem_map]
    exact ⟨0, List.mem_finRange _, add_zero index⟩
  refine ⟨behind ++ before, ?_⟩
  rw [circle_after split, List.append_assoc]

/-- Behind any other index of that circle comes, at the end, the index it started after. -/
theorem circle_behind {index : Fin n} (different : z ≠ index)
    (split : circle (index + 1) = before ++ z :: behind) :
    ∃ between, behind = between ++ [index] := by
  obtain ⟨others, ends⟩ := circle_last index
  rw [ends] at split
  rcases eq_nil_or_concat' behind with empty | ⟨between, last, isConcat⟩
  · rw [empty] at split
    have same := (append_inj' split rfl).2
    simp only [cons.injEq, and_true] at same
    exact absurd same.symm different
  · rw [isConcat, ← List.cons_append, ← List.append_assoc] at split
    have same := (append_inj' split rfl).2
    exact ⟨between, by rw [isConcat, same]⟩

end Laboratorio.Lib
