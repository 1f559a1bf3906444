import Mathlib.Algebra.BigOperators.Fin
import Mathlib.Algebra.BigOperators.Group.Finset.Basic
import Mathlib.Algebra.Order.BigOperators.Group.Finset
import Mathlib.Data.Fintype.Basic
import Laboratorio.Lib.Table

/-! # Sums of weights over a finite table

A table is a function from a finite type of indices.  Changing one entry changes a sum
of weights by that entry alone. -/

namespace Laboratorio.Lib

open Function Finset

variable {Index Entry : Type} [Fintype Index]

theorem sum_update_at [DecidableEq Index] (weight : Index → Entry → Nat) (table : Index → Entry)
    (index : Index) (entry : Entry) :
    ∑ i, weight i (update table index entry i) + weight index (table index) =
      ∑ i, weight i (table i) + weight index entry := by
  have split := add_sum_erase univ (fun i => weight i (table i)) (mem_univ index)
  have splitNew := add_sum_erase univ
    (fun i => weight i (update table index entry i)) (mem_univ index)
  have same : ∑ i ∈ univ.erase index, weight i (update table index entry i) =
      ∑ i ∈ univ.erase index, weight i (table i) := by
    refine sum_congr rfl fun i member => ?_
    rw [update_of_ne (ne_of_mem_erase member)]
  simp only [update_self] at splitNew
  omega

theorem sum_update [DecidableEq Index] (weight : Entry → Nat) (table : Index → Entry)
    (index : Index) (entry : Entry) :
    ∑ i, weight (update table index entry i) + weight (table index) =
      ∑ i, weight (table i) + weight entry :=
  sum_update_at (fun _ => weight) table index entry

theorem le_sum (weight : Index → Nat) (index : Index) : weight index ≤ ∑ i, weight i :=
  single_le_sum (f := weight) (fun _ _ => Nat.zero_le _) (mem_univ index)

theorem add_le_sum [DecidableEq Index] (weight : Index → Nat) {first second : Index}
    (different : first ≠ second) : weight first + weight second ≤ ∑ i, weight i := by
  have split := add_sum_erase univ weight (mem_univ first)
  have rest : weight second ≤ ∑ i ∈ univ.erase first, weight i :=
    single_le_sum (f := weight) (fun _ _ => Nat.zero_le _)
      (mem_erase.mpr ⟨different.symm, mem_univ second⟩)
  omega

theorem exists_of_sum_pos (weight : Index → Nat) (positive : 0 < ∑ i, weight i) :
    ∃ i, 0 < weight i := by
  obtain ⟨i, _, nonzero⟩ := exists_ne_zero_of_sum_ne_zero (Nat.ne_of_gt positive)
  exact ⟨i, Nat.pos_of_ne_zero nonzero⟩

/-! ## Large tables

`total` is the sum over a table that is too large to be written out. -/

@[irreducible] def total (weight : Index → Nat) : Nat := ∑ i, weight i

theorem total_update [DecidableEq Index] (weight : Index → Entry → Nat) (table : Index → Entry)
    (index : Index) (entry : Entry) :
    total (fun i => weight i (update table index entry i)) + weight index (table index) =
      total (fun i => weight i (table i)) + weight index entry := by
  rw [total, total]
  exact sum_update_at weight table index entry

theorem total_eq_zero {weight : Index → Nat} (zero : ∀ i, weight i = 0) : total weight = 0 := by
  rw [total]
  exact sum_eq_zero fun i _ => zero i

theorem le_total (weight : Index → Nat) (index : Index) : weight index ≤ total weight := by
  rw [total]
  exact le_sum weight index

theorem add_le_total [DecidableEq Index] (weight : Index → Nat) {first second : Index}
    (different : first ≠ second) : weight first + weight second ≤ total weight := by
  rw [total]
  exact add_le_sum weight different

theorem total_finRange {n : Nat} (weight : Fin n → Nat) :
    total weight = ((List.finRange n).map weight).sum := by
  rw [total]
  exact Fin.sum_univ_def weight

end Laboratorio.Lib
