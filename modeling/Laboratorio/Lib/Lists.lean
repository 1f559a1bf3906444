import Mathlib.Data.List.Count

/-! # Lists and one distinguished element -/

namespace Laboratorio.Lib

open List

variable {α : Type} [DecidableEq α]

/-- A list without duplicates meets an index once. -/
theorem filterMap_at {β : Type} {indices : List α} (nodup : indices.Nodup)
    {i : α} (member : i ∈ indices) (value : Option β) :
    (indices.filterMap fun j => if j = i then value else none) = value.toList := by
  induction indices with
  | nil => cases member
  | cons first rest ih =>
    obtain ⟨fresh, restNodup⟩ := nodup_cons.mp nodup
    by_cases same : first = i
    · have restNone : (rest.filterMap fun j => if j = i then value else none) = [] := by
        apply filterMap_eq_nil_iff.mpr
        intro j memberJ
        apply if_neg
        intro equal
        rw [equal, ← same] at memberJ
        exact fresh memberJ
      cases value with
      | none => simp
      | some value => simp [same, restNone]
    · have later : i ∈ rest := (mem_cons.mp member).resolve_left (Ne.symm same)
      simp only [filterMap_cons, if_neg same]
      exact ih restNodup later

theorem countP_le_add_count {p q : α → Bool} (i : α) (others : ∀ j, j ≠ i → p j = q j)
    (list : List α) : list.countP p ≤ list.countP q + list.count i := by
  induction list with
  | nil => exact Nat.le_refl 0
  | cons j list ih =>
    rw [countP_cons, countP_cons, count_cons]
    by_cases same : j = i
    · simp only [same, beq_self_eq_true, if_true]
      split <;> split <;> omega
    · rw [others j same]
      omega

end Laboratorio.Lib
