import Mathlib.Logic.Function.Basic

/-! # Tables with one changed entry

A step of a system changes one entry of a table.  What is claimed of every entry is claimed of
the new one and of the others: `induction i using update_cases with | own => … | others i other
=> …`. -/

namespace Laboratorio.Lib

open Function

@[elab_as_elim] theorem update_cases {Index Entry : Type} [DecidableEq Index]
    {motive : Index → Entry → Prop} {table : Index → Entry} {index : Index} {entry : Entry}
    (i : Index) (own : motive index entry) (others : ∀ i, i ≠ index → motive i (table i)) :
    motive i (update table index entry i) := by
  by_cases same : i = index
  · rw [same, update_self]
    exact own
  · rw [update_of_ne same]
    exact others i same

theorem update_congr {Index Entry Value : Type} [DecidableEq Index] {table : Index → Entry}
    {index : Index} {entry : Entry} {field : Entry → Value}
    (same : field entry = field (table index)) (i : Index) :
    field (update table index entry i) = field (table i) := by
  induction i using update_cases with
  | own => exact same
  | others i _ => rfl

end Laboratorio.Lib
