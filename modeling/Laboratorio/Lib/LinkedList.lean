import Mathlib.Logic.Function.Basic
import Mathlib.Data.List.Induction
import Mathlib.Data.List.Nodup

/-! # Lists linked through a pointer in each node

`Linked next head list` says that the pointers lead from `head` through the nodes of `list` and
end there.  A walk with a pointer to a pointer is a `Place`: the variable `head` itself, or the
pointer in a node.  The walk has passed the nodes of some `front`, and when it finds an empty
pointer the list can be extended there (`Linked.append`).
-/

namespace Laboratorio.Lib.LinkedList

open Function List

variable {α : Type}

def Linked (next : α → Option α) : Option α → List α → Prop
  | head, [] => head = none
  | head, x :: rest => head = some x ∧ Linked next (next x) rest

/-- Where a pointer is stored: in the head, or in a node. -/
inductive Place (α : Type)
  | head
  | node (x : α)
  deriving DecidableEq

/-- The place that a walk has reached after some nodes. -/
def Place.after (front : List α) : Place α :=
  match front.getLast? with
  | none => .head
  | some x => .node x

@[simp]
theorem Place.after_concat (front : List α) (x : α) : Place.after (front ++ [x]) = .node x := by
  simp [Place.after]

variable {next next' : α → Option α} {head : Option α} {x : α} {list front back : List α}

theorem Linked.head?_eq (linked : Linked next head list) : head = list.head? := by
  cases list with
  | nil => exact linked
  | cons x rest => exact linked.1

theorem Linked.congr (linked : Linked next head list) (same : ∀ x ∈ list, next' x = next x) :
    Linked next' head list := by
  induction list generalizing head with
  | nil => exact linked
  | cons x rest ih =>
    refine ⟨linked.1, ?_⟩
    rw [same x (mem_cons_self ..)]
    exact ih linked.2 fun y member => same y (mem_cons_of_mem x member)

/-- What the pointer at the place after `front` holds. -/
def Place.deref (head : Option α) (next : α → Option α) : Place α → Option α
  | .head => head
  | .node x => next x

theorem Linked.split (linked : Linked next head (front ++ back)) :
    Linked next ((Place.after front).deref head next) back := by
  induction front using reverseRecOn generalizing back with
  | nil => exact linked
  | append_singleton front x ih =>
    rw [append_assoc] at linked
    rw [Place.after_concat]
    exact (ih linked).2

theorem Linked.deref_eq (linked : Linked next head (front ++ back)) :
    (Place.after front).deref head next = back.head? :=
  linked.split.head?_eq

section Store

variable [DecidableEq α]

/-- The head after a pointer to `x` has been stored at a place. -/
def Place.storeHead (head : Option α) (x : α) : Place α → Option α
  | .head => some x
  | .node _ => head

/-- The pointers of the nodes after that. -/
def Place.storeNext (next : α → Option α) (x : α) : Place α → α → Option α
  | .head => next
  | .node y => update next y (some x)

/-- A node that points nowhere goes to the end of the list. -/
theorem Linked.append (linked : Linked next head list) (nodup : list.Nodup) (fresh : x ∉ list)
    (ends : next x = none) :
    Linked ((Place.after list).storeNext next x) ((Place.after list).storeHead head x)
      (list ++ [x]) := by
  induction list generalizing head with
  | nil => exact ⟨rfl, ends⟩
  | cons y rest ih =>
    obtain ⟨yFresh, restNodup⟩ := nodup_cons.mp nodup
    have restFresh : x ∉ rest := fun inside => fresh (mem_cons_of_mem y inside)
    have appended := ih linked.2 restNodup restFresh
    cases rest using reverseRecOn with
    | nil =>
      -- the pointer of `y` is the one that is stored
      have other : x ≠ y := fun equal => fresh (equal ▸ mem_cons_self ..)
      refine ⟨linked.1, ?_⟩
      show Linked (update next y (some x)) (update next y (some x) y) [x]
      rw [update_self]
      refine ⟨rfl, ?_⟩
      rw [update_of_ne other]
      exact ends
    | append_singleton rest z =>
      have last : Place.after (y :: (rest ++ [z])) = Place.after (rest ++ [z]) := by
        rw [← cons_append, Place.after_concat, Place.after_concat]
      have other : y ≠ z := fun equal => yFresh (equal ▸ mem_concat_self ..)
      rw [last]
      rw [Place.after_concat] at appended ⊢
      refine ⟨linked.1, ?_⟩
      show Linked _ (update next z (some x) y) _
      rw [update_of_ne other]
      exact appended

end Store

end Laboratorio.Lib.LinkedList
