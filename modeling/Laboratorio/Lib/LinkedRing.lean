import Mathlib.Logic.Function.Basic
import Mathlib.Data.List.Nodup

/-! # Rings of nodes linked in both directions

A ring runs through a head, written `none`, and nodes `some x`; every node points to the next
and to the previous one.  `Ring links order` says that the nodes after the head are those of
`order`.  `unlink` takes a node out and `pushFront` puts one behind the head, each by its
single assignments; `scan` walks from a node until a test holds or the head is reached.
-/

namespace Laboratorio.Lib.LinkedRing

open Function List Option

structure Links (α : Type) where
  next : Option α → Option α
  prev : Option α → Option α

variable {α : Type}

/-- The walk of `for(b = step(head); b != &head; b = step(b))` that ends where `test` holds. -/
def scan (step : Option α → Option α) (test : α → Bool) : Nat → Option α → Option α
  | 0, _ => none
  | _ + 1, none => none
  | fuel + 1, some x => if test x then some x else scan step test fuel (step (some x))

namespace Links

def flip (links : Links α) : Links α :=
  ⟨links.prev, links.next⟩

/-- From `a` the pointers lead through the nodes to `b`, and back. -/
def Path (links : Links α) (a : Option α) : List α → Option α → Prop
  | [], b => links.next a = b ∧ links.prev b = a
  | x :: rest, b => links.next a = some x ∧ links.prev (some x) = a ∧ Path links (some x) rest b

structure Ring (links : Links α) (order : List α) : Prop where
  nodup : order.Nodup
  path : links.Path none order none

variable {links links' : Links α} {a b : Option α} {x : α} {xs ys order : List α} {fuel : Nat}

theorem Path.append : links.Path a (xs ++ x :: ys) b ↔
    links.Path a xs (some x) ∧ links.Path (some x) ys b := by
  induction xs generalizing a with
  | nil =>
    exact and_assoc.symm
  | cons y xs ih =>
    simp only [cons_append, Path, ih]
    simp [and_assoc]

theorem Path.flip (path : links.Path a xs b) : links.flip.Path b xs.reverse a := by
  induction xs generalizing a with
  | nil => exact ⟨path.2, path.1⟩
  | cons x xs ih =>
    obtain ⟨next, prev, rest⟩ := path
    rw [reverse_cons]
    exact Path.append.mpr ⟨ih rest, prev, next⟩

theorem Ring.flip (ring : links.Ring order) : links.flip.Ring order.reverse :=
  ⟨nodup_reverse.mpr ring.nodup, ring.path.flip⟩

theorem Path.scan (path : links.Path a order none) (test : α → Bool)
    (enough : order.length ≤ fuel) :
    LinkedRing.scan links.next test fuel (links.next a) = order.find? test := by
  induction order generalizing a fuel with
  | nil =>
    rw [path.1]
    cases fuel <;> rfl
  | cons x rest ih =>
    obtain ⟨next, -, path⟩ := path
    obtain ⟨fuel, rfl⟩ := Nat.exists_eq_add_one.mpr (Nat.lt_of_lt_of_le (Nat.succ_pos _) enough)
    rw [next, LinkedRing.scan, find?_cons]
    cases test x with
    | true => rfl
    | false => exact ih path (Nat.le_of_succ_le_succ enough)

/-- The pointers forward give the order, those backward the order from its end. -/
theorem Ring.scan_next (ring : links.Ring order) (test : α → Bool) (enough : order.length ≤ fuel) :
    scan links.next test fuel (links.next none) = order.find? test :=
  ring.path.scan test enough

theorem Ring.scan_prev (ring : links.Ring order) (test : α → Bool) (enough : order.length ≤ fuel) :
    scan links.prev test fuel (links.prev none) = order.reverse.find? test :=
  ring.flip.path.scan test (by rwa [length_reverse])

theorem Path.congr (path : links.Path a xs b)
    (next : ∀ node, node = a ∨ node ∈ xs.map some → links'.next node = links.next node)
    (prev : ∀ node, node = b ∨ node ∈ xs.map some → links'.prev node = links.prev node) :
    links'.Path a xs b := by
  induction xs generalizing a with
  | nil => exact ⟨(next a (.inl rfl)).trans path.1, (prev b (.inl rfl)).trans path.2⟩
  | cons x xs ih =>
    obtain ⟨toX, fromX, path⟩ := path
    have isNode : some x ∈ (x :: xs).map some := mem_map_of_mem mem_cons_self
    refine ⟨(next a (.inl rfl)).trans toX, (prev (some x) (.inr isNode)).trans fromX, ?_⟩
    apply ih path
    · rintro node (rfl | inside)
      · exact next _ (.inr isNode)
      · exact next node (.inr (mem_cons_of_mem _ inside))
    · rintro node (isEnd | inside)
      · exact prev node (.inl isEnd)
      · exact prev node (.inr (mem_cons_of_mem _ inside))

/-! ## Taking a node out and putting it in -/

variable [DecidableEq α]

def setNext (links : Links α) (node target : Option α) : Links α :=
  { links with next := update links.next node target }

def setPrev (links : Links α) (node target : Option α) : Links α :=
  { links with prev := update links.prev node target }

/-- `x->next->prev = x->prev; x->prev->next = x->next;` -/
def unlink (links : Links α) (x : α) : Links α :=
  let back := links.setPrev (links.next (some x)) (links.prev (some x))
  back.setNext (back.prev (some x)) (back.next (some x))

/-- `x->next = head.next; x->prev = &head; head.next->prev = x; head.next = x;` -/
def pushFront (links : Links α) (x : α) : Links α :=
  let own := (links.setNext (some x) (links.next none)).setPrev (some x) none
  (own.setPrev (own.next none) (some x)).setNext none (some x)

theorem unlink_prev (links : Links α) (x : α) : (links.unlink x).prev =
    update links.prev (links.next (some x)) (links.prev (some x)) := rfl

theorem unlink_next (links : Links α) (x : α) : (links.unlink x).next =
    update links.next (links.prev (some x)) (links.next (some x)) := by
  have same : update links.prev (links.next (some x)) (links.prev (some x)) (some x) =
      links.prev (some x) := by
    by_cases loop : some x = links.next (some x)
    · rw [← loop, update_self]
    · rw [update_of_ne loop]
  simp [unlink, setNext, setPrev, same]

theorem pushFront_next (links : Links α) (x : α) : (links.pushFront x).next =
    update (update links.next (some x) (links.next none)) none (some x) := rfl

theorem pushFront_prev (links : Links α) (x : α) : (links.pushFront x).prev =
    update (update links.prev (some x) none) (links.next none) (some x) := rfl

omit [DecidableEq α] in
theorem Path.prev_mem (path : links.Path a xs b) : links.prev b = a ∨ links.prev b ∈ xs.map some := by
  induction xs generalizing a with
  | nil => exact .inl path.2
  | cons x xs ih =>
    obtain ⟨-, -, path⟩ := path
    obtain isX | inside := ih path
    · exact .inr (isX ▸ mem_map_of_mem mem_cons_self)
    · exact .inr (mem_cons_of_mem _ inside)

omit [DecidableEq α] in
theorem Path.next_mem (path : links.Path a xs b) : links.next a = b ∨ links.next a ∈ xs.map some := by
  cases xs with
  | nil => exact .inl path.1
  | cons x xs => exact .inr (path.1 ▸ mem_map_of_mem mem_cons_self)

theorem Path.unlink (path : links.Path a (xs ++ x :: ys) none)
    (fresh : a ∉ (xs ++ x :: ys).map some) (nodup : (xs ++ x :: ys).Nodup) :
    (links.unlink x).Path a (xs ++ ys) none := by
  induction xs generalizing a with
  | nil =>
    obtain ⟨toX, fromX, path⟩ := path
    simp only [nil_append]
      at nodup fresh ⊢
    cases ys with
    | nil =>
      refine ⟨?_, ?_⟩
      · rw [unlink_next, fromX, update_self]
        exact path.1
      · rw [unlink_prev, path.1]
        exact fromX
    | cons y ys =>
      obtain ⟨toY, fromY, path⟩ := path
      simp only [nodup_cons, map_cons, mem_cons, not_or] at nodup fresh
      refine ⟨?_, ?_, path.congr ?_ ?_⟩
      · rw [unlink_next, fromX, update_self, toY]
      · rw [unlink_prev, toY, update_self, fromX]
      · rintro node inside
        rw [unlink_next, fromX, update_of_ne]
        rintro rfl
        exact inside.elim fresh.2.1 fresh.2.2
      · rintro node inside
        rw [unlink_prev, toY, update_of_ne]
        rintro rfl
        obtain isEnd | inside := inside
        · cases isEnd
        · obtain ⟨other, member, same⟩ := mem_map.mp inside
          exact nodup.2.1 (some.inj same ▸ member)
  | cons z xs ih =>
    obtain ⟨toZ, fromZ, path⟩ := path
    simp only [cons_append, nodup_cons, map_cons, mem_cons, not_or]
      at nodup fresh
    obtain ⟨before, after⟩ := Path.append.mp path
    refine ⟨?_, ?_, ?_⟩
    · rw [unlink_next, update_of_ne, toZ]
      intro same
      obtain isZ | inside := before.prev_mem
      · exact fresh.1 (same.trans isZ)
      · apply fresh.2
        rw [map_append, mem_append]
        exact .inl (same ▸ inside)
    · rw [unlink_prev, update_of_ne, fromZ]
      intro same
      obtain isEnd | inside := after.next_mem
      · cases same.trans isEnd
      · obtain ⟨other, member, isZ⟩ := mem_map.mp (same ▸ inside)
        apply nodup.1
        rw [mem_append, mem_cons]
        exact .inr (.inr (some.inj isZ ▸ member))
    · apply ih path
      · intro inside
        obtain ⟨other, member, isZ⟩ := mem_map.mp inside
        exact nodup.1 (some.inj isZ ▸ member)
      · exact nodup.2

theorem Ring.unlink (ring : links.Ring (xs ++ x :: ys)) : (links.unlink x).Ring (xs ++ ys) := by
  refine ⟨(nodup_middle.mp ring.nodup).of_cons, ring.path.unlink ?_ ring.nodup⟩
  intro inside
  obtain ⟨other, -, isNone⟩ := mem_map.mp inside
  cases isNone

theorem Ring.pushFront (ring : links.Ring order) (fresh : x ∉ order) :
    (links.pushFront x).Ring (x :: order) := by
  refine ⟨nodup_cons.mpr ⟨fresh, ring.nodup⟩, ?_, ?_, ?_⟩
  · rw [pushFront_next, update_self]
  · rw [pushFront_prev, update_of_ne, update_self]
    intro isNext
    obtain isEnd | inside := ring.path.next_mem
    · cases isNext.trans isEnd
    · obtain ⟨other, member, same⟩ := mem_map.mp (isNext ▸ inside)
      exact fresh (some.inj same ▸ member)
  · have nodup := ring.nodup
    cases order with
    | nil =>
      have toEnd : links.next none = none := ring.path.1
      refine ⟨?_, ?_⟩
      · rw [pushFront_next, update_of_ne (some_ne_none _), update_self, toEnd]
      · rw [pushFront_prev, toEnd, update_self]
    | cons y order =>
      obtain ⟨toY, fromY, path⟩ := ring.path
      simp only [mem_cons, not_or] at fresh
      rw [nodup_cons] at nodup
      refine ⟨?_, ?_, path.congr ?_ ?_⟩
      · rw [pushFront_next, update_of_ne (some_ne_none _), update_self, toY]
      · rw [pushFront_prev, toY, update_self]
      · intro node inside
        have isNode : node ∈ (y :: order).map some := mem_cons.mpr inside
        obtain ⟨other, member, rfl⟩ := mem_map.mp isNode
        rw [pushFront_next, update_of_ne (some_ne_none _), update_of_ne]
        intro isX
        obtain isY | inside := mem_cons.mp member
        · exact fresh.1 ((some.inj isX).symm.trans isY)
        · exact fresh.2 (some.inj isX ▸ inside)
      · intro node inside
        rw [pushFront_prev, toY]
        obtain rfl | inside := inside
        · rw [update_of_ne (some_ne_none _).symm,
            update_of_ne (some_ne_none _).symm]
        · obtain ⟨other, member, rfl⟩ := mem_map.mp inside
          rw [update_of_ne, update_of_ne]
          · exact fun isX => fresh.2 (some.inj isX ▸ member)
          · exact fun isY => nodup.1 (some.inj isY ▸ member)

theorem Ring.toFront (ring : links.Ring (xs ++ x :: ys)) :
    ((links.unlink x).pushFront x).Ring (x :: (xs ++ ys)) :=
  ring.unlink.pushFront (nodup_cons.mp (nodup_middle.mp ring.nodup)).1

theorem Ring.foldl_pushFront (ring : links.Ring order) (added : List α)
    (fresh : ∀ x ∈ added, x ∉ order) (nodup : added.Nodup) :
    (added.foldl Links.pushFront links).Ring (added.reverse ++ order) := by
  induction added generalizing links order with
  | nil => exact ring
  | cons x added ih =>
    rw [nodup_cons] at nodup
    rw [reverse_cons, append_assoc]
    apply ih (ring.pushFront (fresh x mem_cons_self))
    · intro y member
      rw [mem_cons, not_or]
      exact ⟨fun same => nodup.1 (same ▸ member), fresh y (mem_cons_of_mem _ member)⟩
    · exact nodup.2

end Links

end Laboratorio.Lib.LinkedRing
