import Mathlib.Logic.Function.Basic
import Mathlib.Data.Nat.ModEq

/-! # Ring buffers with wrapping 32-bit counters

A ring of `cap` cells is read at `r % cap` and written at `w % cap`, where the
counters `r` and `w` only grow and wrap at `2 ^ 32`.  `Holds data r w queue` says
that the cells between the counters hold the elements of `queue`, oldest first.

The wrap is harmless exactly because the capacity divides `2 ^ 32`: then
`slot_add` reduces the cell of `r + j` to `(r + j) % cap` over the naturals, and
cells of different offsets below the capacity are different
(`slot_add_injective`).
-/

namespace Laboratorio.Lib.Ring

open UInt32 Nat List

variable {α : Type} {cap : Nat} [NeZero cap]

def slot (cap : Nat) [NeZero cap] (counter : UInt32) : Fin cap :=
  Fin.ofNat cap counter.toNat

structure Holds (data : Fin cap → α) (r w : UInt32) (queue : List α) : Prop where
  counters : w = r + UInt32.ofNat queue.length
  fits : queue.length ≤ cap
  cells : ∀ (j : Nat) (inside : j < queue.length),
    data (slot cap (r + UInt32.ofNat j)) = queue[j]

theorem slot_add (divides : cap ∣ 2 ^ 32) (counter : UInt32) (j : Nat) :
    (slot cap (counter + UInt32.ofNat j)).val = (counter.toNat + j) % cap := by
  simp only [slot, Fin.val_ofNat, UInt32.toNat_add, toNat_ofNat']
  rw [Nat.mod_mod_of_dvd _ divides, Nat.add_mod, Nat.mod_mod_of_dvd _ divides, ← Nat.add_mod]

theorem slot_add_injective (divides : cap ∣ 2 ^ 32) (counter : UInt32) {i j : Nat}
    (iBound : i < cap) (jBound : j < cap)
    (same : slot cap (counter + UInt32.ofNat i) = slot cap (counter + UInt32.ofNat j)) : i = j := by
  have sameResidue : Nat.ModEq cap (counter.toNat + i) (counter.toNat + j) := by
    have values := congrArg Fin.val same
    rwa [slot_add divides, slot_add divides] at values
  have offsets : Nat.ModEq cap i j := Nat.ModEq.add_left_cancel' _ sameResidue
  rwa [Nat.ModEq, mod_eq_of_lt iBound, mod_eq_of_lt jBound] at offsets

omit [NeZero cap] in
theorem toNat_ofNat_of_le (small : cap < 2 ^ 32) {n : Nat} (bound : n ≤ cap) :
    (UInt32.ofNat n).toNat = n := by
  rw [toNat_ofNat']
  exact mod_eq_of_lt (by omega)

namespace Holds

variable {data : Fin cap → α} {r w : UInt32} {queue : List α} {value : α}

/-- The difference of the counters, taken modulo `2 ^ 32`, is the number of
elements in the ring. -/
theorem size (small : cap < 2 ^ 32) (holds : Holds data r w queue) :
    (w - r).toNat = queue.length := by
  have difference : w - r = ofNat queue.length := by
    rw [holds.counters, UInt32.add_comm, UInt32.add_sub_cancel]
  rw [difference, toNat_ofNat_of_le small holds.fits]

theorem empty_iff (small : cap < 2 ^ 32) (holds : Holds data r w queue) : r = w ↔ queue = [] := by
  rw [← length_eq_zero_iff, ← holds.size small]
  constructor
  · rintro rfl
    simp
  · intro none
    have difference : w - r = 0 := UInt32.toNat_inj.mp none
    rw [UInt32.sub_eq_iff_eq_add, UInt32.zero_add] at difference
    exact difference.symm

theorem full_iff (small : cap < 2 ^ 32) (holds : Holds data r w queue) :
    w = r + UInt32.ofNat cap ↔ queue.length = cap := by
  constructor
  · intro full
    have difference : w - r = ofNat cap := by
      rw [full, UInt32.add_comm, UInt32.add_sub_cancel]
    rw [← holds.size small, difference, toNat_ofNat_of_le small (le_refl cap)]
  · intro full
    rw [holds.counters, full]

theorem nil (data : Fin cap → α) (counter : UInt32) : Holds data counter counter [] where
  counters := by simp
  fits := zero_le _
  cells := by
    intro j inside
    cases inside

theorem push (divides : cap ∣ 2 ^ 32) (holds : Holds data r w queue) (room : queue.length < cap)
    (value : α) :
    Holds (Function.update data (slot cap w) value) r (w + 1) (queue ++ [value]) where
  counters := by
    rw [holds.counters, length_append, ofNat_add,
      UInt32.add_assoc]
    rfl
  fits := by
    simp only [length_append, length_singleton]
    omega
  cells := by
    intro j inside
    simp only [length_append, length_singleton] at inside
    by_cases last : j = queue.length
    · subst last
      simp [holds.counters]
    · have earlier : j < queue.length := by omega
      -- an occupied cell is at another offset than the one just written
      have other : slot cap (r + ofNat j) ≠ slot cap w := by
        rw [holds.counters]
        intro same
        exact last (slot_add_injective divides r (by omega) room same)
      rw [Function.update_of_ne other, holds.cells j earlier, getElem_append_left earlier]

theorem head (holds : Holds data r w (value :: queue)) : data (slot cap r) = value := by
  have cell := holds.cells 0 (by simp)
  rw [show UInt32.ofNat 0 = 0 from rfl, UInt32.add_zero] at cell
  exact cell

theorem pop (holds : Holds data r w (value :: queue)) : Holds data (r + 1) w queue where
  counters := by
    rw [holds.counters, List.length_cons, Nat.add_comm, UInt32.ofNat_add, ← UInt32.add_assoc]
    rfl
  fits := by
    have fits := holds.fits
    simp only [List.length_cons] at fits
    omega
  cells := by
    intro j inside
    have cell := holds.cells (j + 1) (by simpa using inside)
    rw [UInt32.ofNat_add, UInt32.add_comm (UInt32.ofNat j),
      ← UInt32.add_assoc] at cell
    exact cell

theorem older {newer : List α} (holds : Holds data r w (queue ++ newer)) :
    Holds data r (r + UInt32.ofNat queue.length) queue where
  counters := rfl
  fits := by
    have fits := holds.fits
    simp only [length_append] at fits
    omega
  cells := by
    intro j inside
    rw [holds.cells j (by simp only [length_append]; omega), getElem_append_left inside]

theorem last_counter (holds : Holds data r w (queue ++ [value])) :
    w - 1 = r + UInt32.ofNat queue.length := by
  rw [holds.counters, length_append, ofNat_add,
    ← UInt32.add_assoc]
  exact UInt32.add_sub_cancel ..

theorem last (holds : Holds data r w (queue ++ [value])) : data (slot cap (w - 1)) = value := by
  have cell := holds.cells queue.length (by simp only [length_append, length_singleton]; omega)
  rwa [← holds.last_counter, getElem_concat_length rfl] at cell

theorem unpush (holds : Holds data r w (queue ++ [value])) : Holds data r (w - 1) queue := by
  rw [holds.last_counter]
  exact holds.older

end Holds

end Laboratorio.Lib.Ring
