import Mathlib.Algebra.Ring.Nat
import Mathlib.Logic.Function.Basic

/-! # The two copies of memmove

The kernel's `memmove` (`string.c`) chooses the direction of the copy; the one of the user library
(`ulib.c`) always copies upwards.  Both are compared with `moved`, which reads every byte before
it writes any.

A copy in either direction is right as long as no byte is read after it was written
(`copyUp_eq_moved`, `copyDown_eq_moved`).
-/

namespace Laboratorio.Xv6.Memmove

open Function

abbrev Memory := Nat → UInt8

variable {m : Memory} {dst src n : Nat}

/-- `while(n-- > 0) *d++ = *s++;` -/
def copyUp : Nat → Nat → Nat → Memory → Memory
  | 0, _, _, m => m
  | n + 1, d, s, m => copyUp n (d + 1) (s + 1) (update m d (m s))

/-- `while(n-- > 0) *--d = *--s;` -/
def copyDown : Nat → Nat → Nat → Memory → Memory
  | 0, _, _, m => m
  | n + 1, d, s, m => copyDown n (d - 1) (s - 1) (update m (d - 1) (m (s - 1)))

/-- `memmove` of `string.c`; the sum `s + n` is one of 32-bit addresses. -/
def kernelMemmove (dst src n : Nat) (m : Memory) : Memory :=
  if src < dst ∧ dst < (src + n) % 2 ^ 32 then copyDown n (dst + n) (src + n) m
  else copyUp n dst src m

def ulibMemmove (dst src n : Nat) (m : Memory) : Memory :=
  copyUp n dst src m

/-- The `n` bytes from `dst` on are those from `src` on before the call. -/
def moved (dst src n : Nat) (m : Memory) : Memory := fun a =>
  if dst ≤ a ∧ a < dst + n then m (src + (a - dst)) else m a

/-- The bytes still to be read lie above the ones that are written, or below all of them. -/
theorem copyUp_eq_moved (apart : dst ≤ src ∨ src + n ≤ dst) :
    copyUp n dst src m = moved dst src n m := by
  induction n generalizing dst src m with
  | zero =>
    funext a
    rw [copyUp, moved, if_neg (by omega)]
  | succ n ih =>
    rw [copyUp, ih (by omega)]
    funext a
    simp only [moved]
    by_cases later : dst + 1 ≤ a ∧ a < dst + 1 + n
    · have unwritten : src + 1 + (a - (dst + 1)) ≠ dst := by omega
      rw [if_pos later, if_pos (by omega), update_of_ne unwritten]
      congr 1
      omega
    · rw [if_neg later]
      by_cases first : a = dst
      · subst first
        rw [update_self, if_pos (by omega), Nat.sub_self, Nat.add_zero]
      · rw [update_of_ne first, if_neg (by omega)]

theorem copyDown_eq_moved (below : src ≤ dst) :
    copyDown n (dst + n) (src + n) m = moved dst src n m := by
  induction n generalizing m with
  | zero =>
    funext a
    rw [copyDown, moved, if_neg (by omega)]
  | succ n ih =>
    rw [copyDown, Nat.add_succ_sub_one, Nat.add_succ_sub_one, ih]
    funext a
    simp only [moved]
    by_cases earlier : dst ≤ a ∧ a < dst + n
    · have unwritten : src + (a - dst) ≠ dst + n := by omega
      rw [if_pos earlier, if_pos (by omega), update_of_ne unwritten]
    · rw [if_neg earlier]
      by_cases last : a = dst + n
      · subst last
        rw [update_self, if_pos (by omega), Nat.add_sub_cancel_left]
      · rw [update_of_ne last, if_neg (by omega)]

/-- The sum wraps only when the source ends at the top of memory, and then nothing overlaps
above it. -/
theorem kernelMemmove_eq_moved (dstInside : dst + n ≤ 2 ^ 32) (srcInside : src + n ≤ 2 ^ 32) :
    kernelMemmove dst src n m = moved dst src n m := by
  rw [kernelMemmove]
  split
  case isTrue overlap => exact copyDown_eq_moved (Nat.le_of_lt overlap.1)
  case isFalse apart =>
    apply copyUp_eq_moved
    by_cases top : src + n = 2 ^ 32
    · omega
    · rw [Nat.mod_eq_of_lt (by omega)] at apart
      omega

theorem copyUp_below {a : Nat} (below : a < dst) : copyUp n dst src m a = m a := by
  induction n generalizing dst src m with
  | zero => rfl
  | succ n ih => rw [copyUp, ih (by omega), update_of_ne (by omega)]

/-- Zeros up to the destination are smeared over all of it. -/
theorem copyUp_zero {a : Nat} (overlap : src < dst) (zero : ∀ a, src ≤ a → a < dst → m a = 0)
    (low : dst ≤ a) (high : a < dst + n) : copyUp n dst src m a = 0 := by
  induction n generalizing dst src m with
  | zero => omega
  | succ n ih =>
    have first : m src = 0 := zero src (Nat.le_refl _) overlap
    rw [copyUp]
    by_cases written : a = dst
    · rw [copyUp_below (by omega), written, update_self, first]
    · refine ih (by omega) (fun b low high => ?_) (by omega) (by omega)
      by_cases same : b = dst
      · rw [same, update_self, first]
      · rw [update_of_ne same, zero b (by omega) (by omega)]

/-- Both copies move the bytes of every memory exactly if the destination does not start inside
the source. -/
theorem memmove_agree (dst src n : Nat) (dstInside : dst + n ≤ 2 ^ 32)
    (srcInside : src + n ≤ 2 ^ 32) :
    (∀ m, kernelMemmove dst src n m = moved dst src n m ∧
      ulibMemmove dst src n m = moved dst src n m) ↔ dst ≤ src ∨ src + n ≤ dst := by
  constructor
  · intro agree
    by_contra overlap
    -- zeros below the destination, ones from there on
    have smeared := congrFun (agree fun a => if a < dst then 0 else 1).2 (dst + (dst - src))
    rw [ulibMemmove, copyUp_zero (by omega) (fun a _ below => if_pos below) (by omega) (by omega),
      moved, if_pos (by omega), if_neg (by omega)] at smeared
    cases smeared
  · intro apart m
    exact ⟨kernelMemmove_eq_moved dstInside srcInside, copyUp_eq_moved apart⟩

theorem moved_down :
    kernelMemmove 4 5 2 (fun a => a.toUInt8) = moved 4 5 2 (fun a => a.toUInt8) ∧
      ulibMemmove 4 5 2 (fun a => a.toUInt8) = moved 4 5 2 (fun a => a.toUInt8) :=
  (memmove_agree 4 5 2 (by decide) (by decide)).mpr (by decide) _

/-- Moving two bytes one place up: the user library writes the first one twice. -/
theorem ulib_smears : kernelMemmove 5 4 2 (fun a => a.toUInt8) 6 = 5 ∧
    moved 5 4 2 (fun a => a.toUInt8) 6 = 5 ∧ ulibMemmove 5 4 2 (fun a => a.toUInt8) 6 = 4 := by
  decide

end Laboratorio.Xv6.Memmove
