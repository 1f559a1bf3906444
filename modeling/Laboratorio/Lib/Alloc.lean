import Mathlib.Data.List.Basic
import Mathlib.Logic.Function.Basic

/-! # An allocator's bitmap and the references to its blocks

`Tracks low high used addr loose` relates a bitmap to the places that hold block
addresses.  `addr place` is the address a place holds, 0 when it holds none; `loose`
lists the blocks that are marked but held by no place, in the middle of an
operation.  Blocks below `low` are never handed out.

* `Tracks.take`, `Tracks.store` — a block is marked, then stored in a place.
* `Tracks.clear`, `Tracks.give` — places let go of their blocks, which are then
  unmarked one by one.
-/

namespace Laboratorio.Lib

open Function List

variable {Place : Type}

structure Tracks (low high : Nat) (used : Nat → Bool) (addr : Place → Nat) (loose : List Nat) :
    Prop where
  low_pos : 0 < low
  area : ∀ place, addr place ≠ 0 → low ≤ addr place ∧ addr place < high
  distinct : ∀ place other, addr place ≠ 0 → addr place = addr other → place = other
  loose_area : ∀ block ∈ loose, low ≤ block ∧ block < high
  loose_nodup : loose.Nodup
  loose_free : ∀ block ∈ loose, ∀ place, addr place ≠ block
  exact : ∀ block, low ≤ block → block < high →
    (used block = true ↔ block ∈ loose ∨ ∃ place, addr place = block)
  reserved : ∀ block, block < low → used block = true

namespace Tracks

variable {low high block : Nat} {used : Nat → Bool} {addr : Place → Nat} {loose : List Nat}
  {place : Place}

theorem unused (tracks : Tracks low high used addr loose) (free : used block = false)
    (bound : block < high) : low ≤ block ∧ block ∉ loose ∧ ∀ place, addr place ≠ block := by
  have above : low ≤ block := by
    by_contra below
    rw [tracks.reserved block (by omega)] at free
    cases free
  have nobody := (tracks.exact block above bound).not.mp (by rw [free]; exact Bool.false_ne_true)
  exact ⟨above, fun isLoose => nobody (.inl isLoose), fun place holds => nobody (.inr ⟨place, holds⟩)⟩

theorem used_of_addr (tracks : Tracks low high used addr loose)
    (holds : addr place ≠ 0) : used (addr place) = true :=
  have inside := tracks.area place holds
  (tracks.exact _ inside.1 inside.2).mpr (.inr ⟨place, rfl⟩)

theorem take (tracks : Tracks low high used addr loose) (free : used block = false)
    (bound : block < high) : Tracks low high (update used block true) addr (block :: loose) := by
  obtain ⟨above, notLoose, notHeld⟩ := tracks.unused free bound
  refine
    { low_pos := tracks.low_pos
      area := tracks.area
      distinct := tracks.distinct
      loose_area := ?_
      loose_nodup := nodup_cons.mpr ⟨notLoose, tracks.loose_nodup⟩
      loose_free := ?_
      exact := ?_
      reserved := ?_ }
  · intro other member
    rcases mem_cons.mp member with rfl | member
    · exact ⟨above, bound⟩
    · exact tracks.loose_area other member
  · intro other member
    rcases mem_cons.mp member with rfl | member
    · exact notHeld
    · exact tracks.loose_free other member
  · intro other lower upper
    by_cases same : other = block
    · subst same
      simp
    · simp [same, tracks.exact other lower upper]
  · intro other below
    have different : other ≠ block := by omega
    rw [update_of_ne different]
    exact tracks.reserved other below

theorem give (tracks : Tracks low high used addr (block :: loose)) :
    Tracks low high (update used block false) addr loose := by
  obtain ⟨notLoose, nodup⟩ := nodup_cons.mp tracks.loose_nodup
  have inside := tracks.loose_area block mem_cons_self
  refine
    { low_pos := tracks.low_pos
      area := tracks.area
      distinct := tracks.distinct
      loose_area := fun other member => tracks.loose_area other (mem_cons_of_mem _ member)
      loose_nodup := nodup
      loose_free := fun other member => tracks.loose_free other (mem_cons_of_mem _ member)
      exact := ?_
      reserved := ?_ }
  · intro other lower upper
    by_cases same : other = block
    · subst same
      simp [notLoose, tracks.loose_free other mem_cons_self]
    · simp [same, tracks.exact other lower upper]
  · intro other below
    have different : other ≠ block := by omega
    rw [update_of_ne different]
    exact tracks.reserved other below

theorem store [DecidableEq Place] (tracks : Tracks low high used addr (block :: loose))
    (empty : addr place = 0) : Tracks low high used (update addr place block) loose := by
  obtain ⟨notLoose, nodup⟩ := nodup_cons.mp tracks.loose_nodup
  have inside := tracks.loose_area block mem_cons_self
  have notHeld := tracks.loose_free block mem_cons_self
  refine
    { low_pos := tracks.low_pos
      area := ?_
      distinct := ?_
      loose_area := fun other member => tracks.loose_area other (mem_cons_of_mem _ member)
      loose_nodup := nodup
      loose_free := ?_
      exact := ?_
      reserved := tracks.reserved }
  · intro other holds
    by_cases same : other = place
    · subst same
      simpa using inside
    · rw [update_of_ne same] at holds ⊢
      exact tracks.area other holds
  · intro first second holds equal
    by_cases firstSame : first = place <;> by_cases secondSame : second = place
    · rw [firstSame, secondSame]
    · subst firstSame
      rw [update_self, update_of_ne secondSame] at equal
      exact absurd equal.symm (notHeld second)
    · subst secondSame
      rw [update_self, update_of_ne firstSame] at equal
      exact absurd equal (notHeld first)
    · rw [update_of_ne firstSame] at holds equal
      rw [update_of_ne secondSame] at equal
      exact tracks.distinct first second holds equal
  · intro other member holder
    by_cases same : holder = place
    · subst same
      rw [update_self]
      exact fun equal => notLoose (equal ▸ member)
    · rw [update_of_ne same]
      exact tracks.loose_free other (mem_cons_of_mem _ member) holder
  · intro other lower upper
    rw [tracks.exact other lower upper, mem_cons]
    constructor
    · rintro ((rfl | member) | ⟨holder, holds⟩)
      · exact .inr ⟨place, update_self ..⟩
      · exact .inl member
      · refine .inr ⟨holder, ?_⟩
        -- the holder is another place: `place` held nothing, and 0 is below `low`
        have different : holder ≠ place := by
          rintro rfl
          have := tracks.low_pos
          omega
        rw [update_of_ne different, holds]
    · rintro (member | ⟨holder, holds⟩)
      · exact .inl (.inr member)
      · by_cases same : holder = place
        · subst same
          rw [update_self] at holds
          exact .inl (.inl holds.symm)
        · rw [update_of_ne same] at holds
          exact .inr ⟨holder, holds⟩

theorem clearOne [DecidableEq Place] (tracks : Tracks low high used addr loose)
    (holds : addr place ≠ 0) :
    Tracks low high used (update addr place 0) (addr place :: loose) := by
  have inside := tracks.area place holds
  refine
    { low_pos := tracks.low_pos
      area := ?_
      distinct := ?_
      loose_area := ?_
      loose_nodup := ?_
      loose_free := ?_
      exact := ?_
      reserved := tracks.reserved }
  · intro other nonzero
    have different : other ≠ place := by
      rintro rfl
      exact nonzero (update_self ..)
    rw [update_of_ne different] at nonzero ⊢
    exact tracks.area other nonzero
  · intro first second nonzero equal
    have firstDifferent : first ≠ place := by
      rintro rfl
      exact nonzero (update_self ..)
    have secondDifferent : second ≠ place := by
      rintro rfl
      exact nonzero (equal.trans (update_self ..))
    rw [update_of_ne firstDifferent] at nonzero equal
    rw [update_of_ne secondDifferent] at equal
    exact tracks.distinct first second nonzero equal
  · intro other member
    rcases mem_cons.mp member with rfl | member
    · exact inside
    · exact tracks.loose_area other member
  · refine nodup_cons.mpr ⟨fun member => ?_, tracks.loose_nodup⟩
    exact tracks.loose_free _ member place rfl
  · intro other member holder
    by_cases same : holder = place
    · subst same
      rw [update_self]
      have := tracks.low_pos
      rcases mem_cons.mp member with rfl | member
      · exact holds.symm
      · have := tracks.loose_area other member
        omega
    · rw [update_of_ne same]
      rcases mem_cons.mp member with rfl | member
      · exact fun equal => same (tracks.distinct holder place (equal ▸ holds) equal)
      · exact tracks.loose_free other member holder
  · intro other lower upper
    have positive := tracks.low_pos
    rw [tracks.exact other lower upper, mem_cons]
    constructor
    · rintro (member | ⟨holder, rfl⟩)
      · exact .inl (.inr member)
      · by_cases same : holder = place
        · exact .inl (.inl (by rw [same]))
        · exact .inr ⟨holder, update_of_ne same ..⟩
    · rintro ((rfl | member) | ⟨holder, equal⟩)
      · exact .inr ⟨place, rfl⟩
      · exact .inl member
      · have different : holder ≠ place := by
          rintro rfl
          rw [update_self] at equal
          omega
        rw [update_of_ne different] at equal
        exact .inr ⟨holder, equal⟩

def held (addr : Place → Nat) (places : List Place) : List Nat :=
  (places.map addr).filter (· ≠ 0)

theorem clear [DecidableEq Place] (tracks : Tracks low high used addr loose) (places : List Place)
    (nodup : places.Nodup) :
    Tracks low high used (fun place => if place ∈ places then 0 else addr place)
      (held addr places ++ loose) := by
  induction places with
  | nil => simpa [held] using tracks
  | cons place rest ih =>
    obtain ⟨fresh, restNodup⟩ := nodup_cons.mp nodup
    have cleared := ih restNodup
    have goal : (fun other => if other ∈ place :: rest then 0 else addr other) =
        update (fun other => if other ∈ rest then 0 else addr other) place 0 := by
      funext other
      by_cases same : other = place
      · subst same
        simp
      · simp [same]
    rw [goal]
    by_cases empty : addr place = 0
    · have unchanged : update (fun other => if other ∈ rest then 0 else addr other) place 0 =
          (fun other => if other ∈ rest then 0 else addr other) := by
        simp [empty]
      rw [unchanged]
      simpa [held, empty] using cleared
    · have nonzero : (if place ∈ rest then 0 else addr place) ≠ 0 := by simpa [fresh] using empty
      simpa [held, empty, fresh] using cleared.clearOne nonzero

end Tracks

end Laboratorio.Lib
