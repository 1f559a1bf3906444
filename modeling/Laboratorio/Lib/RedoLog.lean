import Mathlib.Data.List.Basic
import Mathlib.Logic.Function.Basic

/-! # Redo logs on a device that writes one block at a time

A device is a function from addresses to blocks; `applyWrites` carries out a list of
block writes in order, and a crash keeps a prefix of them.  `Along` says that a
property holds after every prefix.

A `RedoLog` reserves a header and some slots of the device.  The header lists the home
addresses whose new contents stand in the slots; `contents` is what those addresses
are worth: the slot of a listed address, the device elsewhere.  `Holds` says that the
device holds given contents in this sense.  Each write of a commit and of a recovery
keeps `Holds`, and only the write of a full header changes the contents, all at once.
-/

namespace Laboratorio.Lib

open Function List

variable {Addr Block : Type} [DecidableEq Addr] {writes : List (Addr × Block)}
  {write : Addr × Block}

def applyWrites (disk : Addr → Block) (writes : List (Addr × Block)) : Addr → Block :=
  writes.foldl (fun disk write => update disk write.1 write.2) disk

@[simp]
theorem applyWrites_nil (disk : Addr → Block) : applyWrites disk [] = disk := rfl

@[simp]
theorem applyWrites_cons (disk : Addr → Block) (write : Addr × Block)
    (writes : List (Addr × Block)) : applyWrites disk (write :: writes) =
      applyWrites (update disk write.1 write.2) writes := rfl

theorem applyWrites_append (disk : Addr → Block) (first second : List (Addr × Block)) :
    applyWrites disk (first ++ second) = applyWrites (applyWrites disk first) second :=
  foldl_append

/-- A property of the device that holds before the writes and after each of them. -/
def Along (P : (Addr → Block) → Prop) (disk : Addr → Block) (writes : List (Addr × Block)) : Prop :=
  ∀ count, P (applyWrites disk (writes.take count))

namespace Along

variable {P Q : (Addr → Block) → Prop} {disk : Addr → Block}

theorem nil (holds : P disk) : Along P disk [] := by
  intro count
  simpa using holds

theorem cons (holds : P disk) (rest : Along P (update disk write.1 write.2) writes) :
    Along P disk (write :: writes) := by
  intro count
  cases count with
  | zero => exact holds
  | succ count => exact rest count

theorem append {first second : List (Addr × Block)} (before : Along P disk first)
    (rest : Along P (applyWrites disk first) second) : Along P disk (first ++ second) := by
  intro count
  rw [take_append, applyWrites_append]
  by_cases within : count ≤ first.length
  · rw [Nat.sub_eq_zero_of_le within]
    exact before count
  · rw [take_of_length_le (by omega)]
    exact rest _

theorem all (along : Along P disk writes) : P (applyWrites disk writes) := by
  have last := along writes.length
  rwa [take_length] at last

end Along

/-- A header and `capacity` slots; `entries` reads the listed addresses off a header. -/
structure RedoLog (Addr Block : Type) where
  head : Addr
  slot : Nat → Addr
  capacity : Nat
  entries : Block → List Addr
  slot_ne_head : ∀ i, i < capacity → slot i ≠ head
  slot_injective : ∀ i j, i < capacity → j < capacity → slot i = slot j → i = j

namespace RedoLog

variable (log : RedoLog Addr Block)

/-- The addresses that the log keeps for itself. -/
def Inside (addr : Addr) : Prop :=
  addr = log.head ∨ ∃ i, i < log.capacity ∧ addr = log.slot i

/-- A list of addresses that a header may name. -/
structure Sound (targets : List Addr) : Prop where
  nodup : targets.Nodup
  fits : targets.length ≤ log.capacity
  outside : ∀ addr ∈ targets, ¬ log.Inside addr

/-- What an address is worth: its slot if the header lists it. -/
def contents (disk : Addr → Block) (addr : Addr) : Block :=
  if addr ∈ log.entries (disk log.head) then
    disk (log.slot ((log.entries (disk log.head)).idxOf addr))
  else disk addr

/-- The device holds `logical`, up to a recovery. -/
structure Holds (disk logical : Addr → Block) : Prop where
  sound : log.Sound (log.entries (disk log.head))
  contents : ∀ addr, ¬ log.Inside addr → log.contents disk addr = logical addr

/-- The writes of an installation from slot `i` on. -/
def installs (disk : Addr → Block) : Nat → List Addr → List (Addr × Block)
  | _, [] => []
  | i, addr :: rest => (addr, disk (log.slot i)) :: installs disk (i + 1) rest

/-- The writes of new contents into the slots from `i` on. -/
def fills (logical : Addr → Block) : Nat → List Addr → List (Addr × Block)
  | _, [] => []
  | i, addr :: rest => (log.slot i, logical addr) :: fills logical (i + 1) rest

variable {log} {disk logical new : Addr → Block} {targets : List Addr} {header : Block} {i : Nat}

omit [DecidableEq Addr] in
theorem sound_nil : log.Sound [] :=
  ⟨nodup_nil, Nat.zero_le _, nofun⟩

omit [DecidableEq Addr] in
theorem head_ne {addr : Addr} (home : ¬ log.Inside addr) : addr ≠ log.head :=
  fun same => home (Or.inl same)

omit [DecidableEq Addr] in
theorem slot_ne {addr : Addr} (home : ¬ log.Inside addr) (bound : i < log.capacity) :
    addr ≠ log.slot i :=
  fun same => home (Or.inr ⟨i, bound, same⟩)

theorem contents_of_empty (empty : log.entries (disk log.head) = [])
    (addr : Addr) : log.contents disk addr = disk addr := by
  simp [RedoLog.contents, empty]

theorem Holds.write_slot (data : Block) (empty : log.entries (disk log.head) = [])
    (bound : i < log.capacity) (holds : log.Holds disk logical) :
    log.Holds (update disk (log.slot i) data) logical ∧
      log.entries (update disk (log.slot i) data log.head) = [] := by
  have header : update disk (log.slot i) data log.head = disk log.head :=
    update_of_ne (log.slot_ne_head i bound).symm _ _
  have stillEmpty : log.entries (update disk (log.slot i) data log.head) = [] := by
    rw [header, empty]
  refine ⟨⟨stillEmpty ▸ sound_nil, fun addr home => ?_⟩, stillEmpty⟩
  rw [contents_of_empty stillEmpty, update_of_ne (slot_ne home bound),
    ← contents_of_empty empty]
  exact holds.contents addr home

theorem along_fills (new : Addr → Block) (empty : log.entries (disk log.head) = [])
    (fits : i + targets.length ≤ log.capacity) (holds : log.Holds disk logical) :
    Along (fun disk => log.Holds disk logical ∧ log.entries (disk log.head) = []) disk
      (log.fills new i targets) := by
  induction targets generalizing disk i with
  | nil => exact .nil ⟨holds, empty⟩
  | cons addr rest ih =>
    simp only [length_cons] at fits
    obtain ⟨stillHolds, stillEmpty⟩ := holds.write_slot (new addr) empty (i := i) (by omega)
    exact .cons ⟨holds, empty⟩ (ih stillEmpty (by omega) stillHolds)

omit [DecidableEq Addr] in
theorem ne_head_of_mem_fills (fits : i + targets.length ≤ log.capacity)
    (member : write ∈ log.fills new i targets) : write.1 ≠ log.head := by
  induction targets generalizing i with
  | nil => cases member
  | cons addr rest ih =>
    simp only [length_cons] at fits
    rw [fills, mem_cons] at member
    cases member with
    | inl first => rw [first]; exact log.slot_ne_head i (by omega)
    | inr later => exact ih (by omega) later

/-- The slots hold the new contents once they are filled. -/
theorem applyWrites_fills (disk new : Addr → Block) (fits : i + targets.length ≤ log.capacity) :
    (∀ k (bound : k < targets.length),
      applyWrites disk (log.fills new i targets) (log.slot (i + k)) = new targets[k]) ∧
    ∀ addr, (∀ k, k < log.capacity → i ≤ k → addr ≠ log.slot k) →
      applyWrites disk (log.fills new i targets) addr = disk addr := by
  induction targets generalizing disk i with
  | nil => exact ⟨nofun, fun _ _ => rfl⟩
  | cons first rest ih =>
    simp only [List.length_cons] at fits
    obtain ⟨filled, kept⟩ :=
      ih (update disk (log.slot i) (new first)) (i := i + 1) (by omega)
    refine ⟨fun k bound => ?_, fun addr apart => ?_⟩
    · cases k with
      | zero =>
        rw [fills, applyWrites_cons, kept _ fun k small later same => ?_]
        · simp
        · have := log.slot_injective _ _ (by omega) small same
          omega
      | succ k =>
        have slot := filled k (by simpa using bound)
        rw [Nat.add_right_comm] at slot
        rw [fills]
        simpa [Nat.add_assoc] using slot
    · rw [fills, applyWrites_cons, kept addr fun k small later => apart k small (by omega)]
      exact update_of_ne (apart i (by omega) (Nat.le_refl i)) _ _

/-- The write of a full header: the listed addresses change their contents together. -/
theorem Holds.commit (empty : log.entries (disk log.head) = [])
    (listed : log.entries header = targets) (sound : log.Sound targets)
    (filled : ∀ k (bound : k < targets.length), disk (log.slot k) = new targets[k])
    (holds : log.Holds disk logical) :
    log.Holds (update disk log.head header)
      (fun addr => if addr ∈ targets then new addr else logical addr) := by
  have written : log.entries (update disk log.head header log.head) = targets := by
    rw [update_self, listed]
  refine ⟨written ▸ sound, fun addr home => ?_⟩
  rw [RedoLog.contents, written]
  by_cases member : addr ∈ targets
  · have bound := idxOf_lt_length_iff.mpr member
    have small : targets.idxOf addr < log.capacity := Nat.lt_of_lt_of_le bound sound.fits
    rw [if_pos member, if_pos member, update_of_ne (log.slot_ne_head _ small),
      filled _ bound, getElem_idxOf]
  · rw [if_neg member, if_neg member, update_of_ne (head_ne home),
      ← contents_of_empty empty]
    exact holds.contents addr home

theorem Holds.install {k : Nat}
    (bound : k < (log.entries (disk log.head)).length) (holds : log.Holds disk logical) :
    log.Holds (update disk (log.entries (disk log.head))[k] (disk (log.slot k)))
      logical := by
  obtain ⟨sound, contents⟩ := holds
  generalize targets_eq : log.entries (disk log.head) = targets at bound sound ⊢
  have home := sound.outside targets[k] (getElem_mem bound)
  have header : update disk targets[k] (disk (log.slot k)) log.head = disk log.head :=
    update_of_ne (head_ne home).symm _ _
  refine ⟨by rw [header, targets_eq]; exact sound, fun addr isHome => ?_⟩
  rw [← contents addr isHome, RedoLog.contents, RedoLog.contents, header, targets_eq]
  by_cases member : addr ∈ targets
  · have small : targets.idxOf addr < log.capacity :=
      Nat.lt_of_lt_of_le (List.idxOf_lt_length_iff.mpr member) sound.fits
    rw [if_pos member, if_pos member, update_of_ne (slot_ne home small).symm]
  · have different : addr ≠ targets[k] := by
      rintro rfl
      exact member (getElem_mem bound)
    rw [if_neg member, if_neg member, update_of_ne different]

/-- The write of an empty header after every listed address is installed. -/
theorem Holds.clear
    (empty : log.entries header = [])
    (installed : ∀ k (bound : k < (log.entries (disk log.head)).length),
      disk (log.entries (disk log.head))[k] = disk (log.slot k))
    (holds : log.Holds disk logical) :
    log.Holds (update disk log.head header) logical := by
  have written : log.entries (update disk log.head header log.head) = [] := by
    rw [update_self, empty]
  refine ⟨written ▸ sound_nil, fun addr home => ?_⟩
  rw [contents_of_empty written, update_of_ne (head_ne home), ← holds.contents addr home,
    RedoLog.contents]
  split
  · rename_i member
    have slot := installed _ (idxOf_lt_length_iff.mpr member)
    rw [getElem_idxOf] at slot
    exact slot
  · rfl

omit [DecidableEq Addr] in
theorem installs_congr {disk' : Addr → Block}
    (same : ∀ k, i ≤ k → k < i + targets.length → disk' (log.slot k) = disk (log.slot k)) :
    log.installs disk' i targets = log.installs disk i targets := by
  induction targets generalizing i with
  | nil => rfl
  | cons addr rest ih =>
    simp only [List.length_cons] at same
    rw [installs, installs, same i (Nat.le_refl i) (by omega),
      ih fun k low high => same k (by omega) (by omega)]

/-- An installation of the rest of a header, `done` being installed already. -/
theorem along_installs {done rest : List Addr} (split : log.entries (disk log.head) = done ++ rest)
    (installed : ∀ k (bound : k < done.length), disk done[k] = disk (log.slot k))
    (holds : log.Holds disk logical) :
    Along (log.Holds · logical) disk (log.installs disk done.length rest) ∧
    (∀ addr, log.Inside addr →
      applyWrites disk (log.installs disk done.length rest) addr = disk addr) ∧
    ∀ k (bound : k < (done ++ rest).length),
      applyWrites disk (log.installs disk done.length rest) (done ++ rest)[k] =
        disk (log.slot k) := by
  induction rest generalizing disk done with
  | nil =>
    refine ⟨.nil holds, fun _ _ => rfl, fun k bound => ?_⟩
    simp only [List.append_nil] at bound ⊢
    exact installed k bound
  | cons addr rest ih =>
    have sound := split ▸ holds.sound
    have home : ¬ log.Inside addr := sound.outside addr (by simp)
    have lastIndex : done.length < (log.entries (disk log.head)).length := by
      rw [split]
      simp
    have stillHolds := holds.install lastIndex
    simp only [split, List.getElem_append_right (Nat.le_refl _),
      Nat.sub_self] at stillHolds
    have kept : ∀ inside, log.Inside inside →
        update disk addr (disk (log.slot done.length)) inside = disk inside := by
      intro inside isInside
      refine update_of_ne ?_ _ _
      rintro rfl
      exact home isInside
    have slots : ∀ k, k < log.capacity →
        update disk addr (disk (log.slot done.length)) (log.slot k) =
          disk (log.slot k) :=
      fun k small => kept _ (Or.inr ⟨k, small, rfl⟩)
    have fits : done.length + 1 + rest.length ≤ log.capacity := by
      have := sound.fits
      simp only [List.length_append, List.length_cons] at this
      omega
    have splitNext : log.entries (update disk addr (disk (log.slot done.length))
        log.head) = (done ++ [addr]) ++ rest := by
      rw [kept _ (Or.inl rfl), split]
      simp
    have fresh : addr ∉ done := by
      have nodup := sound.nodup
      rw [List.nodup_append] at nodup
      exact fun member => nodup.2.2 addr member addr List.mem_cons_self rfl
    have installedNext : ∀ k (bound : k < (done ++ [addr]).length),
        update disk addr (disk (log.slot done.length)) (done ++ [addr])[k] =
          update disk addr (disk (log.slot done.length)) (log.slot k) := by
      intro k bound
      simp only [List.length_append, List.length_singleton] at bound
      rw [slots k (by omega)]
      by_cases last : k = done.length
      · subst last
        simp
      · have before : k < done.length := by omega
        rw [List.getElem_append_left before, update_of_ne, installed k before]
        rintro rfl
        exact fresh (List.getElem_mem before)
    obtain ⟨along, inside, all⟩ := ih splitNext installedNext stillHolds
    have next : log.installs (update disk addr (disk (log.slot done.length)))
        (done ++ [addr]).length rest = log.installs disk (done.length + 1) rest := by
      rw [List.length_append, List.length_singleton]
      exact installs_congr fun k _ high => slots k (by omega)
    rw [next] at along inside all
    refine ⟨.cons holds along, fun other isInside => ?_, fun k bound => ?_⟩
    · rw [installs, applyWrites_cons, inside other isInside, kept other isInside]
    · have small : k < log.capacity := by
        simp only [List.length_append, List.length_cons] at bound
        omega
      have value := all k (by simpa using bound)
      rw [slots k small] at value
      rw [installs, ← value]
      simp

/-- A recovery installs what the header lists and clears it.  It can be cut short after
any write. -/
theorem along_recovery (empty : log.entries header = []) (holds : log.Holds disk logical) :
    Along (log.Holds · logical) disk
      (log.installs disk 0 (log.entries (disk log.head)) ++ [(log.head, header)]) := by
  obtain ⟨along, inside, installed⟩ := along_installs (List.nil_append _).symm nofun holds
  simp only [List.length_nil] at along inside installed
  have listed : log.entries (applyWrites disk (log.installs disk 0
      (log.entries (disk log.head))) log.head) = log.entries (disk log.head) := by
    rw [inside _ (Or.inl rfl)]
  refine .append along (.cons along.all (.nil (along.all.clear empty fun k bound => ?_)))
  simp only [listed] at bound ⊢
  have small : k < log.capacity := Nat.lt_of_lt_of_le bound holds.sound.fits
  rw [inside _ (Or.inr ⟨k, small, rfl⟩)]
  exact installed k bound

theorem applyWrites_recovery :
    applyWrites disk (writes ++ [(log.head, header)]) log.head = header := by
  rw [applyWrites_append]
  simp

end RedoLog

end Laboratorio.Lib
