import Laboratorio.Lab07.Replacement
import Mathlib.Data.Fintype.EquivFin

/-! # The secondary store

An evicted page is written to the secondary store, and nothing takes it out again.  As
long as no page of the store is accessed, every page that was ever accessed is in exactly
one of the two stores, and the store has room for every eviction.
-/

namespace Laboratorio.Lab07

open Laboratorio.Lib Function Fintype

def Estado.Guardada (s : Estado) (v : Pagina) : Prop :=
  ∃ j, s.almacenamientoSecundario j = some v

instance (s : Estado) (v : Pagina) : Decidable (s.Guardada v) :=
  inferInstanceAs (Decidable (∃ j, s.almacenamientoSecundario j = some v))

/-- The accessed page is not in the secondary store. -/
def NoGuardada (t : Traza) (v : Pagina) : Prop :=
  ¬ t.estado.Guardada v

instance (t : Traza) (v : Pagina) : Decidable (NoGuardada t v) :=
  inferInstanceAs (Decidable (¬ t.estado.Guardada v))

section Store

variable {almacen : Fin (numPaginas * numProcesos) → Marco} {v w : Pagina}

/-- A store that holds no page twice has a slot free for any page that it does not hold:
it has as many slots as there are pages. -/
theorem exists_libre (once : ∀ i j w, almacen i = some w → almacen j = some w → i = j)
    (absent : ∀ j, almacen j ≠ some v) : ∃ j, almacen j = none := by
  by_contra full
  have taken : ∀ j, ∃ w, almacen j = some w := by
    intro j
    exact Option.ne_none_iff_exists'.mp fun free => full ⟨j, free⟩
  choose page found using taken
  have injective : Function.Injective page := by
    intro i j same
    exact once i j (page i) (found i) (same ▸ found j)
  have sameSize : card (Fin (numPaginas * numProcesos)) = card Pagina := by
    rw [card_fin, card_prod, card_fin, card_fin, Nat.mul_comm]
  obtain ⟨j, isV⟩ :=
    ((bijective_iff_injective_and_card page).mpr ⟨injective, sameSize⟩).2 v
  exact absent j (isV ▸ found j)

theorem guardar_of_libre (free : ∃ j, almacen j = none) :
    ∃ j, almacen j = none ∧ guardar almacen v = update almacen j (some v) := by
  simp only [guardar]
  cases search : (List.finRange (numPaginas * numProcesos)).find? fun j => (almacen j).isNone with
  | none =>
    obtain ⟨j, free⟩ := free
    have used := List.find?_eq_none.mp search j (List.mem_finRange j)
    rw [free] at used
    exact absurd rfl used
  | some j =>
    have found := List.find?_some search
    exact ⟨j, Option.isNone_iff_eq_none.mp found, rfl⟩

end Store

structure Separado (t : Traza) : Prop where
  ordenado : Ordenado t
  alguno : ∀ w, 0 < t.ultimoAcceso w → t.estado.Residente w ∨ t.estado.Guardada w
  ninguno : ∀ w, t.estado.Guardada w → ¬ t.estado.Residente w
  unico : ∀ i j w, t.estado.almacenamientoSecundario i = some w →
    t.estado.almacenamientoSecundario j = some w → i = j

theorem separado_inicial : Separado Traza.inicial where
  ordenado := ordenado_inicial
  alguno _ := nofun
  ninguno _ := nofun
  unico := nofun

section Runs

variable {algoritmo : Algoritmo} {t t' : Traza} {v : Pagina} {i : Fin numMarcos}

theorem Separado.acierto (inv : Separado t) (hit : EsAcierto t.estado v t'.estado)
    (ordered : Ordenado t')
    (accessed : t'.ultimoAcceso = update t.ultimoAcceso v (t.reloj + 1)) : Separado t' := by
  have sameStored : ∀ w, t'.estado.Guardada w ↔ t.estado.Guardada w := by
    intro w
    simp [Estado.Guardada, hit.almacen]
  refine ⟨ordered, fun w => ?_, fun w => ?_, fun i j w => ?_⟩
  · rw [hit.residente_iff, sameStored, accessed]
    intro used
    by_cases isV : w = v
    · exact .inl (isV ▸ hit.residente)
    · rw [update_of_ne isV] at used
      exact inv.alguno w used
  · rw [hit.residente_iff, sameStored]
    exact inv.ninguno w
  · rw [hit.almacen]
    exact inv.unico i j w

theorem Separado.cargaLibre (inv : Separado t) (miss : EsFallo t.estado v i t'.estado)
    (permitted : NoGuardada t v) (free : t.estado.memoriaFisica i = none) (ordered : Ordenado t')
    (accessed : t'.ultimoAcceso = update t.ultimoAcceso v (t.reloj + 1)) : Separado t' := by
  have coherent := inv.ordenado.coherente
  have sameStore : t'.estado.almacenamientoSecundario = t.estado.almacenamientoSecundario := by
    rw [miss.almacen, free]
  have sameStored : ∀ w, t'.estado.Guardada w ↔ t.estado.Guardada w := by
    intro w
    simp [Estado.Guardada, sameStore]
  have resident : ∀ w, t'.estado.Residente w ↔ w = v ∨ t.estado.Residente w := by
    intro w
    rw [miss.residente_iff coherent, free]
    simp
  refine ⟨ordered, fun w => ?_, fun w => ?_, fun i j w => ?_⟩
  · rw [resident, sameStored, accessed]
    intro used
    by_cases isV : w = v
    · exact .inl (.inl isV)
    · rw [update_of_ne isV] at used
      cases inv.alguno w used with
      | inl before => exact .inl (.inr before)
      | inr stored => exact .inr stored
  · rw [resident, sameStored]
    intro stored now
    cases now with
    | inl isV => exact permitted (isV ▸ stored)
    | inr before => exact inv.ninguno w stored before
  · rw [sameStore]
    exact inv.unico i j w

theorem Separado.cargaOcupada (inv : Separado t) (miss : EsFallo t.estado v i t'.estado)
    (permitted : NoGuardada t v) {victim : Pagina} (found : t.estado.memoriaFisica i = some victim)
    (ordered : Ordenado t')
    (accessed : t'.ultimoAcceso = update t.ultimoAcceso v (t.reloj + 1)) : Separado t' := by
  have coherent := inv.ordenado.coherente
  -- the victim was in memory, so it is not in the store and the store has room
  have notStored : ∀ j, t.estado.almacenamientoSecundario j ≠ some victim := fun j stored =>
    inv.ninguno victim ⟨j, stored⟩ ⟨i, found⟩
  obtain ⟨slot, slotFree, stored⟩ := guardar_of_libre (exists_libre inv.unico notStored) (v := victim)
  have newStore : t'.estado.almacenamientoSecundario =
      update t.estado.almacenamientoSecundario slot (some victim) := by
    rw [miss.almacen, found]
    exact stored
  have notNew : victim ≠ v := fun same => miss.ausente ⟨i, same ▸ found⟩
  have nowStored : ∀ w, t'.estado.Guardada w ↔ w = victim ∨ t.estado.Guardada w := by
    intro w
    simp only [Estado.Guardada, newStore]
    constructor
    · intro ⟨j, storedJ⟩
      induction j using update_cases with
      | own =>
        rw [Option.some.injEq] at storedJ
        exact .inl storedJ.symm
      | others j _ => exact .inr ⟨j, storedJ⟩
    · intro isStored
      cases isStored with
      | inl isVictim => exact ⟨slot, by rw [update_self, isVictim]⟩
      | inr before =>
        obtain ⟨j, storedJ⟩ := before
        have different : j ≠ slot := by
          intro same
          rw [same, slotFree] at storedJ
          cases storedJ
        exact ⟨j, by rw [update_of_ne different, storedJ]⟩
  have resident : ∀ w, t'.estado.Residente w ↔ w = v ∨ (t.estado.Residente w ∧ w ≠ victim) := by
    intro w
    rw [miss.residente_iff coherent, found, Ne, Option.some.injEq, eq_comm (a := victim)]
  refine ⟨ordered, fun w => ?_, fun w => ?_, fun j k w => ?_⟩
  · rw [resident, nowStored, accessed]
    intro used
    by_cases isV : w = v
    · exact .inl (.inl isV)
    · rw [update_of_ne isV] at used
      by_cases isVictim : w = victim
      · exact .inr (.inl isVictim)
      · cases inv.alguno w used with
        | inl before => exact .inl (.inr ⟨before, isVictim⟩)
        | inr before => exact .inr (.inr before)
  · rw [resident, nowStored]
    intro isStored now
    cases isStored with
    | inl isVictim =>
      cases now with
      | inl isV => exact notNew (isVictim ▸ isV)
      | inr before => exact before.2 isVictim
    | inr stored =>
      cases now with
      | inl isV => exact permitted (isV ▸ stored)
      | inr before => exact inv.ninguno w stored before.1
  · rw [newStore]
    intro storedJ storedK
    by_cases sameJ : j = slot
    · by_cases sameK : k = slot
      · rw [sameJ, sameK]
      · rw [sameJ, update_self] at storedJ
        rw [update_of_ne sameK, ← storedJ] at storedK
        exact absurd storedK (notStored k)
    · rw [update_of_ne sameJ] at storedJ
      induction k using update_cases with
      | own =>
        rw [← storedK] at storedJ
        exact absurd storedJ (notStored j)
      | others k _ => exact inv.unico j k w storedJ storedK

theorem Separado.acceder (inv : Separado t) (permitted : NoGuardada t v)
    (ok : t.acceder algoritmo v = some t') : Separado t' := by
  have ordered := inv.ordenado.acceder ok
  obtain ⟨_, accessed, hitOrMiss⟩ := acceder_cases inv.ordenado.coherente ok
  cases hitOrMiss with
  | inl hit => exact inv.acierto hit.1 ordered accessed
  | inr miss =>
    obtain ⟨i, miss, _⟩ := miss
    cases found : t.estado.memoriaFisica i with
    | none => exact inv.cargaLibre miss permitted found ordered accessed
    | some victim => exact inv.cargaOcupada miss permitted found ordered accessed

end Runs

/-- In runs that never access a page of the secondary store, every page that was accessed
is in one frame and not in the store, or in one slot of the store and in no frame. -/
theorem page_in_one_store {algoritmo : Algoritmo} {t : Traza}
    (reachable : (simulador algoritmo).ReachableWhen NoGuardada t) {w : Pagina}
    (used : 0 < t.ultimoAcceso w) :
    ((∃! i, t.estado.memoriaFisica i = some w) ∧ ¬ t.estado.Guardada w) ∨
      (¬ t.estado.Residente w ∧ ∃! j, t.estado.almacenamientoSecundario j = some w) := by
  have inv : Separado t := by
    refine reachable.invariant ?_ ?_
    · intro _ start
      exact start ▸ separado_inicial
    · intro state label next _ inv permitted taken
      exact inv.acceder permitted taken
  cases inv.alguno w used with
  | inl resident =>
    obtain ⟨i, found⟩ := resident
    refine .inl ⟨⟨i, found, fun j foundJ => ?_⟩, fun stored => inv.ninguno w stored ⟨i, found⟩⟩
    exact inv.ordenado.coherente.unico j i w foundJ found
  | inr stored =>
    obtain ⟨j, found⟩ := stored
    refine .inr ⟨inv.ninguno w ⟨j, found⟩, j, found, fun k foundK => ?_⟩
    exact inv.unico k j w foundK found

theorem first_page_in_store :
    ∃ t, (simulador .lru).ReachableWhen NoGuardada t ∧ 0 < t.ultimoAcceso (0, 0) ∧
      (((∃! i, t.estado.memoriaFisica i = some (0, 0)) ∧ ¬ t.estado.Guardada (0, 0)) ∨
        (¬ t.estado.Residente (0, 0) ∧ ∃! j, t.estado.almacenamientoSecundario j = some (0, 0))) ∧
      t.estado.Guardada (0, 0) := by
  have ran : ∃ t ∈ (simulador .lru).runWhen NoGuardada Traza.inicial
      (paginas 0 [0, 1, 2, 3, 4, 5, 6, 7, 8]),
        0 < t.ultimoAcceso (0, 0) ∧ t.estado.Guardada (0, 0) := by
    decide +kernel
  obtain ⟨t, reachable, holds⟩ := System.ReachableWhen.exists_of_runWhen (.init rfl) ran
  exact ⟨t, reachable, holds.1, page_in_one_store reachable holds.1, holds.2⟩

/-- An evicted page that is loaded again stays in the store. -/
theorem reloaded_page_in_both :
    ∃ t, (simulador .lru).Reachable t ∧ 0 < t.ultimoAcceso (0, 0) ∧ t.estado.Residente (0, 0) ∧
      t.estado.Guardada (0, 0) := by
  have ran : ∃ t ∈ (simulador .lru).runWhen (fun _ _ => True) Traza.inicial
      (paginas 0 [0, 1, 2, 3, 4, 5, 6, 7, 8, 0]), 0 < t.ultimoAcceso (0, 0) ∧
        t.estado.Residente (0, 0) ∧ t.estado.Guardada (0, 0) := by
    decide +kernel
  exact System.ReachableWhen.exists_of_runWhen (.init rfl) ran

end Laboratorio.Lab07
