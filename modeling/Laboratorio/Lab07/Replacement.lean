import Laboratorio.Lab07.Tables
import Laboratorio.Lib.Lists

/-! # Which page is evicted

Both options run the same code, and the victim is the first page with the largest
`contadorLRU`.  Within one process the counters never contradict the order of the last
accesses, but two of them can be equal, and counters of different processes say nothing
about each other.  So the victim is the least recently used page when all pages in memory
belong to one process and one of them alone has the largest counter, and it is the page
loaded first when moreover none of them was accessed again.
-/

namespace Laboratorio.Lab07

open Laboratorio.Lib Function List Traza

/-! ## What an access adds to the history -/

section History

variable {algoritmo : Algoritmo} {t t' : Traza} {v w : Pagina} {i : Fin numMarcos}

theorem EsAcierto.expulsadas_eq {s s' : Estado} (hit : EsAcierto s v s') : expulsadas s s' = [] := by
  apply filterMap_eq_nil_iff.mpr
  intro j _
  cases found : s.memoriaFisica j with
  | none => rfl
  | some w =>
    have resident : s'.Residente w := hit.residente_iff.mpr ⟨j, found⟩
    simp [resident]

theorem EsFallo.expulsadas_eq {s s' : Estado} (miss : EsFallo s v i s') (inv : Coherente s) :
    expulsadas s s' = (s.memoriaFisica i).toList := by
  rw [← filterMap_at (nodup_finRange numMarcos) (mem_finRange i) (s.memoriaFisica i)]
  apply filterMap_congr
  intro j _
  cases found : s.memoriaFisica j with
  | none =>
    by_cases same : j = i
    · rw [if_pos same, ← same, found]
      rfl
    · rw [if_neg same]
      rfl
  | some w =>
    have notNew : w ≠ v := fun same => miss.ausente ⟨j, same ▸ found⟩
    by_cases same : j = i
    · subst same
      have gone : ¬ s'.Residente w := by
        rw [miss.residente_iff inv]
        simp [notNew, found]
      simp [gone, found]
    · have stays : s'.Residente w := by
        rw [miss.residente_iff inv]
        exact .inr ⟨⟨j, found⟩, fun chosen => same (inv.unico j i w found chosen)⟩
      simp [stays, same]

theorem acceder_cases (inv : Coherente t.estado) (ok : t.acceder algoritmo v = some t') :
    t'.reloj = t.reloj + 1 ∧ t'.ultimoAcceso = update t.ultimoAcceso v (t.reloj + 1) ∧
      ((EsAcierto t.estado v t'.estado ∧ t'.ultimaCarga = t.ultimaCarga ∧ t'.cargas = t.cargas ∧
          t'.desalojos = t.desalojos) ∨
        ∃ i, EsFallo t.estado v i t'.estado ∧
          t'.ultimaCarga = update t.ultimaCarga v (t.reloj + 1) ∧
          t'.cargas = t.cargas ++ [v] ∧
          t'.desalojos = t.desalojos ++ (t.estado.memoriaFisica i).toList) := by
  simp only [acceder, Option.bind_eq_bind, Option.bind_eq_some_iff] at ok
  obtain ⟨estado, assigned, equal⟩ := ok
  cases equal
  refine ⟨rfl, rfl, ?_⟩
  cases asignarPagina_cases assigned with
  | inl hit =>
    refine .inl ⟨hit, if_pos hit.residente, if_pos hit.residente, ?_⟩
    simp [hit.expulsadas_eq]
  | inr miss =>
    obtain ⟨i, miss⟩ := miss
    refine .inr ⟨i, miss, if_neg miss.ausente, if_neg miss.ausente, ?_⟩
    simp [miss.expulsadas_eq inv]

end History

/-! ## Counters and the order of accesses -/

/-- The page has not been accessed since it was loaded. -/
def Traza.Intacta (t : Traza) (v : Pagina) : Prop :=
  t.ultimoAcceso v = t.ultimaCarga v

structure Ordenado (t : Traza) : Prop where
  coherente : Coherente t.estado
  acceso : ∀ w, t.ultimoAcceso w ≤ t.reloj
  carga : ∀ w, t.ultimaCarga w ≤ t.reloj
  accesos : ∀ v w, t.estado.Residente v → t.estado.Residente w →
    t.ultimoAcceso v = t.ultimoAcceso w → v = w
  cargas : ∀ v w, t.estado.Residente v → t.estado.Residente w →
    t.ultimaCarga v = t.ultimaCarga w → v = w
  recientes : ∀ v w, t.estado.Residente v → t.estado.Residente w → v.1 = w.1 →
    t.ultimoAcceso v < t.ultimoAcceso w → t.estado.contador w ≤ t.estado.contador v
  intactas : ∀ v, t.estado.Residente v → t.Intacta v → 1 ≤ t.estado.contador v
  cargadas : ∀ v w, t.estado.Residente v → t.estado.Residente w → v.1 = w.1 →
    t.Intacta v → t.Intacta w → t.ultimaCarga v < t.ultimaCarga w →
    t.estado.contador w < t.estado.contador v

theorem ordenado_inicial : Ordenado Traza.inicial where
  coherente := coherente_inicializar
  acceso _ := le_refl _
  carga _ := le_refl _
  accesos _ _ := nofun
  cargas _ _ := nofun
  recientes _ _ := nofun
  intactas _ := nofun
  cargadas _ _ := nofun

section Order

variable {algoritmo : Algoritmo} {t t' : Traza} {v w : Pagina} {i : Fin numMarcos}

section Times

variable {times : Pagina → Nat} {reloj : Nat} (bound : ∀ w, times w ≤ reloj) {x y : Pagina}
include bound

theorem eq_of_update_eq (old : x ≠ v → y ≠ v → times x = times y → x = y)
    (equal : update times v (reloj + 1) x = update times v (reloj + 1) y) :
    x = y := by
  have boundX := bound x
  have boundY := bound y
  induction x using update_cases with
  | own =>
    by_cases isY : y = v
    · rw [isY]
    · rw [update_of_ne isY] at equal
      omega
  | others x isX =>
    by_cases isY : y = v
    · rw [isY, update_self] at equal
      omega
    · rw [update_of_ne isY] at equal
      exact old isX isY equal

theorem lt_of_update_lt (earlier : update times v (reloj + 1) x < update times v (reloj + 1) y) :
    x ≠ v ∧ (y ≠ v → times x < times y) := by
  have boundY := bound y
  simp only [update_apply] at earlier
  split at earlier
  · split at earlier <;> omega
  · rename_i isX
    refine ⟨isX, fun isY => ?_⟩
    rwa [if_neg isY] at earlier

end Times

theorem Ordenado.acierto (inv : Ordenado t) (hit : EsAcierto t.estado v t'.estado)
    (clock : t'.reloj = t.reloj + 1)
    (accessed : t'.ultimoAcceso = update t.ultimoAcceso v (t.reloj + 1))
    (loaded : t'.ultimaCarga = t.ultimaCarga) : Ordenado t' := by
  have counter := hit.contador_eq inv.coherente
  -- a page that was accessed now is later than its load
  have touched : ∀ x, t'.Intacta x → x ≠ v ∧ t.Intacta x := by
    intro x intact
    have bound := inv.carga x
    simp only [Traza.Intacta, accessed, loaded] at intact ⊢
    induction x using update_cases with
    | own => omega
    | others x isV => exact ⟨isV, intact⟩
  refine
    { coherente := inv.coherente.acierto hit
      acceso := ?_
      carga := ?_
      accesos := ?_
      cargas := ?_
      recientes := ?_
      intactas := ?_
      cargadas := ?_ }
  · intro x
    have bound := inv.acceso x
    rw [accessed, update_apply]
    split <;> omega
  · intro x
    have bound := inv.carga x
    rw [loaded]
    omega
  · intro x y residentX residentY
    rw [accessed]
    apply eq_of_update_eq inv.acceso
    intro _ _
    exact inv.accesos x y (hit.residente_iff.mp residentX) (hit.residente_iff.mp residentY)
  · intro x y residentX residentY
    rw [loaded]
    exact inv.cargas x y (hit.residente_iff.mp residentX) (hit.residente_iff.mp residentY)
  · intro x y residentX residentY samePid
    rw [hit.residente_iff] at residentX residentY
    have nonnegX := inv.coherente.contador x residentX
    have nonnegY := inv.coherente.contador y residentY
    rw [counter, counter, siguiente_nonneg nonnegX, siguiente_nonneg nonnegY, accessed]
    intro earlier
    obtain ⟨isX, earlier⟩ := lt_of_update_lt inv.acceso earlier
    rw [if_neg isX]
    by_cases isY : y = v
    · split <;> omega
    · have before := inv.recientes x y residentX residentY samePid (earlier isY)
      split <;> omega
  · intro x resident intact
    obtain ⟨notV, before⟩ := touched x intact
    have low := inv.intactas x (hit.residente_iff.mp resident) before
    rw [counter, if_neg notV, siguiente_nonneg (by omega)]
    split <;> omega
  · intro x y residentX residentY samePid intactX intactY earlier
    rw [hit.residente_iff] at residentX residentY
    obtain ⟨notX, beforeX⟩ := touched x intactX
    obtain ⟨notY, beforeY⟩ := touched y intactY
    rw [loaded] at earlier
    have before := inv.cargadas x y residentX residentY samePid beforeX beforeY earlier
    have nonnegX := inv.coherente.contador x residentX
    have nonnegY := inv.coherente.contador y residentY
    rw [counter, counter, siguiente_nonneg nonnegX,
      siguiente_nonneg nonnegY]
    split <;> omega

theorem Ordenado.fallo (inv : Ordenado t) (miss : EsFallo t.estado v i t'.estado)
    (clock : t'.reloj = t.reloj + 1)
    (accessed : t'.ultimoAcceso = update t.ultimoAcceso v (t.reloj + 1))
    (loaded : t'.ultimaCarga = update t.ultimaCarga v (t.reloj + 1)) : Ordenado t' := by
  have counter := miss.contador_eq
  -- every other page in memory was there before
  have older : ∀ x, t'.estado.Residente x → x ≠ v → t.estado.Residente x := by
    intro x resident notV
    have before := (miss.residente_iff inv.coherente).mp resident
    simp only [notV, false_or] at before
    exact before.1
  have untouched : ∀ x, x ≠ v → (t'.Intacta x ↔ t.Intacta x) := by
    intro x notV
    simp [Traza.Intacta, accessed, loaded, update_of_ne notV]
  refine
    { coherente := inv.coherente.fallo miss
      acceso := ?_
      carga := ?_
      accesos := ?_
      cargas := ?_
      recientes := ?_
      intactas := ?_
      cargadas := ?_ }
  · intro x
    have bound := inv.acceso x
    rw [accessed, update_apply]
    split <;> omega
  · intro x
    have bound := inv.carga x
    rw [loaded, update_apply]
    split <;> omega
  · intro x y residentX residentY
    rw [accessed]
    apply eq_of_update_eq inv.acceso
    intro notX notY
    exact inv.accesos x y (older x residentX notX) (older y residentY notY)
  · intro x y residentX residentY
    rw [loaded]
    apply eq_of_update_eq inv.carga
    intro notX notY
    exact inv.cargas x y (older x residentX notX) (older y residentY notY)
  · intro x y residentX residentY samePid
    rw [counter, counter, accessed, samePid]
    intro earlier
    obtain ⟨isX, earlier⟩ := lt_of_update_lt inv.acceso earlier
    have nonnegX := inv.coherente.contador x (older x residentX isX)
    rw [siguiente_nonneg nonnegX]
    by_cases isY : y = v
    · -- the older page has aged at least once
      rw [isY, if_pos rfl]
      omega
    · have nonnegY := inv.coherente.contador y (older y residentY isY)
      have before := inv.recientes x y (older x residentX isX) (older y residentY isY) samePid
        (earlier isY)
      rw [if_neg isY, siguiente_nonneg nonnegY]
      split <;> omega
  · intro x resident intact
    rw [counter]
    by_cases isX : x = v
    · rw [if_pos isX]
    · have low := inv.intactas x (older x resident isX) ((untouched x isX).mp intact)
      rw [siguiente_nonneg (by omega)]
      split <;> omega
  · intro x y residentX residentY samePid intactX intactY earlier
    rw [loaded] at earlier
    obtain ⟨isX, earlier⟩ := lt_of_update_lt inv.carga earlier
    have beforeX := (untouched x isX).mp intactX
    have low := inv.intactas x (older x residentX isX) beforeX
    have nonnegX := inv.coherente.contador x (older x residentX isX)
    rw [counter, counter, samePid, if_neg isX, siguiente_nonneg nonnegX]
    by_cases isY : y = v
    · rw [isY, if_pos rfl]
      omega
    · have before := inv.cargadas x y (older x residentX isX) (older y residentY isY) samePid
        beforeX ((untouched y isY).mp intactY) (earlier isY)
      have nonnegY := inv.coherente.contador y (older y residentY isY)
      rw [if_neg isY, siguiente_nonneg nonnegY]
      split <;> omega

theorem Ordenado.acceder (inv : Ordenado t) (ok : t.acceder algoritmo v = some t') :
    Ordenado t' := by
  obtain ⟨clock, accessed, hitOrMiss⟩ := acceder_cases inv.coherente ok
  cases hitOrMiss with
  | inl hit => exact inv.acierto hit.1 clock accessed hit.2.1
  | inr miss =>
    obtain ⟨i, miss, loaded, _⟩ := miss
    exact inv.fallo miss clock accessed loaded

theorem ordenado_of_reachable {allowed : Traza → Pagina → Prop}
    (reachable : (simulador algoritmo).ReachableWhen allowed t) : Ordenado t := by
  refine reachable.invariant ?_ ?_
  · intro _ start
    exact start ▸ ordenado_inicial
  · intro state label next _ inv _ taken
    exact inv.acceder taken

/-- A miss with every frame taken evicts one page, with a largest counter. -/
theorem Ordenado.victima (inv : Ordenado t) (absent : ¬ t.estado.Residente v)
    (full : t.estado.Lleno) (ok : t.acceder algoritmo v = some t') :
    ∃ victim, t.estado.Residente victim ∧ ¬ t'.estado.Residente victim ∧
      t'.desalojos = t.desalojos ++ [victim] ∧
      ∀ w, t.estado.Residente w → t.estado.contador w ≤ t.estado.contador victim := by
  obtain ⟨_, _, hitOrMiss⟩ := acceder_cases inv.coherente ok
  cases hitOrMiss with
  | inl hit => exact absurd hit.1.residente absent
  | inr miss =>
    obtain ⟨i, miss, _, _, evicted⟩ := miss
    obtain ⟨victim, found, largest⟩ := victima_of_lleno full miss.elegido
    refine ⟨victim, ⟨i, found⟩, ?_, ?_, largest⟩
    · rw [miss.residente_iff inv.coherente]
      have notNew : victim ≠ v := fun same => absent ⟨i, same ▸ found⟩
      simp [notNew, found]
    · rw [evicted, found]
      rfl

end Order

/-! ## Least recently used -/

/-- All pages in memory belong to one process. -/
def Estado.UnProceso (s : Estado) : Prop :=
  ∀ v w, s.Residente v → s.Residente w → v.1 = w.1

/-- No two pages in memory have the largest counter. -/
def Estado.MaximoUnico (s : Estado) : Prop :=
  ∀ v w, s.Residente v → s.Residente w →
    (∀ u, s.Residente u → s.contador u ≤ s.contador v) →
    (∀ u, s.Residente u → s.contador u ≤ s.contador w) → v = w

theorem lru_evicts_least_recent {t t' : Traza} {v : Pagina}
    (reachable : (simulador .lru).Reachable t) (absent : ¬ t.estado.Residente v)
    (full : t.estado.Lleno) (oneProcess : t.estado.UnProceso) (unique : t.estado.MaximoUnico)
    (ok : t.acceder .lru v = some t') :
    ∃ victim, t.estado.Residente victim ∧ ¬ t'.estado.Residente victim ∧
      t'.desalojos = t.desalojos ++ [victim] ∧
      ∀ w, t.estado.Residente w → w ≠ victim → t.ultimoAcceso victim < t.ultimoAcceso w := by
  have inv := ordenado_of_reachable reachable
  obtain ⟨victim, resident, gone, evicted, largest⟩ := inv.victima absent full ok
  refine ⟨victim, resident, gone, evicted, fun w residentW different => ?_⟩
  by_contra notEarlier
  have distinct : t.ultimoAcceso w ≠ t.ultimoAcceso victim := fun same =>
    different (inv.accesos w victim residentW resident same)
  -- a page used before the victim would have a counter at least as large
  have order := inv.recientes w victim residentW resident
    (oneProcess w victim residentW resident) (by omega)
  apply different
  apply unique w victim residentW resident _ largest
  intro u residentU
  exact le_trans (largest u residentU) order

def paginas (pid : Fin numProcesos) (numeros : List Nat) : List Pagina :=
  numeros.map fun numero => (pid, Fin.ofNat numPaginas numero)

instance (s : Estado) : Decidable s.UnProceso :=
  inferInstanceAs (Decidable (∀ v w, s.Residente v → s.Residente w → v.1 = w.1))

instance (s : Estado) : Decidable s.MaximoUnico :=
  inferInstanceAs (Decidable (∀ v w, s.Residente v → s.Residente w →
    (∀ u, s.Residente u → s.contador u ≤ s.contador v) →
    (∀ u, s.Residente u → s.contador u ≤ s.contador w) → v = w))

/-- Eight pages of one process, the first two of them used again: the third goes. -/
theorem third_page_is_least_recent :
    ∃ t t', (simulador .lru).Reachable t ∧ t.acceder .lru (0, 8) = some t' ∧
      t'.desalojos = [(0, 2)] ∧
      ∀ w, t.estado.Residente w → w ≠ (0, 2) → t.ultimoAcceso (0, 2) < t.ultimoAcceso w := by
  have ran : ∃ t ∈ (simulador .lru).runWhen (fun _ _ => True) inicial
      (paginas 0 [0, 1, 2, 3, 4, 5, 6, 7, 0, 1]), (¬ t.estado.Residente (0, 8) ∧ t.estado.Lleno ∧
        t.estado.UnProceso ∧ t.estado.MaximoUnico ∧ t.desalojos = []) ∧
        ∃ t' ∈ t.acceder .lru (0, 8), t'.desalojos = [(0, 2)] := by
    decide +kernel
  obtain ⟨t, reachable, ⟨absent, full, oneProcess, unique, before⟩, t', ok, after⟩ :=
    System.ReachableWhen.exists_of_runWhen (.init rfl) ran
  obtain ⟨victim, _, _, evicted, oldest⟩ :=
    lru_evicts_least_recent reachable absent full oneProcess unique ok
  rw [before, after] at evicted
  cases evicted
  exact ⟨t, t', reachable, ok, after, oldest⟩

/-- The access `v` evicts `victim`, although `other` was used before it. -/
def Equivocado (t : Traza) (v victim other : Pagina) : Prop :=
  (¬ t.estado.Residente v ∧ t.estado.Lleno ∧ t.estado.Residente other ∧
    t.ultimoAcceso other < t.ultimoAcceso victim) ∧
      ∃ t' ∈ t.acceder .lru v, t'.desalojos.getLast? = some victim ∧ ¬ t'.estado.Residente victim

/-- A page of the first process, then seven of the second: the eighth of the second evicts
its own first page.  With one process alone, a hit sets a counter to 0 and the load after it
starts at 1, when the other has aged to 1 as well; of the two the one in the lower frame goes. -/
theorem counters_mislead :
    (∃ t, (simulador .lru).Reachable t ∧ Equivocado t (1, 7) (1, 0) (0, 0)) ∧
      ∃ t, (simulador .lru).Reachable t ∧ t.estado.UnProceso ∧
        Equivocado t (0, 15) (0, 8) (0, 7) := by
  have two : ∃ t ∈ (simulador .lru).runWhen (fun _ _ => True) inicial
      ((0, 0) :: paginas 1 [0, 1, 2, 3, 4, 5, 6]), Equivocado t (1, 7) (1, 0) (0, 0) := by
    unfold Equivocado
    decide +kernel
  have tie : ∃ t ∈ (simulador .lru).runWhen (fun _ _ => True) inicial
      (paginas 0 [0, 1, 2, 3, 4, 5, 6, 7, 7, 8, 9, 10, 11, 12, 13, 14]),
        t.estado.UnProceso ∧ Equivocado t (0, 15) (0, 8) (0, 7) := by
    unfold Equivocado
    decide +kernel
  exact ⟨System.ReachableWhen.exists_of_runWhen (.init rfl) two,
    System.ReachableWhen.exists_of_runWhen (.init rfl) tie⟩

/-! ## First in, first out -/

/-- A miss with every frame taken finds pages of one process only, none of them accessed
again since it was loaded. -/
def SinReaccesos (t : Traza) (v : Pagina) : Prop :=
  ¬ t.estado.Residente v → t.estado.Lleno →
    t.estado.UnProceso ∧ ∀ w, t.estado.Residente w → t.Intacta w

section Fifo

variable {algoritmo : Algoritmo} {t t' : Traza} {v : Pagina}

/-- Such a miss evicts the page that was loaded first. -/
theorem Ordenado.primera (inv : Ordenado t) (permitted : SinReaccesos t v)
    (absent : ¬ t.estado.Residente v) (full : t.estado.Lleno)
    (ok : t.acceder algoritmo v = some t') :
    ∃ victim, t.estado.Residente victim ∧ ¬ t'.estado.Residente victim ∧
      t'.desalojos = t.desalojos ++ [victim] ∧
      ∀ w, t.estado.Residente w → w ≠ victim → t.ultimaCarga victim < t.ultimaCarga w := by
  obtain ⟨oneProcess, intact⟩ := permitted absent full
  obtain ⟨victim, resident, gone, evicted, largest⟩ := inv.victima absent full ok
  refine ⟨victim, resident, gone, evicted, fun w residentW different => ?_⟩
  by_contra notEarlier
  have distinct : t.ultimaCarga w ≠ t.ultimaCarga victim := fun same =>
    different (inv.cargas w victim residentW resident same)
  have order := inv.cargadas w victim residentW resident (oneProcess w victim residentW resident)
    (intact w residentW) (intact victim resident) (by omega)
  have := largest w residentW
  omega

/-- The loads so far are the evictions followed by the pages in memory, in the order of
their loads. -/
def EnCola (t : Traza) : Prop :=
  ∃ cola, t.cargas = t.desalojos ++ cola ∧ (∀ w, w ∈ cola ↔ t.estado.Residente w) ∧
    cola.Pairwise fun v w => t.ultimaCarga v < t.ultimaCarga w

theorem enCola_inicial : EnCola Traza.inicial := by
  refine ⟨[], rfl, fun w => ?_, .nil⟩
  constructor
  · nofun
  · nofun

theorem pairwise_carga {cola : List Pagina} (inv : Ordenado t) (fresh : v ∉ cola)
    (ordered : cola.Pairwise fun v w => t.ultimaCarga v < t.ultimaCarga w)
    (loaded : t'.ultimaCarga = update t.ultimaCarga v (t.reloj + 1)) :
    (cola ++ [v]).Pairwise fun v w => t'.ultimaCarga v < t'.ultimaCarga w := by
  have other : ∀ x ∈ cola, t'.ultimaCarga x = t.ultimaCarga x := by
    intro x member
    have different : x ≠ v := fun same => fresh (same ▸ member)
    rw [loaded, update_of_ne different]
  rw [pairwise_append]
  refine ⟨?_, pairwise_singleton _ _, ?_⟩
  · apply ordered.imp_of_mem
    intro x y memberX memberY earlier
    rw [other x memberX, other y memberY]
    exact earlier
  · intro x memberX y memberY
    rw [mem_singleton.mp memberY, other x memberX, loaded, update_self]
    have := inv.carga x
    omega

theorem EnCola.acceder (queue : EnCola t) (inv : Ordenado t) (permitted : SinReaccesos t v)
    (ok : t.acceder algoritmo v = some t') : EnCola t' := by
  obtain ⟨cola, loads, members, ordered⟩ := queue
  obtain ⟨_, _, hitOrMiss⟩ := acceder_cases inv.coherente ok
  cases hitOrMiss with
  | inl hit =>
    obtain ⟨hit, loaded, sameLoads, sameEvictions⟩ := hit
    refine ⟨cola, by rw [sameLoads, sameEvictions, loads], fun w => ?_, by rw [loaded]; exact ordered⟩
    rw [members, hit.residente_iff]
  | inr miss =>
    obtain ⟨i, miss, loaded, newLoads, evictions⟩ := miss
    have fresh : v ∉ cola := fun member => miss.ausente ((members v).mp member)
    by_cases full : t.estado.Lleno
    · -- the victim is the head of the queue
      obtain ⟨victim, resident, gone, evicted, first⟩ :=
        inv.primera permitted miss.ausente full ok
      have chosen : t.estado.memoriaFisica i = some victim := by
        by_contra other
        exact gone ((miss.residente_iff inv.coherente).mpr (.inr ⟨resident, other⟩))
      cases cola with
      | nil =>
        have := (members victim).mpr resident
        cases this
      | cons head rest =>
        obtain ⟨before, restOrdered⟩ := pairwise_cons.mp ordered
        have isHead : head = victim := by
          by_contra different
          have earlier := first head ((members head).mp mem_cons_self) different
          have later : victim ∈ rest :=
            (mem_cons.mp ((members victim).mpr resident)).resolve_left (Ne.symm different)
          have := before victim later
          omega
        subst isHead
        have once : head ∉ rest := fun member => absurd (before head member) (lt_irrefl _)
        refine ⟨rest ++ [v], ?_, fun w => ?_, ?_⟩
        · rw [newLoads, evicted, loads]
          simp
        · rw [miss.residente_iff inv.coherente, ← members, chosen, mem_append,
            mem_singleton, mem_cons, Ne, Option.some.injEq]
          constructor
          · intro member
            cases member with
            | inl member => exact .inr ⟨.inr member, fun same => once (same ▸ member)⟩
            | inr new => exact .inl new
          · intro member
            cases member with
            | inl new => exact .inr new
            | inr old => exact .inl (old.1.resolve_left (Ne.symm old.2))
        · apply pairwise_carga inv _ restOrdered loaded
          exact fun member => fresh (mem_cons_of_mem _ member)
    · -- a free frame: nothing is evicted
      have free := elegirMarco_libre full miss.elegido
      refine ⟨cola ++ [v], ?_, fun w => ?_, pairwise_carga inv fresh ordered loaded⟩
      · rw [newLoads, evictions, loads, free]
        simp
      · rw [miss.residente_iff inv.coherente, ← members, free]
        simp [or_comm]

end Fifo

/-- In runs whose misses find pages of one process that were not accessed again, every
eviction takes the page that was loaded first, and the evictions are the loads in order. -/
theorem fifo_evicts_first_loaded {t t' : Traza} {v : Pagina}
    (reachable : (simulador .fifo).ReachableWhen SinReaccesos t) (permitted : SinReaccesos t v)
    (ok : t.acceder .fifo v = some t') :
    t'.desalojos <+: t'.cargas ∧
      (¬ t.estado.Residente v → t.estado.Lleno →
        ∃ victim, t.estado.Residente victim ∧ ¬ t'.estado.Residente victim ∧
          t'.desalojos = t.desalojos ++ [victim] ∧
          ∀ w, t.estado.Residente w → w ≠ victim → t.ultimaCarga victim < t.ultimaCarga w) := by
  have inv := ordenado_of_reachable reachable
  have queue : EnCola t := by
    refine reachable.invariant ?_ ?_
    · intro _ start
      exact start ▸ enCola_inicial
    · intro state label next before queue allowed taken
      exact queue.acceder (ordenado_of_reachable before) allowed taken
  obtain ⟨cola, loads, _⟩ := queue.acceder inv permitted ok
  exact ⟨⟨cola, loads.symm⟩, fun absent full => inv.primera permitted absent full ok⟩

instance (t : Traza) (v : Pagina) : Decidable (SinReaccesos t v) :=
  inferInstanceAs (Decidable (¬ t.estado.Residente v → t.estado.Lleno →
    t.estado.UnProceso ∧ ∀ w, t.estado.Residente w → t.ultimoAcceso w = t.ultimaCarga w))

theorem first_page_evicted_first :
    ∃ t t', (simulador .fifo).ReachableWhen SinReaccesos t ∧ t.acceder .fifo (0, 8) = some t' ∧
      t'.desalojos = [(0, 0)] ∧ t'.desalojos <+: t'.cargas := by
  have ran : ∃ t ∈ (simulador .fifo).runWhen SinReaccesos inicial
      (paginas 0 [0, 1, 2, 3, 4, 5, 6, 7]), SinReaccesos t (0, 8) ∧
        ∃ t' ∈ t.acceder .fifo (0, 8), t'.desalojos = [(0, 0)] := by
    decide +kernel
  obtain ⟨t, reachable, permitted, t', ok, after⟩ :=
    System.ReachableWhen.exists_of_runWhen (.init rfl) ran
  exact ⟨t, t', reachable, ok, after, (fifo_evicts_first_loaded reachable permitted ok).1⟩

/-- The same with a hit on the first page before the ninth: the second page goes. -/
theorem hit_saves_first_page :
    ∃ t t', (simulador .fifo).Reachable t ∧ ¬ t.estado.Residente (0, 8) ∧ t.estado.Lleno ∧
      t.acceder .fifo (0, 8) = some t' ∧ t'.desalojos = [(0, 1)] ∧ ¬ t'.estado.Residente (0, 1) ∧
      t.estado.Residente (0, 0) ∧ t.ultimaCarga (0, 0) < t.ultimaCarga (0, 1) := by
  have ran : ∃ t ∈ (simulador .fifo).runWhen (fun _ _ => True) inicial
      (paginas 0 [0, 1, 2, 3, 4, 5, 6, 7, 0]), (¬ t.estado.Residente (0, 8) ∧ t.estado.Lleno ∧
        t.estado.Residente (0, 0) ∧ t.ultimaCarga (0, 0) < t.ultimaCarga (0, 1)) ∧
        ∃ t' ∈ t.acceder .fifo (0, 8), t'.desalojos = [(0, 1)] ∧ ¬ t'.estado.Residente (0, 1) := by
    decide +kernel
  obtain ⟨t, reachable, ⟨absent, full, resident, earlier⟩, t', ok, after⟩ :=
    System.ReachableWhen.exists_of_runWhen (.init rfl) ran
  exact ⟨t, t', reachable, absent, full, ok, after.1, after.2, resident, earlier⟩

end Laboratorio.Lab07
