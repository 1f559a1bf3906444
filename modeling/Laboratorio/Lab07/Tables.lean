import Laboratorio.Lab07.Model

/-! # The page tables agree with the frames

`asignarPagina_cases` says once what a call can do; everything about runs is derived from
it.  `Coherente` is the invariant of every run: the page tables describe the frames, no
page has two frames, and every page in memory has a counter that the search for a victim
can find.
-/

namespace Laboratorio.Lab07

open Laboratorio.Lib Function Option Tabla Estado List

/-! ## What a call does -/

section Calls

variable {s s' : Estado} {v w : Pagina} {i : Fin numMarcos} {algoritmo : Algoritmo}
  {nuevo : Fin numPaginas → Option Int}

/-- A counter one access later, when it does not pass the largest `int`. -/
def siguiente (contador : Int) : Int :=
  if contador = -1 then -1 else contador + 1

theorem envejecer_eq_some {contador nuevo : Int} (ok : envejecer contador = some nuevo) :
    nuevo = siguiente contador := by
  simp only [envejecer] at ok
  split at ok
  case isTrue unused =>
    rw [siguiente, if_pos unused]
    exact (some.inj ok).symm
  case isFalse used =>
    obtain ⟨-, ok⟩ := ite_none_right_eq_some.mp ok
    rw [siguiente, if_neg used]
    exact (some.inj ok).symm

theorem envejecer_isSome {contador : Int} (small : contador < intMax) :
    (envejecer contador).isSome = true := by
  simp only [envejecer]
  split <;> rfl

def contadorAcierto (s : Estado) (v w : Pagina) : Int :=
  if w.1 = v.1 then
    if (s.entrada w).pagina = some v.2 then 0 else siguiente (s.contador w)
  else s.contador w

def contadorFallo (s : Estado) (v w : Pagina) : Int :=
  if w.1 = v.1 then if w = v then 1 else siguiente (s.contador w) else s.contador w

structure EsAcierto (s : Estado) (v : Pagina) (s' : Estado) : Prop where
  residente : s.Residente v
  memoria : s'.memoriaFisica = s.memoriaFisica
  almacen : s'.almacenamientoSecundario = s.almacenamientoSecundario
  entradas : ∀ w, s'.entrada w = { s.entrada w with contadorLRU := contadorAcierto s v w }

structure EsFallo (s : Estado) (v : Pagina) (i : Fin numMarcos) (s' : Estado) : Prop where
  ausente : ¬ s.Residente v
  elegido : elegirMarco s = some i
  memoria : s'.memoriaFisica = update s.memoriaFisica i (some v)
  almacen : s'.almacenamientoSecundario =
    match s.memoriaFisica i with
    | none => s.almacenamientoSecundario
    | some victima => guardar s.almacenamientoSecundario victima
  cargada : s'.entrada v =
    { pid := some v.1, pagina := some v.2, presente := true, contadorLRU := 1,
      indiceMarco := some i }
  entradas : ∀ w, w ≠ v → s'.entrada w =
    { s.entrada w with
      presente := (s.entrada w).presente && decide (s.memoriaFisica i ≠ some w)
      contadorLRU := contadorFallo s v w }

theorem conContadores_eq_some {tabla tabla' : Tabla} {pid : Fin numProcesos}
    (ok : conContadores tabla pid nuevo = some tabla') (w : Pagina) :
    (w.1 = pid → ∃ contador, nuevo w.2 = some contador ∧
      tabla' w.1 w.2 = { tabla w.1 w.2 with contadorLRU := contador }) ∧
    (w.1 ≠ pid → tabla' w.1 w.2 = tabla w.1 w.2) := by
  obtain ⟨all, rfl⟩ := of_guard ok
  constructor
  · intro same
    obtain ⟨contador, found⟩ := isSome_iff_exists.mp (all w.2)
    refine ⟨contador, found, ?_⟩
    rw [same, update_self, found]
    rfl
  · intro different
    rw [update_of_ne different]

theorem conContadores_isSome (tabla : Tabla) (pid : Fin numProcesos)
    (all : ∀ j, (nuevo j).isSome = true) : ∃ tabla', conContadores tabla pid nuevo = some tabla' :=
  ⟨_, if_pos all⟩

theorem Tabla.cambiar_self (tabla : Tabla) (v : Pagina)
    (cambio : EntradaTablaPaginas → EntradaTablaPaginas) :
    tabla.cambiar v cambio v.1 v.2 = cambio (tabla v.1 v.2) := by
  simp [cambiar]

theorem Tabla.cambiar_of_ne (tabla : Tabla) {v w : Pagina} (different : w ≠ v)
    (cambio : EntradaTablaPaginas → EntradaTablaPaginas) :
    tabla.cambiar v cambio w.1 w.2 = tabla w.1 w.2 := by
  simp only [cambiar]
  by_cases samePid : w.1 = v.1
  · have otherPage : w.2 ≠ v.2 := fun same => different (Prod.ext samePid same)
    rw [samePid, update_self, update_of_ne otherPage]
  · rw [update_of_ne samePid]

theorem acierto_eq_some (residente : s.Residente v) (ok : acierto s v = some s') :
    EsAcierto s v s' := by
  simp only [acierto, bind_eq_bind, bind_eq_some_iff] at ok
  obtain ⟨tabla, counted, equal⟩ := ok
  cases equal
  refine ⟨residente, rfl, rfl, fun w => ?_⟩
  obtain ⟨own, others⟩ := conContadores_eq_some counted w
  by_cases samePid : w.1 = v.1
  · obtain ⟨contador, touched, equal⟩ := own samePid
    have value : contador = contadorAcierto s v w := by
      simp only [contadorAcierto, if_pos samePid]
      rw [← samePid] at touched
      simp only [tocar] at touched
      split at touched
      case isTrue same =>
        rw [if_pos (by exact same)]
        exact (some.inj touched).symm
      case isFalse other =>
        rw [if_neg (by exact other)]
        exact envejecer_eq_some touched
    rw [← value]
    exact equal
  · rw [contadorAcierto, if_neg samePid]
    exact others samePid

theorem desalojar_entrada (s : Estado) (i : Fin numMarcos) (w : Pagina) :
    (desalojar s i).entrada w =
      { s.entrada w with
        presente := (s.entrada w).presente && decide (s.memoriaFisica i ≠ some w) } := by
  simp only [desalojar, entrada]
  cases found : s.memoriaFisica i with
  | none => simp
  | some victima =>
    by_cases same : w = victima
    · subst same
      simp [cambiar_self]
    · have different : victima ≠ w := fun equal => same equal.symm
      simp [cambiar_of_ne _ same, different]

theorem desalojar_memoria (s : Estado) (i : Fin numMarcos) :
    (desalojar s i).memoriaFisica = s.memoriaFisica := by
  simp only [desalojar]
  cases s.memoriaFisica i <;> rfl

theorem ocupar_entrada_self (s : Estado) (v : Pagina) (i : Fin numMarcos) :
    (ocupar s v i).entrada v =
      { pid := some v.1, pagina := some v.2, presente := true, contadorLRU := 0,
        indiceMarco := some i } := by
  simp [entrada, ocupar, cambiar_self]

theorem ocupar_entrada_of_ne (s : Estado) (i : Fin numMarcos) (different : w ≠ v) :
    (ocupar s v i).entrada w = s.entrada w := by
  simp [entrada, ocupar, cambiar_of_ne _ different]

theorem cargar_eq_some (ausente : ¬ s.Residente v) (elegido : elegirMarco s = some i)
    (ok : cargar s v i = some s') : EsFallo s v i s' := by
  simp only [cargar, bind_eq_bind, bind_eq_some_iff] at ok
  obtain ⟨tabla, counted, equal⟩ := ok
  cases equal
  refine ⟨ausente, elegido, ?_, ?_, ?_, fun w different => ?_⟩
  · rw [← desalojar_memoria s i]
    rfl
  · simp only [desalojar]
    cases s.memoriaFisica i <;> rfl
  · -- the new page starts at 0 and ages at once
    obtain ⟨contador, aged, equal⟩ := (conContadores_eq_some counted v).1 rfl
    have placed := ocupar_entrada_self (desalojar s i) v i
    simp only [entrada] at placed
    rw [placed] at aged equal
    rw [envejecer_eq_some aged] at equal
    exact equal
  · obtain ⟨own, others⟩ := conContadores_eq_some counted w
    have placed := ocupar_entrada_of_ne (desalojar s i) i different
    rw [desalojar_entrada] at placed
    simp only [entrada] at placed
    by_cases samePid : w.1 = v.1
    · obtain ⟨contador, aged, equal⟩ := own samePid
      rw [contadorFallo, if_pos samePid, if_neg different]
      rw [← samePid, placed] at aged
      rw [placed, envejecer_eq_some aged] at equal
      exact equal
    · rw [contadorFallo, if_neg samePid]
      exact (others samePid).trans placed

/-- A call either hits, or takes a frame for the page. -/
theorem asignarPagina_cases (ok : asignarPagina s v algoritmo = some s') :
    EsAcierto s v s' ∨ ∃ i, EsFallo s v i s' := by
  simp only [asignarPagina] at ok
  split at ok
  case isTrue residente => exact .inl (acierto_eq_some residente ok)
  case isFalse ausente =>
    cases elegido : elegirMarco s with
    | none =>
      rw [elegido] at ok
      cases ok
    | some i =>
      rw [elegido] at ok
      exact .inr ⟨i, cargar_eq_some ausente elegido ok⟩

end Calls

/-! ## The search for a frame -/

section Search

variable {s : Estado} {marcos : List (Fin numMarcos)} (indice : Option (Fin numMarcos))
  (maximo : Int)

theorem elegirDesde_libre (libre : ∃ i ∈ marcos, s.memoriaFisica i = none) :
    ∃ i, elegirDesde s marcos indice maximo = some i ∧ s.memoriaFisica i = none := by
  induction marcos generalizing indice maximo with
  | nil =>
    obtain ⟨i, member, _⟩ := libre
    cases member
  | cons first rest ih =>
    simp only [elegirDesde]
    cases found : s.memoriaFisica first with
    | none => exact ⟨first, rfl, found⟩
    | some v =>
      obtain ⟨i, member, free⟩ := libre
      have later : ∃ i ∈ rest, s.memoriaFisica i = none := by
        cases member with
        | head =>
          rw [found] at free
          cases free
        | tail _ member => exact ⟨i, member, free⟩
      simp only
      split
      · exact ih _ _ later
      · exact ih _ _ later

/-- Without a free frame the search keeps its start or ends at a largest counter. -/
theorem elegirDesde_ocupados (ocupados : ∀ i ∈ marcos, (s.memoriaFisica i).isSome = true) :
    (elegirDesde s marcos indice maximo = indice ∧
        ∀ j ∈ marcos, ∀ w, s.memoriaFisica j = some w → s.contador w ≤ maximo) ∨
      ∃ i v, elegirDesde s marcos indice maximo = some i ∧ s.memoriaFisica i = some v ∧
        maximo < s.contador v ∧
        ∀ j ∈ marcos, ∀ w, s.memoriaFisica j = some w → s.contador w ≤ s.contador v := by
  induction marcos generalizing indice maximo with
  | nil => exact .inl ⟨rfl, nofun⟩
  | cons first rest ih =>
    have restFull : ∀ i ∈ rest, (s.memoriaFisica i).isSome = true := fun i member =>
      ocupados i (mem_cons_of_mem _ member)
    obtain ⟨v, found⟩ := isSome_iff_exists.mp (ocupados first mem_cons_self)
    simp only [elegirDesde, found, forall_mem_cons]
    -- what is known of the first frame, in either branch
    have ofFirst : ∀ bound, s.contador v ≤ bound →
        ∀ w, some v = some w → s.contador w ≤ bound := by
      intro bound below w same
      exact some.inj same ▸ below
    split
    case isTrue larger =>
      cases ih (some first) (s.contador v) restFull with
      | inl kept =>
        exact .inr ⟨first, v, kept.1, found, larger, ofFirst _ (le_refl _), kept.2⟩
      | inr chosen =>
        obtain ⟨i, w, equal, foundW, above, others⟩ := chosen
        exact .inr ⟨i, w, equal, foundW, by omega, ofFirst _ (by omega), others⟩
    case isFalse smaller =>
      cases ih indice maximo restFull with
      | inl kept => exact .inl ⟨kept.1, ofFirst _ (by omega), kept.2⟩
      | inr chosen =>
        obtain ⟨i, w, equal, foundW, above, others⟩ := chosen
        exact .inr ⟨i, w, equal, foundW, above, ofFirst _ (by omega), others⟩

end Search

/-! ## The invariant -/

structure Coherente (s : Estado) : Prop where
  unico : ∀ i j v, s.memoriaFisica i = some v → s.memoriaFisica j = some v → i = j
  presente : ∀ v, (s.entrada v).presente = true ↔ s.Residente v
  indice : ∀ i v, s.memoriaFisica i = some v → (s.entrada v).indiceMarco = some i
  pagina : ∀ v, (s.entrada v).pagina = none ∨ (s.entrada v).pagina = some v.2
  cargada : ∀ v, s.Residente v → (s.entrada v).pagina = some v.2
  contador : ∀ v, s.Residente v → 0 ≤ s.contador v
  minimo : ∀ v, -1 ≤ s.contador v

theorem coherente_inicializar : Coherente inicializar where
  unico := nofun
  presente v := by
    constructor
    · nofun
    · nofun
  indice := nofun
  pagina v := .inl rfl
  cargada v := nofun
  contador v := nofun
  minimo v := le_refl _

theorem siguiente_nonneg {contador : Int} (nonneg : 0 ≤ contador) :
    siguiente contador = contador + 1 := by
  rw [siguiente, if_neg (by omega)]

theorem siguiente_minimo {contador : Int} (minimo : -1 ≤ contador) :
    -1 ≤ siguiente contador ∧ siguiente contador ≤ contador + 1 := by
  simp only [siguiente]
  split <;> omega

section Invariant

variable {s s' : Estado} {v w : Pagina} {i : Fin numMarcos} {algoritmo : Algoritmo}

/-- In a coherent state the loop of a hit resets one counter only. -/
theorem Coherente.contadorAcierto_eq (inv : Coherente s) (residente : s.Residente v) :
    contadorAcierto s v w =
      if w = v then 0 else if w.1 = v.1 then siguiente (s.contador w) else s.contador w := by
  simp only [contadorAcierto]
  by_cases same : w = v
  · subst same
    rw [if_pos rfl, if_pos (inv.cargada w residente), if_pos rfl]
  · rw [if_neg same]
    split
    case isTrue samePid =>
      have otherPage : (s.entrada w).pagina ≠ some v.2 := by
        intro equal
        cases inv.pagina w with
        | inl unused =>
          rw [unused] at equal
          cases equal
        | inr own =>
          rw [own, some.injEq] at equal
          exact same (Prod.ext samePid equal)
      rw [if_neg otherPage]
    case isFalse => rfl

theorem EsAcierto.residente_iff (hit : EsAcierto s v s') : s'.Residente w ↔ s.Residente w := by
  simp [Estado.Residente, hit.memoria]

theorem EsAcierto.contador_eq (hit : EsAcierto s v s') (inv : Coherente s) (w : Pagina) :
    s'.contador w =
      if w = v then 0 else if w.1 = v.1 then siguiente (s.contador w) else s.contador w := by
  rw [← inv.contadorAcierto_eq hit.residente]
  simp [contador, hit.entradas]

theorem EsFallo.contador_eq (miss : EsFallo s v i s') (w : Pagina) :
    s'.contador w =
      if w = v then 1 else if w.1 = v.1 then siguiente (s.contador w) else s.contador w := by
  by_cases same : w = v
  · subst same
    rw [if_pos rfl]
    simp [contador, miss.cargada]
  · rw [if_neg same]
    simp [contador, miss.entradas w same, contadorFallo, if_neg same]

theorem EsFallo.residente_iff (miss : EsFallo s v i s') (inv : Coherente s) :
    s'.Residente w ↔ w = v ∨ (s.Residente w ∧ s.memoriaFisica i ≠ some w) := by
  simp only [Estado.Residente, miss.memoria]
  constructor
  · intro ⟨j, found⟩
    induction j using update_cases with
    | own =>
      rw [some.injEq] at found
      exact .inl found.symm
    | others j same => exact .inr ⟨⟨j, found⟩, fun chosen => same (inv.unico j i w found chosen)⟩
  · intro cases
    cases cases with
    | inl same => exact ⟨i, by rw [same, update_self]⟩
    | inr kept =>
      obtain ⟨⟨j, found⟩, notChosen⟩ := kept
      have different : j ≠ i := fun same => notChosen (same ▸ found)
      exact ⟨j, by rw [update_of_ne different, found]⟩

theorem Coherente.acierto (inv : Coherente s) (hit : EsAcierto s v s') : Coherente s' where
  unico i j w := by
    rw [hit.memoria]
    exact inv.unico i j w
  presente w := by
    rw [hit.residente_iff, hit.entradas]
    exact inv.presente w
  indice j w found := by
    rw [hit.memoria] at found
    rw [hit.entradas]
    exact inv.indice j w found
  pagina w := by
    rw [hit.entradas]
    exact inv.pagina w
  cargada w residente := by
    rw [hit.entradas]
    exact inv.cargada w (hit.residente_iff.mp residente)
  contador w residente := by
    have before := inv.contador w (hit.residente_iff.mp residente)
    rw [hit.contador_eq inv, siguiente_nonneg before]
    split
    · omega
    · split <;> omega
  minimo w := by
    have before := inv.minimo w
    have after := siguiente_minimo before
    rw [hit.contador_eq inv]
    split
    · omega
    · split <;> omega

theorem Coherente.fallo (inv : Coherente s) (miss : EsFallo s v i s') : Coherente s' where
  unico j k w foundJ foundK := by
    rw [miss.memoria] at foundJ foundK
    -- an old frame cannot hold the new page
    have notNew : ∀ l, s.memoriaFisica l ≠ some v := fun l found => miss.ausente ⟨l, found⟩
    by_cases sameJ : j = i
    · by_cases sameK : k = i
      · rw [sameJ, sameK]
      · rw [sameJ, update_self] at foundJ
        rw [update_of_ne sameK, ← foundJ] at foundK
        exact absurd foundK (notNew k)
    · rw [update_of_ne sameJ] at foundJ
      induction k using update_cases with
      | own =>
        rw [← foundK] at foundJ
        exact absurd foundJ (notNew j)
      | others k _ => exact inv.unico j k w foundJ foundK
  presente w := by
    rw [miss.residente_iff inv]
    by_cases same : w = v
    · subst same
      rw [miss.cargada]
      exact ⟨fun _ => .inl rfl, fun _ => rfl⟩
    · rw [miss.entradas w same]
      simp [inv.presente w, same]
  indice j w found := by
    rw [miss.memoria] at found
    induction j using update_cases with
    | own =>
      cases found
      rw [miss.cargada]
    | others j _ =>
      have different : w ≠ v := fun equal => miss.ausente ⟨j, equal ▸ found⟩
      rw [miss.entradas w different]
      exact inv.indice j w found
  pagina w := by
    by_cases same : w = v
    · subst same
      rw [miss.cargada]
      exact .inr rfl
    · rw [miss.entradas w same]
      exact inv.pagina w
  cargada w residente := by
    by_cases same : w = v
    · subst same
      rw [miss.cargada]
    · rw [miss.entradas w same]
      have before := (miss.residente_iff inv).mp residente
      simp only [same, false_or] at before
      exact inv.cargada w before.1
  contador w residente := by
    rw [miss.contador_eq]
    by_cases same : w = v
    · rw [if_pos same]
      omega
    · have before := (miss.residente_iff inv).mp residente
      simp only [same, false_or] at before
      have nonneg := inv.contador w before.1
      rw [siguiente_nonneg nonneg]
      split <;> omega
  minimo w := by
    have before := inv.minimo w
    have after := siguiente_minimo before
    rw [miss.contador_eq]
    split
    · omega
    · split <;> omega

theorem Coherente.paso (inv : Coherente s) (ok : asignarPagina s v algoritmo = some s') :
    Coherente s' := by
  cases asignarPagina_cases ok with
  | inl hit => exact inv.acierto hit
  | inr miss =>
    obtain ⟨i, miss⟩ := miss
    exact inv.fallo miss

/-- The search always finds a frame. -/
theorem Coherente.elegirMarco_isSome (inv : Coherente s) : ∃ i, elegirMarco s = some i := by
  by_cases libre : ∃ i ∈ finRange numMarcos, s.memoriaFisica i = none
  · obtain ⟨i, chosen, _⟩ := elegirDesde_libre none (-1) libre
    exact ⟨i, chosen⟩
  · have ocupados : ∀ i ∈ finRange numMarcos, (s.memoriaFisica i).isSome = true := by
      intro i member
      by_contra empty
      rw [Bool.not_eq_true, isSome_eq_false_iff, isNone_iff_eq_none] at empty
      exact libre ⟨i, member, empty⟩
    cases elegirDesde_ocupados none (-1) ocupados with
    | inl none =>
      -- the page in the first frame has a counter above -1
      obtain ⟨w, found⟩ := isSome_iff_exists.mp (ocupados 0 (mem_finRange _))
      have low := none.2 0 (mem_finRange _) w found
      have high := inv.contador w ⟨0, found⟩
      omega
    | inr chosen =>
      obtain ⟨i, _, chosen, _⟩ := chosen
      exact ⟨i, chosen⟩

/-- With every frame taken, the victim has a largest counter. -/
theorem victima_of_lleno (lleno : s.Lleno) (elegido : elegirMarco s = some i) :
    ∃ victima, s.memoriaFisica i = some victima ∧
      ∀ w, s.Residente w → s.contador w ≤ s.contador victima := by
  have ocupados : ∀ i ∈ finRange numMarcos, (s.memoriaFisica i).isSome = true :=
    fun i _ => lleno i
  cases elegirDesde_ocupados none (-1) ocupados with
  | inl none =>
    rw [elegirMarco, none.1] at elegido
    cases elegido
  | inr chosen =>
    obtain ⟨j, victima, equal, found, _, largest⟩ := chosen
    rw [elegirMarco, equal] at elegido
    cases elegido
    exact ⟨victima, found, fun w ⟨k, foundW⟩ => largest k (mem_finRange _) w foundW⟩

theorem elegirMarco_libre (libre : ¬ s.Lleno) (elegido : elegirMarco s = some i) :
    s.memoriaFisica i = none := by
  have free : ∃ i ∈ finRange numMarcos, s.memoriaFisica i = none := by
    by_contra none
    apply libre
    intro i
    by_contra empty
    rw [Bool.not_eq_true, isSome_eq_false_iff, isNone_iff_eq_none] at empty
    exact none ⟨i, mem_finRange _, empty⟩
  obtain ⟨j, chosen, free⟩ := elegirDesde_libre none (-1) free
  rw [elegirMarco, chosen, some.injEq] at elegido
  exact elegido ▸ free

/-- A call returns as long as no counter is at the largest `int`. -/
theorem Coherente.asignarPagina_isSome (inv : Coherente s)
    (small : ∀ w, s.contador w < intMax) (v : Pagina) (algoritmo : Algoritmo) :
    ∃ s', asignarPagina s v algoritmo = some s' := by
  simp only [asignarPagina]
  split
  case isTrue residente =>
    have touched : ∀ j, (tocar v.2 (s.tablaPaginasProceso v.1 j)).isSome = true := by
      intro j
      simp only [tocar]
      split
      · rfl
      · exact envejecer_isSome (small (v.1, j))
    obtain ⟨tabla, counted⟩ := conContadores_isSome s.tablaPaginasProceso v.1 touched
    exact ⟨{ s with tablaPaginasProceso := tabla }, by rw [Lab07.acierto, counted]; rfl⟩
  case isFalse ausente =>
    obtain ⟨i, chosen⟩ := inv.elegirMarco_isSome
    rw [chosen]
    have aged : ∀ j, (envejecer
        ((ocupar (desalojar s i) v i).tablaPaginasProceso v.1 j).contadorLRU).isSome = true := by
      intro j
      apply envejecer_isSome
      by_cases same : (v.1, j) = v
      · -- the new page starts at 0
        have placed := ocupar_entrada_self (desalojar s i) v i
        rw [← same] at placed ⊢
        simp only [entrada] at placed
        rw [placed]
        simp [intMax]
      · have placed := ocupar_entrada_of_ne (desalojar s i) i same
        rw [desalojar_entrada] at placed
        simp only [entrada] at placed
        rw [placed]
        exact small (v.1, j)
    obtain ⟨tabla, counted⟩ :=
      conContadores_isSome (ocupar (desalojar s i) v i).tablaPaginasProceso v.1 aged
    exact ⟨{ ocupar (desalojar s i) v i with tablaPaginasProceso := tabla },
      by simp only [cargar, counted]; rfl⟩

end Invariant

/-! ## Runs -/

section Runs

variable {algoritmo : Algoritmo} {t t' : Traza} {v : Pagina}

theorem acceder_estado (ok : t.acceder algoritmo v = some t') :
    asignarPagina t.estado v algoritmo = some t'.estado ∧ t'.reloj = t.reloj + 1 := by
  simp only [Traza.acceder, bind_eq_bind, bind_eq_some_iff] at ok
  obtain ⟨estado, assigned, equal⟩ := ok
  cases equal
  exact ⟨assigned, rfl⟩

theorem acceder_of_asignarPagina {s' : Estado} (ok : asignarPagina t.estado v algoritmo = some s') :
    ∃ t', t.acceder algoritmo v = some t' ∧ t'.estado = s' :=
  ⟨_, by simp only [Traza.acceder, ok]; rfl, rfl⟩

/-- The counters count accesses of the page's process, so there are never more. -/
structure Contado (t : Traza) : Prop where
  coherente : Coherente t.estado
  contador : ∀ w, t.estado.contador w ≤ t.reloj

theorem contado_inicial : Contado Traza.inicial where
  coherente := coherente_inicializar
  contador w := by
    show (-1 : Int) ≤ 0
    omega

theorem Contado.acceder (inv : Contado t) (ok : t.acceder algoritmo v = some t') : Contado t' := by
  obtain ⟨assigned, clock⟩ := acceder_estado ok
  refine ⟨inv.coherente.paso assigned, fun w => ?_⟩
  have before := inv.contador w
  have after := siguiente_minimo (inv.coherente.minimo w)
  cases asignarPagina_cases assigned with
  | inl hit =>
    rw [hit.contador_eq inv.coherente]
    split
    · omega
    · split <;> omega
  | inr miss =>
    obtain ⟨i, miss⟩ := miss
    rw [miss.contador_eq]
    split
    · omega
    · split <;> omega

/-- A run of fewer than 2^31 accesses never stops. -/
theorem runWhen_isSome (inv : Contado t) (accesos : List Pagina)
    (short : t.reloj + accesos.length < 2 ^ 31) :
    ∃ t', (simulador algoritmo).runWhen (fun _ _ => True) t accesos = some t' ∧ Contado t' ∧
      t'.reloj = t.reloj + accesos.length := by
  induction accesos generalizing t with
  | nil => exact ⟨t, rfl, inv, rfl⟩
  | cons first rest ih =>
    simp only [length_cons] at short
    have small : ∀ w, t.estado.contador w < intMax := by
      intro w
      have := inv.contador w
      simp only [intMax]
      omega
    obtain ⟨s', assigned⟩ := inv.coherente.asignarPagina_isSome small first algoritmo
    obtain ⟨t', accessed, _⟩ := acceder_of_asignarPagina assigned
    obtain ⟨_, clock⟩ := acceder_estado accessed
    obtain ⟨final, ran, finalInv, finalClock⟩ :=
      ih (inv.acceder accessed) (by omega)
    refine ⟨final, ?_, finalInv, ?_⟩
    · simp only [System.runWhen, simulador, accessed]
      exact ran
    · rw [length_cons]
      omega

end Runs

/-- After every call of a run of fewer than 2^31 accesses the page tables describe the
frames, no page has two frames, the accessed page has one, no frame was given up, and the
frame that a miss takes is a frame. -/
theorem tables_agree (algoritmo : Algoritmo) (accesos : List Pagina) (v : Pagina)
    (short : (accesos ++ [v]).length < 2 ^ 31) :
    ∃ t s', (simulador algoritmo).runWhen (fun _ _ => True) Traza.inicial accesos = some t ∧
      asignarPagina t.estado v algoritmo = some s' ∧
      (∀ w, (s'.entrada w).presente = true ↔ ∃! i, s'.memoriaFisica i = some w) ∧
      (∀ w i, s'.memoriaFisica i = some w → (s'.entrada w).indiceMarco = some i) ∧
      (∀ i j w, s'.memoriaFisica i = some w → s'.memoriaFisica j = some w → i = j) ∧
      s'.Residente v ∧
      (∀ i, (t.estado.memoriaFisica i).isSome = true → (s'.memoriaFisica i).isSome = true) ∧
      (¬ t.estado.Residente v → ∃ i : Fin numMarcos, elegirMarco t.estado = some i ∧
        s'.memoriaFisica i = some v) := by
  rw [length_append, length_singleton] at short
  obtain ⟨t, ran, inv, clock⟩ :=
    runWhen_isSome contado_inicial accesos (by simp only [Traza.inicial]; omega)
  have small : ∀ w, t.estado.contador w < intMax := by
    intro w
    have := inv.contador w
    simp only [Traza.inicial] at clock
    simp only [intMax]
    omega
  obtain ⟨s', assigned⟩ := inv.coherente.asignarPagina_isSome small v algoritmo
  have after := inv.coherente.paso assigned
  refine ⟨t, s', ran, assigned, ?_, fun w i => after.indice i w, after.unico, ?_⟩
  · intro w
    rw [after.presente]
    exact ⟨fun ⟨i, found⟩ => ⟨i, found, fun j foundJ => after.unico j i w foundJ found⟩,
      fun ⟨i, found, _⟩ => ⟨i, found⟩⟩
  · cases asignarPagina_cases assigned with
    | inl hit =>
      refine ⟨hit.residente_iff.mpr hit.residente, fun i occupied => ?_, fun absent => ?_⟩
      · rw [hit.memoria]
        exact occupied
      · exact absurd hit.residente absent
    | inr miss =>
      obtain ⟨i, miss⟩ := miss
      have placed : s'.memoriaFisica i = some v := by rw [miss.memoria, update_self]
      refine ⟨⟨i, placed⟩, fun j occupied => ?_, fun _ => ⟨i, miss.elegido, placed⟩⟩
      rw [miss.memoria]
      induction j using update_cases with
      | own => rfl
      | others j _ => exact occupied

theorem ninth_page_resident :
    ∃ t s', (simulador .lru).runWhen (fun _ _ => True) Traza.inicial
        ((List.range 8).map fun j => (0, Fin.ofNat _ j)) = some t ∧
      asignarPagina t.estado (0, 8) .lru = some s' ∧ s'.Residente (0, 8) ∧
      ∀ i, (t.estado.memoriaFisica i).isSome = true → (s'.memoriaFisica i).isSome = true := by
  obtain ⟨t, s', ran, assigned, _, _, _, resident, kept, _⟩ :=
    tables_agree .lru ((range 8).map fun j => (0, Fin.ofNat _ j)) (0, 8) (by decide)
  exact ⟨t, s', ran, assigned, resident, kept⟩

end Laboratorio.Lab07
