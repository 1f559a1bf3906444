import Laboratorio.Lib.System
import Mathlib.Data.Fintype.Prod
import Mathlib.Data.List.FinRange

/-! # The paging simulator (`lab-07/sim.c`)

`asignarPagina` and the three tables it works on.  Pages and processes are counted from
0 here: the pair `(pid, pagina)` stands for `pid + 1` and `pagina + 1` on the input.  The
value -1 of a `pid`, a `pagina` or an `indiceMarco` is `none`.

The source has undefined behaviour in two places, and the model has no next state there:
a victim index of -1, and a counter that passes the largest `int`.

The second half adds the history of a run: when a page was last accessed and last
loaded, and the loads and evictions in order.
-/

namespace Laboratorio.Lab07

open Laboratorio.Lib Function

/-! ## The tables -/

abbrev numPaginas : Nat := 16

abbrev numProcesos : Nat := 2

abbrev numMarcos : Nat := 8

def intMax : Int := 2 ^ 31 - 1

abbrev Pagina := Fin numProcesos × Fin numPaginas

/-- `Marco`; `none` is a free frame. -/
abbrev Marco := Option Pagina

structure EntradaTablaPaginas where
  pid : Option (Fin numProcesos)
  pagina : Option (Fin numPaginas)
  presente : Bool
  contadorLRU : Int
  indiceMarco : Option (Fin numMarcos)

abbrev Tabla := Fin numProcesos → Fin numPaginas → EntradaTablaPaginas

structure Estado where
  memoriaFisica : Fin numMarcos → Marco
  tablaPaginasProceso : Tabla
  almacenamientoSecundario : Fin (numPaginas * numProcesos) → Marco

/-- The tables after the three functions `inicializar…`. -/
def inicializar : Estado where
  memoriaFisica _ := none
  tablaPaginasProceso _ _ :=
    { pid := none, pagina := none, presente := false, contadorLRU := -1, indiceMarco := none }
  almacenamientoSecundario _ := none

/-- The options `-f` and `-l`. -/
inductive Algoritmo
  | fifo
  | lru

def Estado.entrada (s : Estado) (v : Pagina) : EntradaTablaPaginas :=
  s.tablaPaginasProceso v.1 v.2

def Estado.contador (s : Estado) (v : Pagina) : Int :=
  (s.entrada v).contadorLRU

def Estado.Residente (s : Estado) (v : Pagina) : Prop :=
  ∃ i, s.memoriaFisica i = some v

instance (s : Estado) (v : Pagina) : Decidable (s.Residente v) :=
  inferInstanceAs (Decidable (∃ i, s.memoriaFisica i = some v))

def Estado.Lleno (s : Estado) : Prop :=
  ∀ i, (s.memoriaFisica i).isSome = true

instance (s : Estado) : Decidable s.Lleno :=
  inferInstanceAs (Decidable (∀ i, (s.memoriaFisica i).isSome = true))

/-! ## Counters -/

/-- `if (contadorLRU != -1) contadorLRU++;` -/
def envejecer (contador : Int) : Option Int :=
  if contador = -1 then some (-1)
  else if contador < intMax then some (contador + 1)
  else none

/-- One round of the loop of a hit. -/
def tocar (pagina : Fin numPaginas) (entrada : EntradaTablaPaginas) : Option Int :=
  if entrada.pagina = some pagina then some 0 else envejecer entrada.contadorLRU

/-- The counters of a process change one after the other; one that passes the largest
`int` stops the run. -/
def conContadores (tabla : Tabla) (pid : Fin numProcesos)
    (nuevo : Fin numPaginas → Option Int) : Option Tabla :=
  if ∀ j, (nuevo j).isSome = true then
    some (update tabla pid fun j =>
      { tabla pid j with contadorLRU := (nuevo j).getD (tabla pid j).contadorLRU })
  else none

/-! ## `asignarPagina` -/

def acierto (s : Estado) (v : Pagina) : Option Estado := do
  let tabla ← conContadores s.tablaPaginasProceso v.1 fun j =>
    tocar v.2 (s.tablaPaginasProceso v.1 j)
  pure { s with tablaPaginasProceso := tabla }

/-- The search for a frame: the first free one, or the first with the largest counter. -/
def elegirDesde (s : Estado) :
    List (Fin numMarcos) → Option (Fin numMarcos) → Int → Option (Fin numMarcos)
  | [], indiceLru, _ => indiceLru
  | i :: resto, indiceLru, maxContador =>
    match s.memoriaFisica i with
    | none => some i
    | some v =>
      if maxContador < s.contador v then elegirDesde s resto (some i) (s.contador v)
      else elegirDesde s resto indiceLru maxContador

/-- `indice_lru`; `none` is -1. -/
def elegirMarco (s : Estado) : Option (Fin numMarcos) :=
  elegirDesde s (List.finRange numMarcos) none (-1)

/-- The first free slot of the secondary store takes the page; without one it is lost. -/
def guardar (almacen : Fin (numPaginas * numProcesos) → Marco) (v : Pagina) :
    Fin (numPaginas * numProcesos) → Marco :=
  match (List.finRange (numPaginas * numProcesos)).find? fun j => (almacen j).isNone with
  | some j => update almacen j (some v)
  | none => almacen

def Tabla.cambiar (tabla : Tabla) (v : Pagina)
    (cambio : EntradaTablaPaginas → EntradaTablaPaginas) : Tabla :=
  update tabla v.1 (update (tabla v.1) v.2 (cambio (tabla v.1 v.2)))

/-- The page in the frame, if there is one, goes to the secondary store. -/
def desalojar (s : Estado) (i : Fin numMarcos) : Estado :=
  match s.memoriaFisica i with
  | none => s
  | some victima =>
    { s with
      tablaPaginasProceso :=
        s.tablaPaginasProceso.cambiar victima fun entrada => { entrada with presente := false }
      almacenamientoSecundario := guardar s.almacenamientoSecundario victima }

def ocupar (s : Estado) (v : Pagina) (i : Fin numMarcos) : Estado :=
  { s with
    memoriaFisica := update s.memoriaFisica i (some v)
    tablaPaginasProceso := s.tablaPaginasProceso.cambiar v fun _ =>
      { pid := some v.1, pagina := some v.2, presente := true, contadorLRU := 0,
        indiceMarco := some i } }

def cargar (s : Estado) (v : Pagina) (i : Fin numMarcos) : Option Estado := do
  let s := ocupar (desalojar s i) v i
  let tabla ← conContadores s.tablaPaginasProceso v.1 fun j =>
    envejecer (s.tablaPaginasProceso v.1 j).contadorLRU
  pure { s with tablaPaginasProceso := tabla }

/-- The source does not look at `algoritmo` either. -/
def asignarPagina (s : Estado) (v : Pagina) (_algoritmo : Algoritmo) : Option Estado :=
  if s.Residente v then acierto s v
  else
    match elegirMarco s with
    | none => none
    | some i => cargar s v i

/-! ## Runs with their history -/

/-- The simulator with what happened so far: the number of accesses, for each page the
number of its last access and of its last load (0: none), and the pages loaded and
evicted, the oldest first. -/
structure Traza where
  estado : Estado
  reloj : Nat
  ultimoAcceso : Pagina → Nat
  ultimaCarga : Pagina → Nat
  cargas : List Pagina
  desalojos : List Pagina

def Traza.inicial : Traza where
  estado := inicializar
  reloj := 0
  ultimoAcceso _ := 0
  ultimaCarga _ := 0
  cargas := []
  desalojos := []

/-- The pages that are in memory before a call and not after it. -/
def expulsadas (antes despues : Estado) : List Pagina :=
  (List.finRange numMarcos).filterMap fun i =>
    (antes.memoriaFisica i).filter fun v => ¬ despues.Residente v

def Traza.acceder (algoritmo : Algoritmo) (t : Traza) (v : Pagina) : Option Traza := do
  let estado ← asignarPagina t.estado v algoritmo
  pure
    { estado
      reloj := t.reloj + 1
      ultimoAcceso := update t.ultimoAcceso v (t.reloj + 1)
      ultimaCarga :=
        if t.estado.Residente v then t.ultimaCarga
        else update t.ultimaCarga v (t.reloj + 1)
      cargas := if t.estado.Residente v then t.cargas else t.cargas ++ [v]
      desalojos := t.desalojos ++ expulsadas t.estado estado }

def simulador (algoritmo : Algoritmo) : System Traza Pagina where
  init t := t = Traza.inicial
  step := Traza.acceder algoritmo

end Laboratorio.Lab07
