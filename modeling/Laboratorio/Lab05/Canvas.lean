import Mathlib.Algebra.Ring.Int.Defs
import Mathlib.Logic.Function.Basic

/-! # The shared canvas (`lab-05/canvas.c`)

`escribirCanvas` writes a message from a position on, to the right or downwards.  The position
is given with two `int`s and the loop counts with a `size_t`, so a negative position is a number
close to `2 ^ 64` when the remainder is taken, and `2 ^ 64` is not a multiple of the number of
cells: the message then begins in another cell, and jumps to cell 0 where the position would
become 0.

An `int` that overflows and an index outside of the canvas have no result.
-/

namespace Laboratorio.Lab05.Canvas

open Function Nat Option

def height : Nat := 25

def width : Nat := 25

/-- The cells of a canvas. -/
def celdas : Nat := height * width

abbrev CanvasT := Fin celdas → UInt8

/-- The shared memory objects that are canvases. -/
abbrev Memoria := String → Option CanvasT

inductive Resultado where
  | falla (perror : String)
  | vuelve (stderr : String)
deriving DecidableEq

def blanco : CanvasT := fun _ => 45

/-- The values of an `int`. -/
def IsInt (n : Int) : Prop := -2 ^ 31 ≤ n ∧ n < 2 ^ 31

instance (n : Int) : Decidable (IsInt n) := inferInstanceAs (Decidable (_ ∧ _))

/-- The value of an expression of type `int`. -/
def int (n : Int) : Option Int := if IsInt n then some n else none

/-- Conversion to `size_t`, and what an operation on `size_t`s leaves of its result. -/
def sizeT (n : Int) : Int := n % 2 ^ 64

/-- `(x * WIDTH + y + i)%(HEIGHT*WIDTH)` -/
def indiceH (x y : Int) (i : Nat) : Option Int := do
  let fila ← int (x * width)
  let posicion ← int (fila + y)
  pure (sizeT (sizeT posicion + i) % celdas)

/-- `((x + i) * WIDTH + y)%(HEIGHT*WIDTH)` -/
def indiceV (x y : Int) (i : Nat) : Option Int :=
  pure (sizeT (sizeT (sizeT (sizeT x + i) * width) + sizeT y) % celdas)

def poner (canvas : CanvasT) (indice : Int) (c : UInt8) : Option CanvasT :=
  if inside : 0 ≤ indice ∧ indice.toNat < celdas then
    some (update canvas ⟨indice.toNat, inside.2⟩ c)
  else none

/-- The loop over the message, from its character `i` on. -/
def escribir (indice : Nat → Option Int) : List UInt8 → Nat → CanvasT → Option CanvasT
  | [], _, canvas => some canvas
  | c :: resto, i, canvas => do
    let celda ← indice i
    let canvas ← poner canvas celda c
    escribir indice resto (i + 1) canvas

def escribirCanvas (memoria : Memoria) (name : String) (mensaje : List UInt8) (x y : Int)
    (direccion : Char) : Option (Resultado × Memoria) :=
  match memoria name with
  | none => some (.falla "shm_open", memoria)
  | some canvas =>
    let escrita indice := (escribir indice mensaje 0 canvas).map fun canvas =>
      (Resultado.vuelve "", update memoria name (some canvas))
    if direccion = 'h' then escrita (indiceH x y)
    else if direccion = 'v' then escrita (indiceV x y)
    else
      some (.vuelve ("Error: dirección desconocida '" ++ direccion.toString ++
        "'. Use 'h' para horizontal o 'v' para vertical.\n"), memoria)

/-! ## Where the characters go -/

/-- The cell of a position that is any integer. -/
def celda (n : Int) : Fin celdas := ⟨(n % celdas).toNat, by
  have bound := Int.emod_lt_of_pos n (show (0 : Int) < celdas by decide)
  have nonneg := Int.emod_nonneg n (show (celdas : Int) ≠ 0 by decide)
  omega⟩

/-- Each character is in the cell of its position unless a later one is, and the other cells
are as they were. -/
structure Escrito (posicion : Nat → Int) (mensaje : List UInt8) (canvas nuevo : CanvasT) :
    Prop where
  puesto : ∀ i c, mensaje[i]? = some c →
    (∀ j < mensaje.length, i < j → celda (posicion j) ≠ celda (posicion i)) →
    nuevo (celda (posicion i)) = c
  igual : ∀ otra, (∀ i < mensaje.length, celda (posicion i) ≠ otra) → nuevo otra = canvas otra

/-- The call writes every message of length `n` to every canvas, as `bien` says. -/
def Escribe (x y : Int) (direccion : Char) (n : Nat)
    (bien : List UInt8 → CanvasT → CanvasT → Prop) : Prop :=
  ∀ (memoria : Memoria) (name : String) canvas mensaje, memoria name = some canvas →
    mensaje.length = n → ∃ nuevo, escribirCanvas memoria name mensaje x y direccion =
      some (.vuelve "", update memoria name (some nuevo)) ∧ bien mensaje canvas nuevo

section

variable {x y : Int} {i : Nat} {mensaje : List UInt8} {canvas : CanvasT}

theorem poner_celda (n : Int) (c : UInt8) :
    poner canvas (n % celdas) c = some (update canvas (celda n) c) := by
  have nonneg := Int.emod_nonneg n (show (celdas : Int) ≠ 0 by decide)
  rw [poner, dif_pos ⟨nonneg, (celda n).isLt⟩]
  rfl

theorem escribir_spec {indice : Nat → Option Int} {posicion : Nat → Int} (canvas : CanvasT)
    (indices : ∀ j < mensaje.length, indice (i + j) = some (posicion j % celdas)) :
    ∃ nuevo, escribir indice mensaje i canvas = some nuevo ∧
      Escrito posicion mensaje canvas nuevo := by
  induction mensaje generalizing i canvas posicion with
  | nil => exact ⟨canvas, rfl, nofun, fun _ _ => rfl⟩
  | cons c resto ih =>
    have first := indices 0 (zero_lt_succ _)
    have later : ∀ j < resto.length, indice (i + 1 + j) = some (posicion (j + 1) % celdas) := by
      intro j bound
      rw [← indices (j + 1) (succ_lt_succ bound)]
      congr 1
      omega
    obtain ⟨nuevo, written, escrito⟩ := ih (update canvas (celda (posicion 0)) c) later
    refine ⟨nuevo, ?_, ?_, ?_⟩
    · rw [escribir, ← Nat.add_zero i, first]
      simpa only [bind_eq_bind, bind_some, poner_celda] using written
    · intro k d found last
      cases k with
      | zero =>
        cases found
        rw [escrito.igual _ fun j bound => last (j + 1) (succ_lt_succ bound) j.succ_pos]
        exact update_self _ _ _
      | succ k =>
        apply escrito.puesto k d found
        intro j bound after
        exact last (j + 1) (succ_lt_succ bound) (succ_lt_succ after)
    · intro otra apart
      rw [escrito.igual otra fun j bound => apart (j + 1) (succ_lt_succ bound)]
      exact update_of_ne (apart 0 (zero_lt_succ _)).symm _ _

theorem int_eq {n : Int} (fits : IsInt n) : int n = some n := if_pos fits

theorem celdas_eq : celdas = 625 := rfl
theorem width_eq : width = 25 := rfl

theorem indiceH_eq (row : IsInt (x * width)) (fits : IsInt (x * width + y)) (i : Nat) :
    indiceH x y i = some (sizeT (x * width + y + i) % celdas) := by
  rw [indiceH, int_eq row, bind_eq_bind, bind_some, int_eq fits, bind_some, sizeT, sizeT,
    Int.emod_add_emod]
  rfl

theorem indiceV_eq (x y : Int) (i : Nat) :
    indiceV x y i = some (sizeT ((x + i) * width + y) % celdas) := by
  have same : sizeT (sizeT (sizeT (sizeT x + i) * width) + sizeT y) =
      sizeT ((x + i) * width + y) := by
    simp only [sizeT, width_eq]
    omega
  rw [indiceV, same]
  rfl

theorem sizeT_eq {n : Int} (nonneg : 0 ≤ n) (fits : n < 2 ^ 64) : sizeT n = n :=
  Int.emod_eq_of_lt nonneg fits

theorem sizeT_negativo {n : Int} (fits : IsInt n) (negative : n < 0) : sizeT n = 2 ^ 64 + n := by
  have lower := fits.1
  rw [sizeT]
  omega

theorem celda_inj {n : Int} {j : Nat} (bound : i < celdas) (bound' : j < celdas)
    (same : celda (n + j) = celda (n + i)) : j = i := by
  have cells := congrArg Fin.val same
  rw [celdas_eq] at bound bound'
  simp only [celda, celdas_eq] at cells
  omega

theorem celda_succ (n : Int) : (celda (n + 1)).val = ((celda n).val + 1) % celdas := by
  simp only [celda, celdas_eq]
  omega

/-! ## Negative positions -/

/-- `2 ^ 64` positions on is another column of the canvas. -/
theorem celda_vuelta (n : Int) (i : Nat) : celda (n + i * width) ≠ celda (2 ^ 64 + n) := by
  intro same
  have cells := congrArg Fin.val same
  simp only [celda, celdas_eq, width_eq] at cells
  omega

theorem escribir_ne {indice : Nat → Option Int} {nuevo : CanvasT} {otra : Fin celdas} {v : UInt8}
    (absent : v ∉ mensaje) (here : canvas otra ≠ v)
    (written : escribir indice mensaje i canvas = some nuevo) : nuevo otra ≠ v := by
  induction mensaje generalizing i canvas with
  | nil =>
    cases written
    exact here
  | cons c resto ih =>
    rw [List.mem_cons, not_or] at absent
    obtain ⟨n, -, written⟩ := bind_eq_some_iff.mp written
    obtain ⟨canvas', put, written⟩ := bind_eq_some_iff.mp written
    refine ih absent.2 ?_ written
    rw [poner] at put
    split at put
    case isFalse => cases put
    case isTrue =>
      cases put
      rw [update_apply]
      split
      case isTrue => exact Ne.symm absent.1
      case isFalse => exact here

/-- An `A` and then only `B`s, where the `A` does not come to its cell. -/
theorem escribir_vuelta {indice : Nat → Option Int} {nuevo : CanvasT} {n : Nat} {posicion : Int}
    (first : indice 0 = some ((2 ^ 64 + posicion) % celdas))
    (written : escribir indice (65 :: List.replicate n 66) 0 blanco = some nuevo) :
    nuevo (celda (2 ^ 64 + posicion)) ≠ 45 ∧ nuevo (celda posicion) ≠ 65 := by
  rw [escribir, first] at written
  simp only [bind_eq_bind, bind_some, poner_celda] at written
  have apart := celda_vuelta posicion 0
  rw [Int.natCast_zero, Int.zero_mul, Int.add_zero] at apart
  constructor
  · exact escribir_ne (by simp) (by rw [update_self]; decide) written
  · exact escribir_ne (by simp) (by rw [update_of_ne apart]; exact (by decide : (45 : UInt8) ≠ 65)) written

theorem escrita_inj {memoria : Memoria} {name : String} {fin : Option CanvasT} {nuevo : CanvasT}
    (same : (fin.map fun canvas => (Resultado.vuelve "", update memoria name (some canvas))) =
      some (.vuelve "", update memoria name (some nuevo))) : fin = some nuevo := by
  obtain ⟨canvas, rfl, equal⟩ := map_eq_some_iff.mp same
  have cells := congrFun (Prod.mk.inj equal).2 name
  rwa [update_self, update_self] at cells

/-- Each character comes to the cell of its position, whatever the message and the canvas, exactly
if the message is empty or the position is not negative and, to the right, the row does not
overflow. -/
theorem escribirCanvas_en_celda {n : Nat} (short : n ≤ celdas) (fits : IsInt (x * width + y)) :
    ((Escribe x y 'h' n fun mensaje canvas nuevo =>
        Escrito (fun i => x * width + y + i) mensaje canvas nuevo ∧
        (∀ (i : Nat) c, mensaje[i]? = some c → nuevo (celda (x * width + y + i)) = c) ∧
        ∀ i : Nat, (celda (x * width + y + i + 1)).val =
          ((celda (x * width + y + i)).val + 1) % celdas) ↔
      n = 0 ∨ IsInt (x * width) ∧ 0 ≤ x * width + y) ∧
    (Escribe x y 'v' n (Escrito fun i => (x + i) * width + y) ↔ n = 0 ∨ 0 ≤ x * width + y) := by
  refine ⟨⟨fun all => ?_, fun good memoria name canvas mensaje opened length => ?_⟩,
    ⟨fun all => ?_, fun good memoria name canvas mensaje opened length => ?_⟩⟩
  · cases n with
    | zero => exact .inl rfl
    | succ n =>
      obtain ⟨nuevo, written, -, placed, -⟩ := all (fun _ => some blanco) "" blanco
        (65 :: List.replicate n 66) rfl (by simp)
      replace written := escrita_inj written
      by_cases row : IsInt (x * width)
      · refine .inr ⟨row, Int.not_lt.mp fun negative => ?_⟩
        have first := indiceH_eq row fits 0
        rw [Int.natCast_zero, Int.add_zero, sizeT_negativo fits negative] at first
        have value := placed 0 65 rfl
        rw [Int.natCast_zero, Int.add_zero] at value
        exact (escribir_vuelta first written).2 value
      · rw [escribir, indiceH, int, if_neg row] at written
        cases written
  · have indices : ∀ j < mensaje.length,
        indiceH x y (0 + j) = some ((x * width + y + j) % celdas) := by
      intro j bound
      obtain ⟨row, nonneg⟩ := good.resolve_left (by omega)
      have upper := fits.2
      rw [celdas_eq] at short
      rw [Nat.zero_add, indiceH_eq row fits, sizeT_eq (by omega) (by omega)]
    obtain ⟨nuevo, written, escrito⟩ := escribir_spec canvas indices
    refine ⟨nuevo, by simp [escribirCanvas, opened, written], escrito, ?_, fun i => celda_succ _⟩
    intro i c found
    have bound := (List.getElem?_eq_some_iff.mp found).1
    apply escrito.puesto i c found
    intro j bound' after same
    have equal := celda_inj (by omega) (by omega) same
    omega
  · cases n with
    | zero => exact .inl rfl
    | succ n =>
      obtain ⟨nuevo, written, escrito⟩ := all (fun _ => some blanco) "" blanco
        (65 :: List.replicate n 66) rfl (by simp)
      replace written := escrita_inj written
      refine .inr (Int.not_lt.mp fun negative => ?_)
      have first := indiceV_eq x y 0
      rw [Int.natCast_zero, Int.add_zero, sizeT_negativo fits negative] at first
      refine (escribir_vuelta first written).1 (escrito.igual _ fun i _ => ?_)
      rw [Int.add_mul, Int.add_right_comm]
      exact celda_vuelta _ i
  · have indices : ∀ j < mensaje.length,
        indiceV x y (0 + j) = some (((x + j) * width + y) % celdas) := by
      intro j bound
      have nonneg := good.resolve_left (by omega)
      have upper := fits.2
      rw [celdas_eq] at short
      rw [width_eq] at nonneg upper
      rw [Nat.zero_add, indiceV_eq, width_eq, sizeT_eq (by omega) (by omega)]
    obtain ⟨nuevo, written, escrito⟩ := escribir_spec canvas indices
    exact ⟨nuevo, by simp [escribirCanvas, opened, written], escrito⟩

end

theorem escribirCanvas_hi : ∃ nuevo,
    escribirCanvas (fun _ => some blanco) "c" [72, 105] 1 2 'v' =
      some (.vuelve "", update (fun _ => some blanco) "c" (some nuevo)) ∧
    Escrito (fun i => (1 + i) * width + 2) [72, 105] blanco nuevo :=
  (escribirCanvas_en_celda (by decide) (by decide)).2.mpr (.inr (by decide)) _ _ _ _ rfl rfl

/-- One cell before the first: the message begins in cell 365 and goes on in cell 0. -/
theorem escribirCanvas_negativo :
    IsInt (0 * width + -1) ∧ (celda (-1)).val = 624 ∧
    ((escribirCanvas (fun _ => some blanco) "c" [65, 66] 0 (-1) 'h').bind fun fin =>
      (fin.2 "c").map fun canvas => (canvas (celda 365), canvas (celda 0), canvas (celda (-1)))) =
        some (65, 66, 45) := by
  decide

end Laboratorio.Lab05.Canvas
