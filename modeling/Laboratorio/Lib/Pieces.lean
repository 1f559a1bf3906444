import Mathlib.Algebra.BigOperators.Group.Finset.Basic
import Mathlib.Algebra.BigOperators.Group.Finset.Piecewise
import Mathlib.Algebra.Order.BigOperators.Group.Finset

/-! # Interleaved pieces

Several sources hand over their data in pieces, one after the other, and the pieces of
different sources mix.  A piece carries the number of its source.  `piecesOf` are the pieces
of one source, in their order; `joined` is all the data in the order of arrival.

* `chunks size data` — the data cut into pieces of `size` elements and a last, shorter one.
* `length_joined` — the data of all sources add up to the data joined.
-/

namespace Laboratorio.Lib

open Finset

variable {Data : Type} {data : List Data} {source : Nat}

abbrev Pieces (Data : Type) := List (Nat × List Data)

namespace Pieces

def piecesOf (pieces : Pieces Data) (source : Nat) : List (List Data) :=
  (pieces.filter fun piece => piece.1 = source).map Prod.snd

def joined (pieces : Pieces Data) : List Data :=
  (pieces.map Prod.snd).flatten

@[simp] theorem joined_nil : joined ([] : Pieces Data) = [] := rfl

theorem joined_append (pieces : Pieces Data) (source : Nat) (data : List Data) :
    joined (pieces ++ [(source, data)]) = joined pieces ++ data := by
  simp [joined]

theorem piecesOf_append_self (pieces : Pieces Data) (source : Nat) (data : List Data) :
    piecesOf (pieces ++ [(source, data)]) source = piecesOf pieces source ++ [data] := by
  simp [piecesOf]

theorem piecesOf_append_of_ne (pieces : Pieces Data) {other : Nat} (data : List Data)
    (different : other ≠ source) :
    piecesOf (pieces ++ [(source, data)]) other = piecesOf pieces other := by
  simp [piecesOf, different.symm]

theorem mem_piecesOf {pieces : Pieces Data} {piece : Nat × List Data} (mem : piece ∈ pieces) :
    piece.2 ∈ piecesOf pieces piece.1 :=
  List.mem_map_of_mem (List.mem_filter.mpr ⟨mem, by simp⟩)

theorem piecesOf_eq_nil {pieces : Pieces Data}
    (absent : ∀ piece ∈ pieces, piece.1 ≠ source) : piecesOf pieces source = [] := by
  simpa [piecesOf, List.filter_eq_nil_iff] using absent

theorem length_joined (pieces : Pieces Data) {sources : Nat}
    (known : ∀ piece ∈ pieces, piece.1 < sources) :
    (joined pieces).length = ∑ source ∈ range sources, (piecesOf pieces source).flatten.length := by
  induction pieces using List.reverseRecOn with
  | nil => simp [piecesOf]
  | append_singleton pieces last ih =>
    obtain ⟨source, data⟩ := last
    have rest := ih fun piece mem => known piece (List.mem_append_left _ mem)
    have bound : source < sources := known (source, data) (by simp)
    -- only the sum of the last piece's source grows, and by its length
    have each : ∀ other ∈ range sources,
        (piecesOf (pieces ++ [(source, data)]) other).flatten.length =
          (piecesOf pieces other).flatten.length + if other = source then data.length else 0 := by
      intro other _
      by_cases same : other = source
      · subst same
        rw [piecesOf_append_self]
        simp
      · rw [piecesOf_append_of_ne pieces data same, if_neg same, Nat.add_zero]
    rw [joined_append, List.length_append, rest, sum_congr rfl each, sum_add_distrib,
      sum_ite_eq' (range sources) source, if_pos (mem_range.mpr bound)]

theorem contiguous {pieces : Pieces Data} (single : piecesOf pieces source = [data]) :
    ∃ before after, joined pieces = before ++ data ++ after := by
  have mem : data ∈ piecesOf pieces source := by simp [single]
  obtain ⟨piece, inside, isData⟩ := List.mem_map.mp mem
  obtain ⟨before, after, split⟩ := List.append_of_mem (List.mem_of_mem_filter inside)
  refine ⟨joined before, joined after, ?_⟩
  simp [joined, split, isData]

end Pieces

/-! ## Chunks -/

def chunks (size : Nat) (data : List Data) : List (List Data) :=
  if data = [] ∨ size = 0 then [] else data.take size :: chunks size (data.drop size)
termination_by data.length
decreasing_by
  rename_i some
  have nonempty : 0 < data.length := by
    rw [List.length_pos_iff]
    exact fun empty => some (.inl empty)
  have positive : 0 < size := Nat.pos_of_ne_zero fun zero => some (.inr zero)
  rw [List.length_drop]
  omega

variable {size : Nat}

@[simp] theorem chunks_nil : chunks size ([] : List Data) = [] := by
  rw [chunks, if_pos (.inl rfl)]

theorem chunks_cons (positive : 0 < size) (nonempty : data ≠ []) :
    chunks size data = data.take size :: chunks size (data.drop size) := by
  rw [chunks, if_neg]
  rintro (empty | zero)
  · exact nonempty empty
  · omega

theorem chunks_of_le (positive : 0 < size) (nonempty : data ≠ [])
    (fits : data.length ≤ size) : chunks size data = [data] := by
  rw [chunks_cons positive nonempty, List.take_of_length_le fits, List.drop_of_length_le fits,
    chunks_nil]

theorem flatten_chunks (positive : 0 < size) (data : List Data) :
    (chunks size data).flatten = data := by
  induction length : data.length using Nat.strongRecOn generalizing data with
  | ind n ih =>
    by_cases empty : data = []
    · subst empty
      rw [chunks_nil, List.flatten_nil]
    · have some : 0 < data.length := List.length_pos_iff.mpr empty
      have shorter : (data.drop size).length < n := by
        rw [List.length_drop]
        omega
      rw [chunks_cons positive empty, List.flatten_cons,
        ih _ shorter (data.drop size) rfl, List.take_append_drop]

theorem length_le_of_mem_chunks (positive : 0 < size) {chunk : List Data}
    (mem : chunk ∈ chunks size data) : chunk.length ≤ size := by
  induction length : data.length using Nat.strongRecOn generalizing data with
  | ind n ih =>
    by_cases empty : data = []
    · rw [empty, chunks_nil] at mem
      cases mem
    · rw [chunks_cons positive empty] at mem
      rcases List.mem_cons.mp mem with first | later
      · rw [first]
        exact List.length_take_le ..
      · have some : 0 < data.length := List.length_pos_iff.mpr empty
        have shorter : (data.drop size).length < n := by
          rw [List.length_drop]
          omega
        exact ih _ shorter later rfl

end Laboratorio.Lib
