import Laboratorio.Xv6.Mem.AddressSpace
import Laboratorio.Xv6.Vm.Skipping

/-! # The words of a page directory and its tables

`Ram.view` reads the page directory that `Mem.Vm` describes from the words of memory.  While the
tables are pages of their own, `walkpgdir` and `mappages` on the words are the
functions of `Xv6.Mem` on what the words say, free list and panics included.
-/

namespace Laboratorio.Xv6.Vm

open Laboratorio.Xv6.Mem Function Option

/-- The page and `PTE_U` of an entry that is present. -/
def pteOf (word : Nat) : Option Pte :=
  if present word then some ⟨word / pgsize, word / 4 % 2 == 1⟩ else none

namespace Ram

variable (ram : Ram) (pgdir : Nat)

def tableOf (pgtab : Nat) : PageTable := ⟨pgtab, fun e => pteOf (ram.word (pgtab, e))⟩

def view : Mem.Vm := ⟨pgdir, fun d => (ram.table pgdir d).map ram.tableOf⟩

end Ram

section

variable {machine : Machine} {ram ram' : Ram} {pgdir v pgtab perm value oldsz newsz : Nat}
  {pte : Nat × Fin 1024} {rest : List Nat}

theorem view_tables (d : Fin 1024) :
    (ram.view pgdir).tables d = (ram.table pgdir d).map ram.tableOf := rfl

theorem tableOf_congr (same : ∀ e, ram'.word (pgtab, e) = ram.word (pgtab, e)) :
    ram'.tableOf pgtab = ram.tableOf pgtab :=
  congrArg (PageTable.mk pgtab) (funext fun e => congrArg pteOf (same e))

theorem view_entry (v : Nat) : (ram.view pgdir).entry v = (ram.entry pgdir v).bind pteOf := by
  rw [Mem.Vm.entry, Ram.entry, pte_eq, view_tables]
  cases ram.table pgdir (pdx v) <;> rfl

theorem pteOf_isSome (word : Nat) : (pteOf word).isSome = present word := by
  rw [pteOf]
  cases present word <;> rfl

/-- A word of a table is written, and the tables stay where they are. -/
theorem view_setEntry (found : ram.pte pgdir (v * pgsize) = some pte)
    (distinct : ∀ d e pgtab, ram.table pgdir d = some pgtab → ram.table pgdir e = some pgtab → d = e)
    (tables : ∀ d, ram'.table pgdir d = ram.table pgdir d) (own : ram'.word pte = value)
    (others : ∀ d pgtab e, ram.table pgdir d = some pgtab → (pgtab, e) ≠ pte →
      ram'.word (pgtab, e) = ram.word (pgtab, e)) :
    ram'.view pgdir = (ram.view pgdir).setEntry v (pteOf value) := by
  rw [pte_eq] at found
  obtain ⟨pgtab, table, rfl⟩ := map_eq_some_iff.mp found
  refine congrArg (Mem.Vm.mk pgdir) (funext fun d => ?_)
  rw [tables]
  by_cases same : d = pdx v
  · subst same
    rw [update_self, view_tables, table, map_some, map_some, map_some]
    refine congrArg some (congrArg (PageTable.mk pgtab) (funext fun e => ?_))
    by_cases here : e = ptx v
    · rw [here, update_self, own]
    · rw [update_of_ne here, others _ _ e table fun slot => here (Prod.mk.inj slot).2]
      rfl
  · rw [update_of_ne same, view_tables]
    cases found' : ram.table pgdir d with
    | none => rfl
    | some pgtab' =>
      refine congrArg some (tableOf_congr fun e => others d pgtab' e found' ?_)
      intro slot
      obtain ⟨rfl, -⟩ := Prod.mk.inj slot
      exact same (distinct _ _ _ found' table)

/-! ## Mapping -/

theorem view_store (apart : Apart ram pgdir) (found : ram.pte pgdir (v * pgsize) = some pte) :
    (ram.store pte value).view pgdir = (ram.view pgdir).setEntry v (pteOf value) :=
  view_setEntry found apart.distinct (fun _ => table_store apart found) (update_self _ _ _)
    fun _ _ _ _ other => update_of_ne other _ _

theorem view_fresh {free : List Nat} (apart : Apart ram pgdir) (taken : ram.free = pgtab :: free) :
    (ram.fresh pgdir (v * pgsize) pgtab free).view pgdir =
      (ram.view pgdir).setTable (pdx v) (some ⟨pgtab, fun _ => none⟩) := by
  obtain ⟨notRoot, unused⟩ := apart.free pgtab (taken ▸ List.mem_cons_self)
  refine congrArg (Mem.Vm.mk pgdir) (funext fun d => ?_)
  rw [table_fresh apart taken, page_mul, update_apply]
  split
  case isTrue =>
    refine congrArg some (congrArg (PageTable.mk pgtab) (funext fun e => ?_))
    have zero : (ram.fresh pgdir (v * pgsize) pgtab free).word (pgtab, e) = 0 := by
      simp [Ram.fresh, Ram.store, notRoot]
    rw [zero]
    rfl
  case isFalse =>
    rw [view_tables]
    cases found : ram.table pgdir d with
    | none => rfl
    | some pgtab' =>
      refine congrArg some (tableOf_congr fun e => ?_)
      have other : pgtab' ≠ pgdir := fun same => apart.directory _ (same ▸ found)
      have own : pgtab' ≠ pgtab := fun same => unused _ (same ▸ found)
      simp [Ram.fresh, Ram.store, other, own]

/-- No allocation is made to fail. -/
def Ram.heap (ram : Ram) : Heap := ⟨ram.free, []⟩

theorem walkpgdir_view (apart : Apart ram pgdir) (v : Nat) {found : Option (Nat × Fin 1024)}
    (walked : walkpgdir ram pgdir (v * pgsize) true = (found, ram')) :
    Mem.walkpgdir (ram.view pgdir) v ram.heap = some ((found.isSome, ram'.view pgdir), ram'.heap) := by
  rw [walkpgdir, page_mul] at walked
  rw [Mem.walkpgdir, view_tables]
  cases table : ram.table pgdir (pdx v) with
  | some pgtab =>
    rw [table] at walked
    cases walked
    rfl
  | none =>
    rw [table] at walked
    cases taken : ram.free with
    | nil =>
      rw [taken] at walked
      cases walked
      rw [Ram.heap, taken]
      rfl
    | cons pgtab free =>
      rw [taken] at walked
      cases walked
      rw [view_fresh apart taken, Ram.heap, taken]
      rfl

theorem pteOf_or (page : Nat) (small : perm < pgsize) :
    pteOf (page * pgsize ||| perm ||| 1) = some ⟨page, perm / 4 % 2 == 1⟩ := by
  have flags : perm ||| 1 < pgsize := Nat.or_lt_two_pow (n := 12) small (by decide)
  have odd : (perm ||| 1) % 2 = 1 := Nat.or_mod_two_eq_one.mpr (.inr rfl)
  have user : (perm ||| 1) / 4 = perm / 4 := by
    rw [show (4 : Nat) = 2 ^ 2 from rfl, Nat.or_div_two_pow]
    exact Nat.or_zero _
  rw [Nat.or_assoc, or_flags _ flags, pteOf, if_pos (by rw [present, beq_iff_eq, pgsize_eq]; omega)]
  rw [pgsize_eq] at flags ⊢
  congr 2
  · omega
  · rw [← user]
    congr 1
    omega

theorem mapPage_view (page : Nat) (small : perm < pgsize) (apart : Apart ram' pgdir)
    (walked : Mem.walkpgdir (ram.view pgdir) v ram.heap =
      some (((ram'.pte pgdir (v * pgsize)).isSome, ram'.view pgdir), ram'.heap)) :
    mapPage (ram.view pgdir) v page (perm / 4 % 2 == 1) ram.heap =
      match ram'.pte pgdir (v * pgsize) with
      | none => some ((false, ram'.view pgdir), ram'.heap)
      | some pte =>
        if present (ram'.word pte) then none
        else some ((true, (ram'.store pte (page * pgsize ||| perm ||| 1)).view pgdir),
          ram'.heap) := by
  show (Mem.walkpgdir (ram.view pgdir) v ram.heap >>= _) = _
  rw [walked]
  cases found : ram'.pte pgdir (v * pgsize) with
  | none => rfl
  | some pte =>
    have isSome : ((ram'.view pgdir).entry v).isSome = present (ram'.word pte) := by
      rw [view_entry, Ram.entry, found]
      exact pteOf_isSome _
    show (if ((ram'.view pgdir).entry v).isSome then failure else pure _ : M (Bool × Mem.Vm)) _ =
      if present (ram'.word pte) then none else some ((true, (ram'.store pte _).view pgdir), _)
    rw [isSome, view_store apart found, pteOf_or page small]
    cases present (ram'.word pte) <;> rfl

/-- `mappages` on the words maps the pages that `Mem.mappages` maps. -/
theorem mapPages_view {page count fuel : Nat} (apart : Apart ram pgdir) (small : perm < pgsize)
    (bound : v + count < 2 ^ 20) (fits : page + count < 2 ^ 20) (enough : count < fuel) :
    Mem.mappages (count + 1) (ram.view pgdir) v page (perm / 4 % 2 == 1) ram.heap =
      (mapPages pgdir ((v + count) * pgsize) perm fuel ram (v * pgsize) (page * pgsize)).map
        fun result => ((result.1 == 0, result.2.view pgdir), result.2.heap) := by
  induction fuel generalizing ram v count page with
  | zero => cases enough
  | succ fuel ih =>
    obtain ⟨ram₁, walked, apart₁, -⟩ := walkpgdir_spec apart (v * pgsize)
    have mapped := mapPage_view page small apart₁ (walkpgdir_view apart v walked)
    rw [mapPages, walked]
    show (mapPage _ v page _ ram.heap >>= _) = _
    rw [mapped]
    cases found : ram₁.pte pgdir (v * pgsize) with
    | none => rfl
    | some pte =>
      dsimp only
      cases present (ram₁.word pte) with
      | true => rfl
      | false =>
        cases count with
        | zero =>
          simp only [Nat.add_zero, Bool.false_eq_true, if_false, if_true]
          rfl
        | succ count =>
          have last : v * pgsize ≠ (v + (count + 1)) * pgsize := by rw [pgsize_eq]; omega
          have next : (v * pgsize + pgsize) % 2 ^ 32 = (v + 1) * pgsize := by rw [pgsize_eq]; omega
          have next' : (page * pgsize + pgsize) % 2 ^ 32 = (page + 1) * pgsize := by
            rw [pgsize_eq]
            omega
          have range : v + (count + 1) = v + 1 + count := by omega
          simp only [Bool.false_eq_true, if_false, if_neg last, next, next']
          rw [range]
          exact ih (apart_store apart₁ found) (by omega) (by omega) (by omega)

theorem mappages_view {va size page : Nat} (apart : Apart ram pgdir) (nonempty : 1 ≤ size)
    (bound : va + size ≤ 2 ^ 32) (small : perm < pgsize)
    (fits : page + ((va + size - 1) / pgsize - va / pgsize) < 2 ^ 20) :
    Mem.mappages ((va + size - 1) / pgsize - va / pgsize + 1) (ram.view pgdir) (va / pgsize) page
        (perm / 4 % 2 == 1) ram.heap =
      (mappages ram pgdir va size (page * pgsize) perm).map
        fun result => ((result.1 == 0, result.2.view pgdir), result.2.heap) := by
  obtain ⟨count, last⟩ : ∃ count, (va + size - 1) / pgsize = va / pgsize + count :=
    Nat.exists_eq_add_of_le (Nat.div_le_div_right (by omega))
  have wraps : (va + size + 2 ^ 32 - 1) % 2 ^ 32 = va + size - 1 := by omega
  rw [mappages, wraps, pgrounddown, last, Nat.add_sub_cancel_left]
  rw [last, Nat.add_sub_cancel_left] at fits
  rw [pgsize_eq] at last
  apply mapPages_view apart small _ fits
  · rw [topPage_eq]
    omega
  · rw [pgsize_eq]
    omega

end

end Laboratorio.Xv6.Vm
