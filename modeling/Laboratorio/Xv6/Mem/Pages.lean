import Laboratorio.Lib.Stateful
import Laboratorio.Lib.Sum
import Laboratorio.Xv6.Mem.Model

/-! # What the functions of `vm.c` do with pages

`Vm.count` is the number of times an address space owns a page: as its directory, as one of
its page tables or as a page of the user half.  Entries of the kernel half own nothing.

For each function, what it took from the free list is in the address space afterwards, and
what it gave back is not.  `Touches` says which entries it may have changed.
-/

namespace Laboratorio.Xv6.Mem

open Laboratorio.Lib Function Vm Option

/-! ## Numbers -/

/-- The tables of the user half. -/
def userTables : Nat := kernPage / nptentries

theorem kernPage_eq : kernPage = 524288 := rfl
theorem topPage_eq : topPage = 1048576 := rfl
theorem userTables_eq : userTables = 512 := rfl

theorem pdx_val (v : Nat) : (pdx v).val = v / 1024 % 1024 := rfl
theorem ptx_val (v : Nat) : (ptx v).val = v % 1024 := rfl

theorem pdx_user {v : Nat} (low : v < kernPage) : (pdx v).val < userTables := by
  rw [kernPage_eq] at low
  rw [pdx_val, userTables_eq]
  omega

theorem pdx_kernel {v : Nat} (high : kernPage ≤ v) (bound : v < topPage) :
    ¬ (pdx v).val < userTables := by
  rw [kernPage_eq] at high
  rw [topPage_eq] at bound
  rw [pdx_val, userTables_eq]
  omega

theorem eq_of_pdx_ptx {v w : Nat} (bound : v < topPage) (bound' : w < topPage)
    (sameTable : pdx v = pdx w) (sameEntry : ptx v = ptx w) : v = w := by
  rw [topPage_eq] at bound bound'
  have high := congrArg Fin.val sameTable
  have low := congrArg Fin.val sameEntry
  rw [pdx_val, pdx_val] at high
  rw [ptx_val, ptx_val] at low
  omega

theorem pagesUp_mono {size size' : Nat} (le : size ≤ size') : pagesUp size ≤ pagesUp size' := by
  apply Nat.div_le_div_right
  omega

theorem pagesUp_kernbase : pagesUp kernbase = kernPage := rfl

theorem pagesUp_le_kernPage {size : Nat} (bound : size ≤ kernbase) : pagesUp size ≤ kernPage := by
  rw [← pagesUp_kernbase]
  exact pagesUp_mono bound

/-! ## Counts -/

def here (owned page : Nat) : Nat := if owned = page then 1 else 0

def Heap.count (heap : Heap) (page : Nat) : Nat := heap.free.count page

def Pte.count (pte : Option Pte) (page : Nat) : Nat := pte.elim 0 fun pte => here pte.page page

def PageTable.count (table : PageTable) (page : Nat) : Nat :=
  total fun e => Pte.count (table.entries e) page

def tableCount (page : Nat) (d : Fin npdentries) (table : Option PageTable) : Nat :=
  table.elim 0 fun table =>
    here table.page page + if d.val < userTables then table.count page else 0

namespace Vm

variable (vm : Vm)

def count (page : Nat) : Nat :=
  here vm.pgdir page + total fun d => tableCount page d (vm.tables d)

def present (d : Fin npdentries) : Prop := (vm.tables d).isSome = true

end Vm

theorem count_setTable (vm : Vm) (d : Fin npdentries) (table : Option PageTable) (page : Nat) :
    (vm.setTable d table).count page + tableCount page d (vm.tables d) =
      vm.count page + tableCount page d table := by
  have sum := total_update (tableCount page) vm.tables d table
  simp only [count, setTable]
  omega

/-! ## Single entries -/

section entry

variable {vm : Vm} {v w : Nat} {pte : Option Pte}

theorem entry_of_table {table : PageTable} (found : vm.tables (pdx v) = some table) :
    vm.entry v = table.entries (ptx v) := by
  rw [entry, found]
  rfl

theorem entry_of_absent (absent : vm.tables (pdx v) = none) : vm.entry v = none := by
  rw [entry, absent]
  rfl

theorem present_of_entry {found : Pte} (mapped : vm.entry v = some found) : vm.present (pdx v) := by
  cases absent : vm.tables (pdx v) with
  | none =>
    rw [entry_of_absent absent] at mapped
    cases mapped
  | some table =>
    rw [present, absent]
    rfl

theorem tables_setEntry_of_ne {d : Fin npdentries} (different : d ≠ pdx v) :
    (vm.setEntry v pte).tables d = vm.tables d :=
  update_of_ne different _ _

theorem tables_setEntry_self :
    (vm.setEntry v pte).tables (pdx v) = (vm.tables (pdx v)).map fun table =>
      { table with entries := update table.entries (ptx v) pte } :=
  update_self _ _ _

theorem present_setEntry (d : Fin npdentries) : (vm.setEntry v pte).present d ↔ vm.present d := by
  by_cases same : d = pdx v
  · subst same
    rw [present, present, tables_setEntry_self, isSome_map]
  · rw [present, present, tables_setEntry_of_ne same]

theorem entry_setEntry_self (found : vm.present (pdx v)) : (vm.setEntry v pte).entry v = pte := by
  obtain ⟨table, found⟩ := isSome_iff_exists.mp found
  rw [entry, tables_setEntry_self, found]
  exact update_self _ _ _

theorem entry_setEntry_of_ne (bound : v < topPage) (bound' : w < topPage) (different : w ≠ v) :
    (vm.setEntry v pte).entry w = vm.entry w := by
  by_cases sameTable : pdx w = pdx v
  · have otherEntry : ptx w ≠ ptx v := by
      intro sameEntry
      exact different (eq_of_pdx_ptx bound' bound sameTable sameEntry)
    rw [entry, entry, sameTable, tables_setEntry_self]
    cases vm.tables (pdx v) with
    | none => rfl
    | some table => exact update_of_ne otherEntry _ _
  · rw [entry, entry, tables_setEntry_of_ne sameTable]

theorem count_setEntry_user (pte : Option Pte) (low : v < kernPage) (found : vm.present (pdx v))
    (page : Nat) :
    (vm.setEntry v pte).count page + Pte.count (vm.entry v) page =
      vm.count page + Pte.count pte page := by
  obtain ⟨table, found⟩ := isSome_iff_exists.mp found
  have change := count_setTable vm (pdx v) ((vm.tables (pdx v)).map fun table =>
    { table with entries := update table.entries (ptx v) pte }) page
  have entries := total_update (fun _ => (Pte.count · page)) table.entries (ptx v) pte
  simp only [found, map_some, tableCount, elim_some, if_pos (pdx_user low)] at change
  rw [entry_of_table found, setEntry, found, map_some]
  simp only [PageTable.count] at change
  omega

theorem count_setEntry_kernel (high : kernPage ≤ v) (bound : v < topPage) (page : Nat) :
    (vm.setEntry v pte).count page = vm.count page := by
  have change := count_setTable vm (pdx v) ((vm.tables (pdx v)).map fun table =>
    { table with entries := update table.entries (ptx v) pte }) page
  have same : tableCount page (pdx v) ((vm.tables (pdx v)).map fun table =>
      { table with entries := update table.entries (ptx v) pte }) =
      tableCount page (pdx v) (vm.tables (pdx v)) := by
    cases vm.tables (pdx v) with
    | none => rfl
    | some table => simp [tableCount, if_neg (pdx_kernel high bound)]
  rw [same] at change
  exact Nat.add_right_cancel change

/-- An entry of the user half owns its page. -/
theorem count_pos_of_entry {found : Pte} (low : v < kernPage) (mapped : vm.entry v = some found) :
    0 < vm.count found.page := by
  have change := count_setEntry_user none low (present_of_entry mapped) found.page
  rw [mapped, Pte.count, elim_some, here, if_pos rfl, Pte.count, elim_none] at change
  omega

end entry

/-! ## Areas -/

/-- Only entries of the area differ, and only tables for it are new. -/
structure Touches (area : Nat → Prop) (vm vm' : Vm) : Prop where
  entry : ∀ w < topPage, ¬ area w → vm'.entry w = vm.entry w
  grows : ∀ d, vm.present d → vm'.present d
  fresh : ∀ d, vm'.present d → vm.present d ∨ ∃ w, area w ∧ d = pdx w

namespace Touches

variable {area wider : Nat → Prop} {vm vm' vm'' : Vm}

theorem refl : Touches area vm vm where
  entry _ _ _ := rfl
  grows _ found := found
  fresh _ found := .inl found

theorem trans (first : Touches area vm vm') (second : Touches area vm' vm'') :
    Touches area vm vm'' where
  entry w bound outside := (second.entry w bound outside).trans (first.entry w bound outside)
  grows d found := second.grows d (first.grows d found)
  fresh d found := by
    cases second.fresh d found with
    | inl before => exact first.fresh d before
    | inr fresh => exact .inr fresh

theorem mono (touches : Touches area vm vm') (implies : ∀ w, area w → wider w) :
    Touches wider vm vm' where
  entry w bound outside := touches.entry w bound fun inside => outside (implies w inside)
  grows := touches.grows
  fresh d found := by
    cases touches.fresh d found with
    | inl before => exact .inl before
    | inr fresh =>
      obtain ⟨w, inside, same⟩ := fresh
      exact .inr ⟨w, implies w inside, same⟩

theorem setEntry {v : Nat} {pte : Option Pte} (bound : v < topPage) :
    Touches (· = v) vm (vm.setEntry v pte) where
  entry _ bound' outside := entry_setEntry_of_ne bound bound' outside
  grows d found := (present_setEntry d).mpr found
  fresh d found := .inl ((present_setEntry d).mp found)

end Touches

/-- The entries of the kernel half are not the user's. -/
def Vm.Guarded (vm : Vm) : Prop :=
  ∀ w pte, kernPage ≤ w → w < topPage → vm.entry w = some pte → pte.user = false

theorem Touches.guarded {vm vm' : Vm} (touches : Touches (· < kernPage) vm vm')
    (guarded : vm.Guarded) : vm'.Guarded := by
  intro w pte high bound mapped
  rw [touches.entry w bound (Nat.not_lt.mpr high)] at mapped
  exact guarded w pte high bound mapped

/-! ## The allocator -/

section heap

variable {heap : Heap} {machine : Machine}

theorem kalloc_spec : Ensures kalloc heap fun result heap' =>
    ∀ page, heap'.count page + result.elim 0 (here · page) = heap.count page := by
  apply Ensures.intro
  intro result heap' ended page
  simp only [kalloc] at ended
  split at ended
  case h_1 =>
    cases ended
    simp [Heap.count]
  case h_2 =>
    split at ended
    case h_1 empty =>
      cases ended
      simp [Heap.count]
    case h_2 taken rest shape =>
      cases ended
      simp [Heap.count, shape, List.count_cons, here]

theorem kfree_spec {freed : Nat} : Ensures (kfree machine freed) heap fun _ heap' =>
    ∀ page, heap'.count page = heap.count page + here freed page := by
  apply Ensures.intro
  intro result heap' ended page
  simp only [kfree] at ended
  split at ended
  case isFalse => cases ended
  case isTrue =>
    cases ended
    simp [Heap.count, List.count_cons, here]

end heap

/-! ## Mapping -/

section mapping

variable {heap : Heap} {vm : Vm} {v page : Nat} {user : Bool}

theorem tableCount_fresh (owner owned : Nat) (d : Fin npdentries) :
    tableCount owner d (some ⟨owned, fun _ => none⟩) = here owned owner := by
  have empty : PageTable.count ⟨owned, fun _ => none⟩ owner = 0 :=
    total_eq_zero fun _ => rfl
  simp [tableCount, empty]

/-- What `walkpgdir` finds or makes is a table without new entries. -/
structure Walked (vm : Vm) (v : Nat) (heap : Heap) (found : Bool × Vm) (heap' : Heap) : Prop where
  counts : ∀ page, heap'.count page + found.2.count page = heap.count page + vm.count page
  entry : ∀ w, found.2.entry w = vm.entry w
  grows : ∀ d, vm.present d → found.2.present d
  fresh : ∀ d, found.2.present d → vm.present d ∨ d = pdx v
  present : found.1 = true → found.2.present (pdx v)

theorem walked_fresh {table : Nat} {heap' : Heap} (absent : vm.tables (pdx v) = none)
    (counts : ∀ page, heap'.count page + here table page = heap.count page) :
    Walked vm v heap (true, vm.setTable (pdx v) (some ⟨table, fun _ => none⟩)) heap' := by
  have self : (vm.setTable (pdx v) (some ⟨table, fun _ => none⟩)).tables (pdx v) =
      some ⟨table, fun _ => none⟩ := update_self _ _ _
  have other : ∀ d, d ≠ pdx v →
      (vm.setTable (pdx v) (some ⟨table, fun _ => none⟩)).tables d = vm.tables d :=
    fun d different => update_of_ne different _ _
  constructor
  case counts =>
    intro page
    have change := count_setTable vm (pdx v) (some ⟨table, fun _ => none⟩) page
    have taken := counts page
    rw [absent, tableCount_fresh] at change
    simp only [tableCount, elim_none] at change
    simp only
    omega
  case entry =>
    intro w
    by_cases same : pdx w = pdx v
    · have absent' : vm.tables (pdx w) = none := by rw [same, absent]
      rw [entry_of_absent absent']
      exact entry_of_table (by rw [same]; exact self)
    · rw [entry]
      exact congrArg (bind · _) (other (pdx w) same)
  case grows =>
    intro d found
    have different : d ≠ pdx v := by
      intro same
      rw [same, present, absent] at found
      cases found
    rw [present, other d different]
    exact found
  case fresh =>
    intro d found
    by_cases same : d = pdx v
    · exact .inr same
    · rw [present, other d same] at found
      exact .inl found
  case present =>
    intro _
    rw [present, self]
    rfl

theorem walkpgdir_spec : Ensures (walkpgdir vm v) heap (Walked vm v heap) := by
  simp only [walkpgdir]
  cases found : vm.tables (pdx v) with
  | some table =>
    apply Ensures.pure
    have present : vm.present (pdx v) := by
      rw [present, found]
      rfl
    exact ⟨fun _ => rfl, fun _ => rfl, fun _ found => found, fun _ found => .inl found,
      fun _ => present⟩
  | none =>
    apply Ensures.bind kalloc_spec
    intro result heap' counts
    cases result with
    | none =>
      apply Ensures.pure
      exact ⟨fun page => congrArg (· + _) (counts page), fun _ => rfl, fun _ found => found,
        fun _ found => .inl found, nofun⟩
    | some table =>
      apply Ensures.pure
      exact walked_fresh found counts

/-- One page is mapped, or only its table was made. -/
structure Placed (vm : Vm) (v page : Nat) (user : Bool) (heap : Heap) (mapped : Bool × Vm)
    (heap' : Heap) : Prop where
  counts : ∀ f, heap'.count f + mapped.2.count f =
    heap.count f + vm.count f + if mapped.1 = true ∧ v < kernPage then here page f else 0
  touches : Touches (· = v) vm mapped.2
  entry : mapped.1 = true → mapped.2.entry v = some ⟨page, user⟩
  failed : mapped.1 = false → mapped.2.entry v = vm.entry v

namespace Placed

variable {before heap' : Heap} {mapped : Bool × Vm}
  (placed : Placed vm v page user heap mapped heap')
  (taken : ∀ f, heap.count f + here page f = before.count f)
include placed taken

/-- A page taken for it went from the free list to the entry. -/
theorem counts_taken (success : mapped.1 = true) (low : v < kernPage) (f : Nat) :
    heap'.count f + mapped.2.count f = before.count f + vm.count f := by
  have change := placed.counts f
  rw [if_pos ⟨success, low⟩] at change
  rw [← taken f]
  omega

theorem counts_failed (failed : ¬ mapped.1 = true) (f : Nat) :
    heap'.count f + mapped.2.count f + here page f = before.count f + vm.count f := by
  have change := placed.counts f
  rw [if_neg fun both => failed both.1] at change
  rw [← taken f]
  omega

end Placed

theorem mapPage_spec (bound : v < topPage) :
    Ensures (mapPage vm v page user) heap (Placed vm v page user heap) := by
  apply Ensures.bind walkpgdir_spec
  intro found heap' walked
  have walkTouches : Touches (· = v) vm found.2 := by
    constructor
    case entry => exact fun w _ _ => walked.entry w
    case grows => exact walked.grows
    case fresh =>
      intro d present
      cases walked.fresh d present with
      | inl before => exact .inl before
      | inr same => exact .inr ⟨v, rfl, same⟩
  split
  case isFalse missing =>
    apply Ensures.pure
    refine ⟨fun f => ?_, walkTouches, nofun, fun _ => walked.entry v⟩
    exact walked.counts f
  case isTrue success =>
    split
    case isTrue => exact .failure
    case isFalse free =>
      have unmapped : found.2.entry v = none := by simpa using free
      have present := walked.present success
      apply Ensures.pure
      refine ⟨fun f => ?_, walkTouches.trans (Touches.setEntry bound),
        fun _ => entry_setEntry_self present, nofun⟩
      have before := walked.counts f
      simp only [true_and]
      by_cases low : v < kernPage
      · have change := count_setEntry_user (some ⟨page, user⟩) low present f
        rw [unmapped] at change
        rw [if_pos low]
        simp only [Pte.count, elim_none, elim_some] at change
        omega
      · have change : (found.2.setEntry v (some ⟨page, user⟩)).count f = found.2.count f :=
          count_setEntry_kernel (Nat.not_lt.mp low) bound f
        rw [if_neg low]
        omega

theorem mappages_one : mappages 1 vm v page user = mapPage vm v page user := by
  funext heap
  show (mapPage vm v page user heap >>= fun mapped =>
    (if mapped.1.1 then pure (true, mapped.1.2) else pure (false, mapped.1.2) : M (Bool × Vm))
      mapped.2) = _
  cases mapPage vm v page user heap with
  | none => rfl
  | some mapped =>
    obtain ⟨⟨success, vm'⟩, heap'⟩ := mapped
    cases success <;> rfl

/-- Pages of the kernel half are mapped. -/
structure MappedKernel (count : Nat) (vm : Vm) (v : Nat) (user : Bool) (heap : Heap)
    (mapped : Bool × Vm) (heap' : Heap) : Prop where
  counts : ∀ f, heap'.count f + mapped.2.count f = heap.count f + vm.count f
  touches : Touches (fun w => v ≤ w ∧ w < v + count) vm mapped.2
  flags : ∀ w < topPage, ∀ pte, mapped.2.entry w = some pte →
    vm.entry w = some pte ∨ pte.user = user

theorem mappages_kernel {count : Nat} (high : kernPage ≤ v) (bound : v + count ≤ topPage) :
    Ensures (mappages count vm v page user) heap (MappedKernel count vm v user heap) := by
  induction count generalizing vm v page heap with
  | zero =>
    apply Ensures.pure
    exact ⟨fun _ => rfl, .refl, fun _ _ _ mapped => .inl mapped⟩
  | succ count ih =>
    have inside : v < topPage := by omega
    apply Ensures.bind (mapPage_spec inside)
    intro mapped heap' placed
    have counts : ∀ f, heap'.count f + mapped.2.count f = heap.count f + vm.count f := by
      intro f
      have change := placed.counts f
      rw [if_neg (fun both => Nat.not_lt.mpr high both.2)] at change
      exact change
    have touches : Touches (fun w => v ≤ w ∧ w < v + (count + 1)) vm mapped.2 :=
      placed.touches.mono fun w same => by omega
    split
    case isFalse failed =>
      have failed : mapped.1 = false := by simpa using failed
      apply Ensures.pure
      refine ⟨counts, touches, fun w bound' pte found => ?_⟩
      by_cases same : w = v
      · subst same
        rw [placed.failed failed] at found
        exact .inl found
      · rw [placed.touches.entry w bound' same] at found
        exact .inl found
    case isTrue success =>
      apply Ensures.mono (ih (by omega) (by omega))
      intro rest heap'' ended
      constructor
      case counts => exact fun f => (ended.counts f).trans (counts f)
      case touches => exact touches.trans (ended.touches.mono fun w inside => by omega)
      case flags =>
        intro w bound' pte found
        cases ended.flags w bound' pte found with
        | inr flag => exact .inr flag
        | inl before =>
          by_cases same : w = v
          · subst same
            rw [placed.entry success] at before
            cases before
            exact .inr rfl
          · rw [placed.touches.entry w bound' same] at before
            exact .inl before

end mapping

end Laboratorio.Xv6.Mem
