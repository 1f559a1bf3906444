import Laboratorio.Xv6.Mem.Exec

/-! # With enough free pages nothing fails

`Supply pages heap` — no allocation is made to fail, and at least `pages` pages are free.  A
function that has a page for every page it asks for and for every table that may be missing
returns.
-/

namespace Laboratorio.Xv6.Mem

open Laboratorio.Lib List

def Supply (pages : Nat) (heap : Heap) : Prop := heap.fails = [] ∧ pages ≤ heap.free.length

/-- The tables of a part of the directory that are not there. -/
def Vm.missing (vm : Vm) (part : Fin npdentries → Bool) : Nat :=
  total fun d => if part d = true ∧ vm.tables d = none then 1 else 0

section

variable {machine : Machine} {heap : Heap} {vm : Vm}
  {part : Fin npdentries → Bool} {v page : Nat} {user : Bool} (pages : Nat)

/-! ## The allocator -/

theorem Supply.mono {pages fewer : Nat} (supply : Supply pages heap) (le : fewer ≤ pages) :
    Supply fewer heap :=
  ⟨supply.1, Nat.le_trans le supply.2⟩

theorem kalloc_returns (supply : Supply (pages + 1) heap) :
    Returns kalloc heap fun result heap' => result.isSome = true ∧ Supply pages heap' := by
  obtain ⟨free, fails⟩ := heap
  obtain ⟨noFailure, enough⟩ := supply
  subst noFailure
  cases free with
  | nil => cases enough
  | cons taken free => exact ⟨some taken, ⟨free, []⟩, rfl, rfl, rfl, Nat.le_of_succ_le_succ enough⟩

theorem kfree_returns {pages : Nat} (managed : machine.managed page = true)
    (supply : Supply pages heap) :
    Returns (kfree machine page) heap fun _ heap' => Supply (pages + 1) heap' :=
  ⟨(), { heap with free := page :: heap.free }, if_pos managed, supply.1,
    Nat.succ_le_succ supply.2⟩

/-! ## Mapping -/

theorem missing_setTable (inPart : part (pdx v) = true) (absent : vm.tables (pdx v) = none)
    (table : PageTable) :
    (vm.setTable (pdx v) (some table)).missing part + 1 = vm.missing part := by
  have change := total_update
    (fun d (table : Option PageTable) => if part d = true ∧ table = none then 1 else 0)
    vm.tables (pdx v) (some table)
  rw [if_pos ⟨inPart, absent⟩, if_neg (fun both => nomatch both.2)] at change
  exact change

theorem missing_setEntry (vm : Vm) (v : Nat) (pte : Option Pte) : (vm.setEntry v pte).missing part = vm.missing part := by
  have same : ∀ d, (vm.setEntry v pte).tables d = none ↔ vm.tables d = none := by
    intro d
    have present : (vm.setEntry v pte).present d ↔ vm.present d := present_setEntry d
    simp only [Vm.present] at present
    rw [← Option.not_isSome_iff_eq_none, ← Option.not_isSome_iff_eq_none, present]
  simp [Vm.missing, same]

theorem walkpgdir_returns {pages : Nat} (inPart : part (pdx v) = true)
    (supply : Supply (pages + vm.missing part) heap) :
    Returns (walkpgdir vm v) heap fun found heap' =>
      found.1 = true ∧ Supply (pages + found.2.missing part) heap' := by
  rw [walkpgdir]
  cases found : vm.tables (pdx v) with
  | some table =>
    apply Returns.pure
    exact ⟨rfl, supply⟩
  | none =>
    have count := missing_setTable inPart found
    apply Returns.bind (kalloc_returns (pages + vm.missing part - 1) (supply.mono (by
      have one := count ⟨0, fun _ => none⟩
      omega)))
    intro result heap' ended
    cases result with
    | none => cases ended.1
    | some taken =>
      apply Returns.pure
      refine ⟨rfl, ended.2.mono ?_⟩
      have one := count ⟨taken, fun _ => none⟩
      simp only
      omega

theorem mapPage_returns (bound : v < topPage) (inPart : part (pdx v) = true)
    (unmapped : vm.entry v = none) (supply : Supply (pages + vm.missing part) heap) :
    Returns (mapPage vm v page user) heap fun mapped heap' =>
      mapped.1 = true ∧ Supply (pages + mapped.2.missing part) heap' ∧
        Placed vm v page user heap mapped heap' := by
  have returns : Returns (mapPage vm v page user) heap fun mapped heap' =>
      mapped.1 = true ∧ Supply (pages + mapped.2.missing part) heap' := by
    apply Returns.bind ((walkpgdir_returns inPart supply).and walkpgdir_spec)
    intro found heap' ended
    obtain ⟨⟨success, supplied⟩, walked⟩ := ended
    have free : ¬ (found.2.entry v).isSome = true := by
      rw [walked.entry, unmapped]
      exact Bool.false_ne_true
    rw [if_pos success, if_neg free]
    apply Returns.pure
    refine ⟨rfl, ?_⟩
    rw [missing_setEntry]
    exact supplied
  apply Returns.mono (returns.and (mapPage_spec bound))
  exact fun _ _ ended => ⟨ended.1.1, ended.1.2, ended.2⟩

theorem mappages_returns {pages count : Nat} (bound : v + count ≤ topPage)
    (inPart : ∀ w, v ≤ w → w < v + count → part (pdx w) = true)
    (unmapped : ∀ w, v ≤ w → w < v + count → vm.entry w = none)
    (supply : Supply (pages + vm.missing part) heap) :
    Returns (mappages count vm v page user) heap fun mapped heap' =>
      mapped.1 = true ∧ Supply (pages + mapped.2.missing part) heap' := by
  induction count generalizing vm v page heap with
  | zero =>
    apply Returns.pure
    exact ⟨rfl, supply⟩
  | succ count ih =>
    apply Returns.bind (mapPage_returns pages (by omega) (inPart v (Nat.le_refl v) (by omega))
      (unmapped v (Nat.le_refl v) (by omega)) supply)
    intro mapped heap' ended
    obtain ⟨success, supplied, placed⟩ := ended
    rw [if_pos success]
    apply ih (by omega) (fun w low high => inPart w (by omega) (by omega)) _ supplied
    intro w low high
    rw [placed.touches.entry w (by omega) (by omega)]
    exact unmapped w (by omega) (by omega)

/-! ## Growing -/

def userPart (d : Fin npdentries) : Bool := decide (d.val < userTables)

theorem userPart_pdx (low : v < kernPage) : userPart (pdx v) = true :=
  decide_eq_true (pdx_user low)

theorem allocPages_returns (oldsz newsz : Nat) {pages count a : Nat} (bound : a + count ≤ kernPage)
    (unmapped : ∀ w, a ≤ w → w < a + count → vm.entry w = none)
    (supply : Supply (pages + count + vm.missing userPart) heap) :
    Returns (allocPages machine oldsz newsz count vm a) heap fun grown heap' =>
      grown.1 = newsz ∧ Supply (pages + grown.2.missing userPart) heap' := by
  induction count generalizing vm a heap with
  | zero =>
    apply Returns.pure
    exact ⟨rfl, supply⟩
  | succ count ih =>
    have kernTop : kernPage ≤ topPage := by decide
    apply Returns.bind (kalloc_returns (pages + count + vm.missing userPart)
      (supply.mono (by omega)))
    intro result heap' taken
    cases result with
    | none => cases taken.1
    | some mem =>
      simp only [mappages_one]
      apply Returns.bind (mapPage_returns (pages + count) (by omega) (userPart_pdx (by omega))
        (unmapped a (Nat.le_refl a) (by omega)) taken.2)
      intro mapped heap'' ended
      obtain ⟨success, supplied, placed⟩ := ended
      rw [if_pos success]
      apply ih (by omega) (fun w low high => ?_) supplied
      rw [placed.touches.entry w (by omega) (by omega)]
      exact unmapped w (by omega) (by omega)

theorem allocuvm_returns {oldsz newsz : Nat} (more : oldsz ≤ newsz) (bound : newsz < kernbase)
    (unmapped : ∀ w, pagesUp oldsz ≤ w → w < pagesUp newsz → vm.entry w = none)
    (supply : Supply (pages + (pagesUp newsz - pagesUp oldsz) + vm.missing userPart) heap) :
    Returns (allocuvm machine vm oldsz newsz) heap fun grown heap' =>
      grown.1 = newsz ∧ Supply (pages + grown.2.missing userPart) heap' ∧
        Grown oldsz newsz vm heap grown heap' := by
  have le : pagesUp oldsz ≤ pagesUp newsz := pagesUp_mono more
  have inUser : pagesUp newsz ≤ kernPage := pagesUp_le_kernPage (Nat.le_of_lt bound)
  have all : pagesUp oldsz + (pagesUp newsz - pagesUp oldsz) = pagesUp newsz := by omega
  have returns : Returns (allocuvm machine vm oldsz newsz) heap fun grown heap' =>
      grown.1 = newsz ∧ Supply (pages + grown.2.missing userPart) heap' := by
    rw [allocuvm, if_neg (Nat.not_le.mpr bound), if_neg (Nat.not_lt.mpr more)]
    exact allocPages_returns oldsz newsz (by rw [all]; exact inUser) (by rw [all]; exact unmapped)
      supply
  apply Returns.mono (returns.and allocuvm_spec)
  exact fun _ _ ended => ⟨ended.1.1, ended.1.2, ended.2⟩

/-! ## A new address space -/

def kernelPart (d : Fin npdentries) : Bool := decide (userTables ≤ d.val)

/-- Ranges in ascending order, from a page on. -/
def Ascending : Nat → List (Nat × Nat × Nat) → Prop
  | _, [] => True
  | start, (virt, count, _) :: rest => start ≤ virt ∧ Ascending (virt + count) rest

theorem mapKernel_returns (vm : Vm) {pages : Nat} {ranges : List (Nat × Nat × Nat)} {start : Nat}
    (ascending : Ascending start ranges)
    (inKernel : ∀ range ∈ ranges, kernPage ≤ range.1 ∧ range.1 + range.2.1 ≤ topPage)
    (unmapped : ∀ w, start ≤ w → w < topPage → vm.entry w = none)
    (supply : Supply (pages + vm.missing kernelPart) heap) :
    Returns (mapKernel machine ranges vm) heap fun result heap' =>
      result.isSome = true ∧ Supply pages heap' := by
  induction ranges generalizing vm heap start with
  | nil =>
    apply Returns.pure
    exact ⟨rfl, supply.mono (Nat.le_add_right _ _)⟩
  | cons range rest ih =>
    obtain ⟨virt, count, phys⟩ := range
    obtain ⟨after, ascending⟩ := ascending
    obtain ⟨high, bound⟩ := inKernel (virt, count, phys) mem_cons_self
    have inPart : ∀ w, virt ≤ w → w < virt + count → kernelPart (pdx w) = true := by
      intro w low below
      exact decide_eq_true (Nat.not_lt.mp (pdx_kernel (Nat.le_trans high low)
        (Nat.lt_of_lt_of_le below bound)))
    have free : ∀ w, virt ≤ w → w < virt + count → vm.entry w = none := by
      intro w low below
      exact unmapped w (Nat.le_trans after low) (Nat.lt_of_lt_of_le below bound)
    apply Returns.bind ((mappages_returns bound inPart free supply).and (mappages_kernel high bound))
    intro mapped heap' ended
    obtain ⟨⟨success, supplied⟩, mappedKernel⟩ := ended
    rw [if_pos success]
    apply ih mapped.2 ascending
      (fun range member => inKernel range (mem_cons_of_mem _ member)) _ supplied
    intro w low below
    rw [mappedKernel.touches.entry w below (fun inside => Nat.not_lt.mpr low inside.2)]
    exact unmapped w (by omega) below

theorem kmap_ascending (machine : Machine) : Ascending 0 machine.kmap := by
  have above := machine.above
  have ordered := machine.ordered
  have low := machine.low
  simp only [extPage, nptentries, pgsize] at above low
  simp only [Machine.kmap, Ascending, kernPage, kernbase, pgsize, extPage, stopPage,
    devPage, and_true]
  omega

theorem missing_emptyVm (pgdir : Nat) : (emptyVm pgdir).missing part = total fun d => (part d).toNat := by
  simp only [Vm.missing]
  congr 1
  funext d
  cases part d <;> rfl

theorem kernelPart_total : (total fun d => (kernelPart d).toNat) = 512 := by
  decide +kernel

theorem userPart_total : (total fun d => (userPart d).toNat) = 512 := by
  decide +kernel

/-- No part has more tables missing than it has tables. -/
theorem missing_le (vm : Vm) (part : Fin npdentries → Bool) :
    vm.missing part ≤ total fun d => (part d).toNat := by
  rw [Vm.missing, total, total]
  apply Finset.sum_le_sum
  intro d _
  cases part d with
  | false => exact Nat.le_of_eq (if_neg fun both => by cases both.1)
  | true =>
    split
    · exact Nat.le_refl 1
    · exact Nat.zero_le 1

theorem setupkvm_returns (supply : Supply (pages + 513) heap) :
    Returns (setupkvm machine) heap fun result heap' =>
      ∃ vm, result = some vm ∧ Supply pages heap' ∧ Fresh machine vm := by
  have returns : Returns (setupkvm machine) heap fun result heap' =>
      result.isSome = true ∧ Supply pages heap' := by
    apply Returns.bind (kalloc_returns (pages + 512) supply)
    intro result heap' taken
    cases result with
    | none => cases taken.1
    | some pgdir =>
      apply mapKernel_returns (emptyVm pgdir) (kmap_ascending machine) (kmap_inKernel machine)
        (fun _ _ _ => rfl)
      rw [missing_emptyVm, kernelPart_total]
      exact taken.2
  apply Returns.mono (returns.and setupkvm_spec)
  intro result heap' ended
  obtain ⟨⟨made, supplied⟩, -, fresh⟩ := ended
  obtain ⟨vm, same⟩ := Option.isSome_iff_exists.mp made
  subst same
  exact ⟨vm, rfl, supplied, fresh vm rfl⟩

end

end Laboratorio.Xv6.Mem
