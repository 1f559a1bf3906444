import Laboratorio.Xv6.Vm

/-! # The walk of `deallocuvm`

Where a page table is missing, `deallocuvm` goes on at the next one.  `visit` takes the pages one
by one; in every memory the walk ends and does what `visit` does, panics included
(`deallocPages_eq_visit`).  Where the page tables are different pages, and no page to be freed is
the directory or a table (`Leaves`), exactly what was mapped is freed, and no other entry changes
(`visit_cleared`).
-/

namespace Laboratorio.Xv6.Vm

open Laboratorio.Xv6.Mem Function Option List

/-- The page is filled with junk; its first word is the link to the pages that were free. -/
def kfree (machine : Machine) (ram : Ram) (page : Nat) : Option Ram :=
  if machine.managed page then
    some
      { word := fun slot =>
          if slot = (page, 0) then ram.free.head?.elim 0 fun next => kernbase + next * pgsize
          else if slot.1 = page then 0x01010101
          else ram.word slot
        free := page :: ram.free }
  else none

/-- What the loop of `deallocuvm` does with an entry that is present. -/
def release (machine : Machine) (ram : Ram) (pte : Nat × Fin 1024) : Option Ram :=
  let page := ram.word pte / pgsize
  if page = 0 then none else (kfree machine ram page).map fun ram => ram.store pte 0

/-- The loop of `deallocuvm`.  Without a result the loop has not ended; `some none` is a panic. -/
def deallocPages (machine : Machine) (pgdir oldsz : Nat) : Nat → Ram → Nat → Option (Option Ram)
  | 0, ram, a => if a < oldsz then none else some (some ram)
  | fuel + 1, ram, a =>
    if a < oldsz then
      match (walkpgdir ram pgdir a false).1 with
      | none =>
        -- `PGADDR(PDX(a) + 1, 0, 0) - PGSIZE`, and `PGSIZE` more for the next round
        deallocPages machine pgdir oldsz fuel ram (((pdx (a / pgsize)).val + 1) * 2 ^ 22 % 2 ^ 32)
      | some pte =>
        if present (ram.word pte) then
          match release machine ram pte with
          | none => some none
          | some ram => deallocPages machine pgdir oldsz fuel ram ((a + pgsize) % 2 ^ 32)
        else deallocPages machine pgdir oldsz fuel ram ((a + pgsize) % 2 ^ 32)
    else some (some ram)

def deallocuvm (machine : Machine) (ram : Ram) (pgdir oldsz newsz : Nat) :
    Option (Option (Nat × Ram)) :=
  if newsz ≥ oldsz then some (some (oldsz, ram))
  else (deallocPages machine pgdir oldsz topPage ram (pagesUp newsz * pgsize % 2 ^ 32)).map
    (Option.map (newsz, ·))

/-! ## Page by page -/

/-- The pages that begin in `[PGROUNDUP(newsz), oldsz)`. -/
def pagesBetween (newsz oldsz : Nat) : List Nat :=
  List.range' (pagesUp newsz) (pagesUp oldsz - pagesUp newsz)

def visit (machine : Machine) (pgdir : Nat) : List Nat → Ram → Option Ram
  | [], ram => some ram
  | v :: rest, ram =>
    match ram.pte pgdir (v * pgsize) with
    | none => visit machine pgdir rest ram
    | some pte =>
      if present (ram.word pte) then (release machine ram pte).bind (visit machine pgdir rest)
      else visit machine pgdir rest ram

/-- The page of an entry that is present. -/
def pageOf (word : Nat) : Option Nat := if present word then some (word / pgsize) else none

namespace Ram

variable (ram : Ram) (pgdir : Nat)

/-- The entry of a page number. -/
def entry (v : Nat) : Option Nat := (ram.pte pgdir (v * pgsize)).map ram.word

/-- The pages that are present at some page numbers. -/
def mapped (vs : List Nat) : List Nat := vs.filterMap fun v => (ram.entry pgdir v).bind pageOf

end Ram

/-- The page tables are different pages, and what is mapped is neither the directory nor one of
them. -/
structure Leaves (ram : Ram) (pgdir : Nat) (vs : List Nat) : Prop where
  distinct : ∀ d e pgtab, ram.table pgdir d = some pgtab → ram.table pgdir e = some pgtab → d = e
  leaf : ∀ page ∈ ram.mapped pgdir vs, page ≠ pgdir ∧ ∀ d, ram.table pgdir d ≠ some page

def clear (word : Nat) : Nat := if present word then 0 else word

/-- What was mapped at some page numbers is free and nothing else has changed. -/
structure Cleared (pgdir : Nat) (vs : List Nat) (ram ram' : Ram) : Prop where
  free : ram'.free = (ram.mapped pgdir vs).reverse ++ ram.free
  directory : ∀ d, ram'.word (pgdir, d) = ram.word (pgdir, d)
  entry : ∀ w < topPage, ram'.entry pgdir w =
    if w ∈ vs then (ram.entry pgdir w).map clear else ram.entry pgdir w

section

variable {machine : Machine} {ram ram' : Ram} {pgdir v newsz oldsz : Nat} {vs rest : List Nat}
  {pte : Nat × Fin 1024}

theorem walkpgdir_find (a : Nat) : (walkpgdir ram pgdir a false).1 = ram.pte pgdir a := by
  rw [walkpgdir, Ram.pte]
  cases ram.table pgdir (pdx (a / pgsize)) <;> rfl

theorem page_mul (v : Nat) : v * pgsize / pgsize = v := Nat.mul_div_cancel _ (by decide)

theorem pte_eq (v : Nat) :
    ram.pte pgdir (v * pgsize) = (ram.table pgdir (pdx v)).map (·, ptx v) := by
  rw [Ram.pte, page_mul]

/-- The pages before the next table have the same one. -/
theorem pte_before_next {w : Nat} (absent : ram.table pgdir (pdx v) = none) (low : v ≤ w)
    (high : w < (v / 1024 + 1) * 1024) : ram.pte pgdir (w * pgsize) = none := by
  have sameTable : pdx w = pdx v := by
    apply Fin.ext
    rw [pdx_val, pdx_val]
    omega
  rw [pte_eq, sameTable, absent]
  rfl

theorem visit_skip {stop : Nat} (count : Nat)
    (absent : ∀ w, v ≤ w → w < v + count → ram.pte pgdir (w * pgsize) = none) :
    visit machine pgdir (List.range' v (stop - v)) ram =
      visit machine pgdir (List.range' (v + count) (stop - (v + count))) ram := by
  induction count generalizing v with
  | zero => rfl
  | succ count ih =>
    rw [Nat.add_comm count, ← Nat.add_assoc] at absent ⊢
    by_cases more : v < stop
    · rw [show stop - v = stop - (v + 1) + 1 by omega, range'_succ, visit,
        absent v (Nat.le_refl v) (by omega)]
      exact ih fun w low high => absent w (by omega) high
    · rw [show stop - v = 0 by omega, show stop - (v + 1 + count) = 0 by omega]
      rfl

/-- The walk that skips ends, and is the walk over every page, panics included. -/
theorem deallocPages_eq_visit {fuel : Nat} (low : oldsz ≤ kernbase)
    (enough : pagesUp oldsz ≤ v + fuel) :
    deallocPages machine pgdir oldsz fuel ram (v * pgsize) =
      some (visit machine pgdir (List.range' v (pagesUp oldsz - v)) ram) := by
  have inUser := pagesUp_le_kernPage low
  rw [kernPage_eq] at inUser
  have before : ∀ {w}, w * pgsize < oldsz ↔ w < pagesUp oldsz := by
    intro w
    rw [pagesUp, pgsize_eq]
    omega
  -- with enough fuel the loop reaches the end: every round advances `a`
  induction fuel generalizing ram v with
  | zero =>
    rw [deallocPages, if_neg (before.not.mpr (by omega)), show pagesUp oldsz - v = 0 by omega]
    rfl
  | succ fuel ih =>
    rw [deallocPages]
    split
    case isFalse done =>
      rw [show pagesUp oldsz - v = 0 by have stop := before.not.mp done; omega]
      rfl
    case isTrue more =>
      have inside := before.mp more
      have next : (v * pgsize + pgsize) % 2 ^ 32 = (v + 1) * pgsize := by
        rw [pgsize_eq]
        omega
      have range : pagesUp oldsz - v = pagesUp oldsz - (v + 1) + 1 := by omega
      rw [walkpgdir_find, next]
      cases found : ram.pte pgdir (v * pgsize) with
      | none =>
        rw [pte_eq] at found
        obtain ⟨count, advance⟩ : ∃ count, (v / 1024 + 1) * 1024 = v + (1 + count) :=
          ⟨(v / 1024 + 1) * 1024 - (v + 1), by omega⟩
        have skip : ((pdx (v * pgsize / pgsize)).val + 1) * 2 ^ 22 % 2 ^ 32 =
            (v + (1 + count)) * pgsize := by
          rw [page_mul, pdx_val, pgsize_eq]
          omega
        simp only [skip]
        rw [ih (by omega)]
        refine congrArg some (visit_skip _ fun w from_ below => ?_).symm
        exact pte_before_next (map_eq_none_iff.mp found) from_ (advance ▸ below)
      | some pte =>
        simp only [range, range'_succ, visit, found]
        split
        case isFalse => rw [ih (by omega)]
        case isTrue =>
          cases release machine ram pte with
          | none => rfl
          | some ram' => exact ih (by omega)

theorem deallocuvm_eq_visit (shrinks : newsz < oldsz) (low : oldsz ≤ kernbase) :
    deallocuvm machine ram pgdir oldsz newsz =
      some ((visit machine pgdir (pagesBetween newsz oldsz) ram).map (newsz, ·)) := by
  have inUser := pagesUp_le_kernPage low
  have inUser' := pagesUp_le_kernPage (Nat.le_of_lt (Nat.lt_of_lt_of_le shrinks low))
  rw [kernPage_eq] at inUser inUser'
  have first : pagesUp newsz * pgsize % 2 ^ 32 = pagesUp newsz * pgsize := by
    rw [pgsize_eq]
    omega
  rw [deallocuvm, if_neg (Nat.not_le.mpr shrinks), first,
    deallocPages_eq_visit low (by rw [topPage_eq]; omega)]
  rfl

theorem mem_pagesBetween : v ∈ pagesBetween newsz oldsz ↔ newsz ≤ v * pgsize ∧ v * pgsize < oldsz := by
  simp only [pagesBetween, mem_range'_1, pagesUp, pgsize_eq]
  omega

/-! ## What is freed -/

theorem managed_ne_zero {page : Nat} (managed : machine.managed page = true) : ¬ page = 0 := by
  have above := machine.above
  have ordered := machine.ordered
  simp only [Machine.managed, Bool.and_eq_true, decide_eq_true_eq] at managed
  omega

theorem release_isSome (machine : Machine) (ram : Ram) (pte : Nat × Fin 1024) :
    (release machine ram pte).isSome = machine.managed (ram.word pte / pgsize) := by
  rw [release]
  split
  case isTrue zero =>
    rw [zero]
    exact (Bool.eq_false_iff.mpr fun managed => managed_ne_zero managed rfl).symm
  case isFalse =>
    rw [isSome_map, kfree]
    cases machine.managed (ram.word pte / pgsize) <;> rfl

theorem mapped_cons :
    ram.mapped pgdir (v :: rest) =
      ((ram.entry pgdir v).bind pageOf).toList ++ ram.mapped pgdir rest := by
  rw [Ram.mapped, filterMap_cons]
  cases (ram.entry pgdir v).bind pageOf <;> rfl

/-- The freed page and the entry are written to, and nothing else. -/
theorem release_words (released : release machine ram pte = some ram') :
    ram'.free = ram.word pte / pgsize :: ram.free ∧ ram'.word pte = 0 ∧
      ∀ slot, slot.1 ≠ ram.word pte / pgsize → slot ≠ pte → ram'.word slot = ram.word slot := by
  rw [release] at released
  split at released
  case isTrue => cases released
  case isFalse =>
    obtain ⟨freed, taken, rfl⟩ := map_eq_some_iff.mp released
    rw [kfree] at taken
    split at taken
    case isFalse => cases taken
    case isTrue =>
      cases taken
      refine ⟨rfl, update_self _ _ _, fun slot other different => ?_⟩
      have first : slot ≠ (ram.word pte / pgsize, 0) := fun same => other (congrArg Prod.fst same)
      simp [Ram.store, update_of_ne different, if_neg first, if_neg other]

theorem table_congr (directory : ∀ d, ram'.word (pgdir, d) = ram.word (pgdir, d)) (d : Fin 1024) :
    ram'.table pgdir d = ram.table pgdir d := by
  rw [Ram.table, Ram.table, directory]

theorem mapped_congr (same : ∀ w ∈ vs, ram'.entry pgdir w = ram.entry pgdir w) :
    ram'.mapped pgdir vs = ram.mapped pgdir vs :=
  filterMap_congr fun w member => by rw [same w member]

section release

variable (found : ram.pte pgdir (v * pgsize) = some pte) (set : present (ram.word pte) = true)
  (leaves : Leaves ram pgdir (v :: rest)) (released : release machine ram pte = some ram')
include found set

theorem mapped_present :
    ram.mapped pgdir (v :: rest) = ram.word pte / pgsize :: ram.mapped pgdir rest := by
  have own : (ram.entry pgdir v).bind pageOf = some (ram.word pte / pgsize) := by
    rw [Ram.entry, found]
    exact if_pos set
  rw [mapped_cons, own]
  rfl

include leaves

theorem leaf_of_present :
    ram.word pte / pgsize ≠ pgdir ∧ ∀ d, ram.table pgdir d ≠ some (ram.word pte / pgsize) :=
  leaves.leaf _ (mapped_present found set ▸ mem_cons_self)

include released

theorem release_directory (d : Fin 1024) : ram'.word (pgdir, d) = ram.word (pgdir, d) := by
  obtain ⟨notRoot, notTable⟩ := leaf_of_present found set leaves
  apply (release_words released).2.2 _ notRoot.symm
  -- an entry of the directory that is present names a table
  rintro rfl
  exact notTable d (if_pos set)

/-- One page is freed, and its entry alone is cleared. -/
theorem release_entry (inTop : v < topPage) {w : Nat} (bound : w < topPage) :
    ram'.entry pgdir w = if w = v then some 0 else ram.entry pgdir w := by
  obtain ⟨-, notTable⟩ := leaf_of_present found set leaves
  obtain ⟨-, zero, kept⟩ := release_words released
  rw [Ram.entry, Ram.pte, table_congr (release_directory found set leaves released), ← Ram.pte]
  split
  case isTrue same =>
    rw [same, found, map_some, zero]
  case isFalse different =>
    rw [Ram.entry]
    cases place : ram.pte pgdir (w * pgsize) with
    | none => rfl
    | some slot =>
      obtain ⟨pgtab, table, rfl⟩ := map_eq_some_iff.mp place
      refine congrArg some (kept _ (fun same => notTable _ (table.trans (congrArg some same))) ?_)
      rintro rfl
      obtain ⟨pgtab', table', same⟩ := map_eq_some_iff.mp found
      obtain ⟨rfl, slots⟩ := Prod.mk.inj same
      simp only [page_mul] at table table' slots
      exact different (eq_of_pdx_ptx bound inTop (leaves.distinct _ _ _ table table') slots.symm)

variable (bound : ∀ w ∈ v :: rest, w < topPage) (once : (v :: rest).Nodup)
include bound once

theorem mapped_release : ram'.mapped pgdir rest = ram.mapped pgdir rest := by
  obtain ⟨inTop, bound⟩ := forall_mem_cons.mp bound
  apply mapped_congr
  intro w member
  rw [release_entry found set leaves released inTop (bound w member), if_neg]
  rintro rfl
  exact (nodup_cons.mp once).1 member

theorem leaves_release : Leaves ram' pgdir rest := by
  have tables := table_congr (release_directory found set leaves released)
  refine ⟨fun d e pgtab => ?_, fun page member => ?_⟩
  · rw [tables, tables]
    exact leaves.distinct d e pgtab
  · simp only [tables]
    rw [mapped_release found set leaves released bound once] at member
    exact leaves.leaf page (mapped_present found set ▸ mem_cons_of_mem _ member)

end release

theorem visit_absent (machine : Machine) (rest : List Nat)
    (absent : (ram.entry pgdir v).bind pageOf = none) :
    visit machine pgdir (v :: rest) ram = visit machine pgdir rest ram ∧
      (ram.entry pgdir v).map clear = ram.entry pgdir v := by
  rw [Ram.entry] at absent ⊢
  rw [visit]
  cases found : ram.pte pgdir (v * pgsize) with
  | none => exact ⟨rfl, rfl⟩
  | some pte =>
    rw [found, map_some, bind_some, pageOf] at absent
    split at absent
    case isTrue => cases absent
    case isFalse unset => simp [clear, if_neg unset]

/-- Each mapped page is freed once, its entry is cleared, and nothing else changes. -/
theorem visit_cleared (bound : ∀ v ∈ vs, v < topPage) (once : vs.Nodup)
    (leaves : Leaves ram pgdir vs) :
    ((visit machine pgdir vs ram).isSome = true ↔
      ∀ page ∈ ram.mapped pgdir vs, machine.managed page = true) ∧
    ∀ ram', visit machine pgdir vs ram = some ram' → Cleared pgdir vs ram ram' := by
  induction vs generalizing ram with
  | nil =>
    refine ⟨⟨fun _ => nofun, fun _ => rfl⟩, ?_⟩
    rintro ram' ⟨⟩
    exact ⟨rfl, fun _ => rfl, fun w _ => rfl⟩
  | cons v rest ih =>
    obtain ⟨inTop, bound'⟩ := forall_mem_cons.mp bound
    obtain ⟨fresh, once'⟩ := nodup_cons.mp once
    cases own : (ram.entry pgdir v).bind pageOf with
    | none =>
      obtain ⟨skips, unchanged⟩ := visit_absent machine rest own
      have same : ram.mapped pgdir (v :: rest) = ram.mapped pgdir rest := by
        rw [mapped_cons, own]
        rfl
      obtain ⟨returns, cleared⟩ := ih bound' once' ⟨leaves.distinct, same ▸ leaves.leaf⟩
      rw [skips, same]
      refine ⟨returns, fun ram' ended => ?_⟩
      obtain ⟨free, directory, entry⟩ := cleared ram' ended
      refine ⟨same ▸ free, directory, fun w inTop' => ?_⟩
      rw [entry w inTop']
      by_cases here : w = v
      · rw [here, if_neg fresh, if_pos mem_cons_self, unchanged]
      · simp [here]
    | some page =>
      obtain ⟨word, entry, present⟩ := bind_eq_some_iff.mp own
      obtain ⟨pte, found, rfl⟩ := map_eq_some_iff.mp entry
      obtain ⟨set, rfl⟩ := Lib.of_guard present
      have visits : visit machine pgdir (v :: rest) ram =
          (release machine ram pte).bind (visit machine pgdir rest) := by
        rw [visit, found]
        exact if_pos set
      have both : ram.mapped pgdir (v :: rest) = ram.word pte / pgsize :: ram.mapped pgdir rest :=
        mapped_present found set
      rw [visits, both, forall_mem_cons, ← release_isSome machine ram pte]
      cases released : release machine ram pte with
      | none => exact ⟨⟨nofun, fun all => nomatch all.1⟩, nofun⟩
      | some next =>
        have later := mapped_release found set leaves released bound once
        obtain ⟨returns, cleared⟩ := ih bound' once'
          (leaves_release found set leaves released bound once)
        rw [later] at returns
        refine ⟨⟨fun ended => ⟨rfl, returns.mp ended⟩, fun all => returns.mpr all.2⟩,
          fun ram' ended => ?_⟩
        obtain ⟨free, directory, entries⟩ := cleared ram' ended
        refine ⟨?_, fun d => (directory d).trans (release_directory found set leaves released d),
          fun w inTop' => ?_⟩
        · rw [free, later, (release_words released).1, both, reverse_cons, append_assoc]
          rfl
        · rw [entries w inTop', release_entry found set leaves released inTop inTop']
          by_cases here : w = v
          · rw [here, if_neg fresh, if_pos rfl, if_pos mem_cons_self, entry, map_some, clear,
              if_pos set]
          · simp [here]

/-- The walk that skips ends and is the walk over every page.  Where what is mapped is neither the
directory nor a page table, it panics exactly at a page that `kfree` does not accept; otherwise it
frees what was mapped and changes nothing else. -/
theorem deallocuvm_skipping (machine : Machine) (ram : Ram) (pgdir : Nat) (shrinks : newsz < oldsz)
    (low : oldsz ≤ kernbase) :
    (∀ v, v ∈ pagesBetween newsz oldsz ↔ newsz ≤ v * pgsize ∧ v * pgsize < oldsz) ∧
    deallocuvm machine ram pgdir oldsz newsz =
      some ((visit machine pgdir (pagesBetween newsz oldsz) ram).map (newsz, ·)) ∧
    (Leaves ram pgdir (pagesBetween newsz oldsz) →
      ((visit machine pgdir (pagesBetween newsz oldsz) ram).isSome = true ↔
        ∀ page ∈ ram.mapped pgdir (pagesBetween newsz oldsz), machine.managed page = true) ∧
      ∀ ram', visit machine pgdir (pagesBetween newsz oldsz) ram = some ram' →
        Cleared pgdir (pagesBetween newsz oldsz) ram ram') := by
  refine ⟨fun v => mem_pagesBetween, deallocuvm_eq_visit shrinks low,
    fun leaves => visit_cleared (fun v member => ?_) (nodup_range' ..) leaves⟩
  have high := (mem_pagesBetween.mp member).2
  rw [kernbase] at low
  rw [topPage_eq]
  rw [pgsize_eq] at high
  omega

end

/-- A memory in which only some words are not 0. -/
def words (assigned : List ((Nat × Fin 1024) × Nat)) : Ram :=
  ⟨fun slot => assigned.foldr (fun word rest => if slot = word.1 then word.2 else rest) 0, []⟩

/-- A page at 4 MB + 4096; the table for the first 4 MB is missing. -/
def oneTable : Ram := words [((1024, 1), 1025 * pgsize + 7), ((1025, 1), 1026 * pgsize + 7)]

theorem oneTable_table (d : Fin 1024) :
    oneTable.table 1024 d = if d = 1 then some 1025 else none := by
  by_cases first : d = 1
  · rw [first]
    rfl
  · have word : oneTable.word (1024, d) = 0 := by
      simp [oneTable, words, first]
    rw [Ram.table, word, if_neg first]
    rfl

/-- The walk goes from the last pages before 4 MB to the next table. -/
theorem deallocuvm_oneTable : ∃ ram',
    deallocuvm smallKernel oneTable 1024 0x402000 0x3FE000 = some (some (0x3FE000, ram')) ∧
      ram'.free = [1026] ∧ ram'.entry 1024 0x401 = some 0 := by
  have leaves : Leaves oneTable 1024 (pagesBetween 0x3FE000 0x402000) := by
    refine ⟨fun d e pgtab found found' => ?_, fun page member => ?_⟩
    · rw [oneTable_table] at found found'
      exact (Lib.of_guard found).1.trans (Lib.of_guard found').1.symm
    · have only : page = 1026 := mem_singleton.mp member
      refine ⟨by rw [only]; decide, fun d found => ?_⟩
      rw [oneTable_table, only] at found
      cases (Lib.of_guard found).2
  obtain ⟨-, same, effect⟩ := deallocuvm_skipping smallKernel oneTable 1024
    (show 0x3FE000 < 0x402000 by decide) (by decide)
  obtain ⟨returns, cleared⟩ := effect leaves
  obtain ⟨ram', ended⟩ := isSome_iff_exists.mp (returns.mpr (by decide))
  obtain ⟨free, -, entry⟩ := cleared ram' ended
  exact ⟨ram', by rw [same, ended]; rfl, free, entry 0x401 (by decide)⟩

/-- Physical page 0 is mapped: `deallocuvm` panics. -/
def pageZero : Ram := words [((1024, 0), 1025 * pgsize + 7), ((1025, 0), 7)]

/-- One table for two directory entries. -/
def sharedTable : Ram :=
  words [((1024, 0), 1025 * pgsize + 7), ((1024, 1), 1025 * pgsize + 7),
    ((1025, 0), 1026 * pgsize + 7)]

/-- A table that maps itself. -/
def mappedTable : Ram := words [((1024, 0), 1025 * pgsize + 7), ((1025, 0), 1025 * pgsize + 7)]

/-- A panic, an entry outside the range that is cleared, and one that is made. -/
theorem deallocuvm_other_entries :
    deallocuvm smallKernel pageZero 1024 pgsize 0 = some none ∧
    sharedTable.entry 1024 0x400 = some (1026 * pgsize + 7) ∧
    (deallocuvm smallKernel sharedTable 1024 pgsize 0).map (Option.map fun ended =>
      ended.2.entry 1024 0x400) = some (some (some 0)) ∧
    mappedTable.translate 1024 0x1000 = none ∧
    (deallocuvm smallKernel mappedTable 1024 pgsize 0).map (Option.map fun ended =>
      ended.2.translate 1024 0x1000) = some (some (some (0x1010000, 0x101))) := by
  refine ⟨rfl, ?_, ?_, ?_, ?_⟩ <;> decide

end Laboratorio.Xv6.Vm
