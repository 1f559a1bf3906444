import Laboratorio.Xv6.Mem.Pages

/-! # Address spaces grow, shrink, are made, copied and freed

A function that fails gives back what it took.  A new address space owns exactly the pages
that have left the free list; a freed one returns all of its own.
-/

namespace Laboratorio.Xv6.Mem

open Laboratorio.Lib Nat Option List

section

variable {machine : Machine} {heap : Heap} {vm : Vm} {a oldsz newsz : Nat}

/-! ## Shrinking -/

/-- The pages of the user half from `a` to `stop` are given back. -/
structure Emptied (vm : Vm) (a stop : Nat) (heap : Heap) (vm' : Vm) (heap' : Heap) : Prop where
  counts : ∀ f, heap'.count f + vm'.count f = heap.count f + vm.count f
  touches : Touches (fun w => a ≤ w ∧ w < stop) vm vm'
  pgdir : vm'.pgdir = vm.pgdir

theorem entry_before_next {w : Nat} (absent : vm.tables (pdx a) = none)
    (low : a ≤ w) (high : w < (a / nptentries + 1) * nptentries) : vm.entry w = none := by
  have sameTable : pdx w = pdx a := by
    apply Fin.ext
    rw [pdx_val, pdx_val]
    rw [show nptentries = 1024 from rfl] at high
    omega
  exact entry_of_absent (by rw [sameTable, absent])

theorem deallocPages_spec {fuel stop : Nat} (bound : stop ≤ kernPage) :
    Ensures (deallocPages machine fuel vm a stop) heap fun vm' heap' =>
      Emptied vm a stop heap vm' heap' ∧ ∀ w, a ≤ w → w < stop → vm'.entry w = none := by
  induction fuel generalizing vm a heap with
  | zero =>
    rw [deallocPages]
    split
    case isTrue => exact .failure
    case isFalse done =>
      apply Ensures.pure
      refine ⟨⟨fun _ => rfl, .refl, rfl⟩, fun w low high => ?_⟩
      omega
  | succ fuel ih =>
    rw [deallocPages]
    split
    case isFalse done =>
      apply Ensures.pure
      refine ⟨⟨fun _ => rfl, .refl, rfl⟩, fun w low high => ?_⟩
      omega
    case isTrue more =>
      have inTop : stop ≤ topPage := le_trans bound (by decide)
      split
      case h_1 absent =>
        have advances : a + 1 ≤ (a / nptentries + 1) * nptentries := by
          rw [show nptentries = 1024 from rfl]
          omega
        apply Ensures.mono ih
        intro vm' heap' ended
        refine ⟨⟨ended.1.counts, ended.1.touches.mono fun w inside => ?_, ended.1.pgdir⟩, ?_⟩
        · omega
        · intro w low high
          by_cases before : w < (a / nptentries + 1) * nptentries
          · rw [ended.1.touches.entry w (by omega) (by omega)]
            exact entry_before_next absent low before
          · exact ended.2 w (by omega) high
      case h_2 table found =>
        have present : vm.present (pdx a) := by
          rw [Vm.present, found]
          rfl
        split
        case h_1 unmapped =>
          apply Ensures.mono ih
          intro vm' heap' ended
          refine ⟨⟨ended.1.counts, ended.1.touches.mono fun w inside => ?_, ended.1.pgdir⟩, ?_⟩
          · omega
          · intro w low high
            by_cases same : w = a
            · subst same
              rw [ended.1.touches.entry w (by omega) (by omega), entry_of_table found, unmapped]
            · exact ended.2 w (by omega) high
        case h_2 pte mapped =>
          split
          case isTrue => exact .failure
          case isFalse =>
            apply Ensures.bind kfree_spec
            intro _ heap' freed
            apply Ensures.mono ih
            intro vm' heap'' ended
            have low : a < kernPage := by omega
            have entry : vm.entry a = some pte := by rw [entry_of_table found, mapped]
            refine ⟨⟨fun f => ?_, ?_, ended.1.pgdir⟩, fun w low' high => ?_⟩
            · have change := count_setEntry_user none low present f
              have given := freed f
              have after := ended.1.counts f
              rw [entry] at change
              simp only [Pte.count, elim_none, elim_some] at change
              omega
            · have first : Touches (· = a) vm (vm.setEntry a none) := .setEntry (by omega)
              have first' : Touches (fun w => a ≤ w ∧ w < stop) vm (vm.setEntry a none) :=
                first.mono fun w same => by omega
              exact first'.trans (ended.1.touches.mono fun w inside => by omega)
            · by_cases same : w = a
              · subst same
                rw [ended.1.touches.entry w (by omega) (by omega)]
                exact entry_setEntry_self present
              · exact ended.2 w (by omega) high

/-- Only the user half has changed, and no page was lost or found. -/
structure Reshaped (vm : Vm) (heap : Heap) (vm' : Vm) (heap' : Heap) : Prop where
  counts : ∀ f, heap'.count f + vm'.count f = heap.count f + vm.count f
  touches : Touches (· < kernPage) vm vm'

theorem Reshaped.refl : Reshaped vm heap vm heap := ⟨fun _ => rfl, .refl⟩

theorem Reshaped.trans {vm' vm'' : Vm} {heap' heap'' : Heap} (first : Reshaped vm heap vm' heap')
    (second : Reshaped vm' heap' vm'' heap'') : Reshaped vm heap vm'' heap'' :=
  ⟨fun f => (second.counts f).trans (first.counts f), first.touches.trans second.touches⟩

theorem Emptied.reshaped {stop : Nat} {vm' : Vm} {heap' : Heap}
    (emptied : Emptied vm a stop heap vm' heap') (bound : stop ≤ kernPage) :
    Reshaped vm heap vm' heap' :=
  ⟨emptied.counts, emptied.touches.mono fun _ inside => lt_of_lt_of_le inside.2 bound⟩

theorem deallocuvm_spec (bound : oldsz ≤ kernbase) :
    Ensures (deallocuvm machine vm oldsz newsz) heap fun shrunk heap' =>
      Emptied vm (pagesUp newsz) (pagesUp oldsz) heap shrunk.2 heap' ∧
        shrunk.1 = min oldsz newsz ∧
        ∀ w, pagesUp newsz ≤ w → w < pagesUp oldsz → shrunk.2.entry w = none := by
  rw [deallocuvm]
  split
  case isTrue more =>
    have le : pagesUp oldsz ≤ pagesUp newsz := pagesUp_mono more
    apply Ensures.pure
    refine ⟨⟨fun _ => rfl, .refl, rfl⟩, (min_eq_left more).symm, fun w low high => ?_⟩
    omega
  case isFalse less =>
    apply Ensures.bind (deallocPages_spec (pagesUp_le_kernPage bound))
    intro vm' heap' ended
    apply Ensures.pure
    exact ⟨ended.1, (Nat.min_eq_right (Nat.le_of_not_le less)).symm, ended.2⟩

/-! ## Growing -/

/-- The loop of `allocuvm` from page `a` on: all pages up to `newsz` are mapped, or those from
`oldsz` on are not, and the result is 0. -/
theorem allocPages_spec {count : Nat} (size : newsz < kernbase)
    (from_ : pagesUp oldsz ≤ a) (stop : a + count = pagesUp newsz) :
    Ensures (allocPages machine oldsz newsz count vm a) heap fun grown heap' =>
      (∀ f, heap'.count f + grown.2.count f = heap.count f + vm.count f) ∧
      (grown.1 = 0 ∧ Touches (fun w => pagesUp oldsz ≤ w ∧ w < pagesUp newsz) vm grown.2 ∧
          (∀ w, pagesUp oldsz ≤ w → w < pagesUp newsz → grown.2.entry w = none) ∨
        grown.1 = newsz ∧ Touches (fun w => a ≤ w ∧ w < pagesUp newsz) vm grown.2 ∧
          ∀ w, a ≤ w → w < pagesUp newsz → ∃ page, grown.2.entry w = some ⟨page, true⟩) := by
  have user : pagesUp newsz ≤ kernPage := pagesUp_le_kernPage (le_of_lt size)
  have top : kernPage ≤ topPage := by decide
  induction count generalizing vm a heap with
  | zero =>
    apply Ensures.pure
    refine ⟨fun _ => rfl, .inr ⟨rfl, .refl, fun w low high => ?_⟩⟩
    omega
  | succ count ih =>
    apply Ensures.bind kalloc_spec
    intro result heap' taken
    cases result with
    | none =>
      apply Ensures.bind (deallocuvm_spec (le_of_lt size))
      intro shrunk heap'' ended
      obtain ⟨emptied, -, gone⟩ := ended
      apply Ensures.pure
      refine ⟨fun f => ?_, .inl ⟨rfl, emptied.touches, gone⟩⟩
      rw [emptied.counts f]
      exact congrArg (· + _) (taken f)
    | some mem =>
      simp only [mappages_one]
      apply Ensures.bind (mapPage_spec (show a < topPage by omega))
      intro mapped heap'' placed
      have first : Touches (fun w => pagesUp oldsz ≤ w ∧ w < pagesUp newsz) vm mapped.2 :=
        placed.touches.mono fun w same => by omega
      split
      case isTrue success =>
        apply Ensures.mono (ih (by omega) (by omega))
        intro grown heap''' ended
        obtain ⟨counts, result⟩ := ended
        refine ⟨fun f => ?_, ?_⟩
        · rw [counts f, placed.counts_taken taken success (by omega)]
        · cases result with
          | inl none =>
            obtain ⟨zero, touches, gone⟩ := none
            exact .inl ⟨zero, first.trans touches, gone⟩
          | inr all =>
            obtain ⟨full, touches, present⟩ := all
            have first : Touches (fun w => a ≤ w ∧ w < pagesUp newsz) vm mapped.2 :=
              placed.touches.mono fun w same => by omega
            refine .inr ⟨full, first.trans (touches.mono fun w inside => by omega),
              fun w low high => ?_⟩
            by_cases same : w = a
            · subst same
              exact ⟨mem, by rw [touches.entry w (by omega) (by omega), placed.entry success]⟩
            · exact present w (by omega) high
      case isFalse failed =>
        apply Ensures.bind (deallocuvm_spec (le_of_lt size))
        intro shrunk heap''' ended
        obtain ⟨emptied, -, gone⟩ := ended
        apply Ensures.bind kfree_spec
        intro _ heap'''' freed
        apply Ensures.pure
        refine ⟨fun f => ?_, .inl ⟨rfl, first.trans emptied.touches, gone⟩⟩
        have change := placed.counts_failed taken failed f
        have given := freed f
        have after := emptied.counts f
        simp only
        omega

/-- What `allocuvm` has done: the pages from `oldsz` to `newsz` are there, or the result is 0 and
none of them is. -/
structure Grown (oldsz newsz : Nat) (vm : Vm) (heap : Heap) (grown : Nat × Vm) (heap' : Heap) :
    Prop where
  counts : ∀ f, heap'.count f + grown.2.count f = heap.count f + vm.count f
  touches : Touches (fun w => pagesUp oldsz ≤ w ∧ w < pagesUp newsz ∧ w < kernPage) vm grown.2
  failed : grown.1 = 0 → grown.2 = vm ∨
    ∀ w, pagesUp oldsz ≤ w → w < pagesUp newsz → grown.2.entry w = none
  size : grown.1 ≠ 0 → grown.1 = max oldsz newsz ∧ (grown.1 = oldsz ∨ grown.1 < kernbase)
  mapped : grown.1 ≠ 0 → ∀ w, pagesUp oldsz ≤ w → w < pagesUp newsz →
    ∃ page, grown.2.entry w = some ⟨page, true⟩

theorem allocuvm_spec :
    Ensures (allocuvm machine vm oldsz newsz) heap (Grown oldsz newsz vm heap) := by
  rw [allocuvm]
  split
  case isTrue =>
    apply Ensures.pure
    exact ⟨fun _ => rfl, .refl, fun _ => .inl rfl, fun nonzero => absurd rfl nonzero,
      fun nonzero => absurd rfl nonzero⟩
  case isFalse low =>
    split
    case isTrue less =>
      have le : pagesUp newsz ≤ pagesUp oldsz := pagesUp_mono (le_of_lt less)
      apply Ensures.pure
      refine ⟨fun _ => rfl, .refl, fun _ => .inl rfl, fun _ => ?_, fun _ w from_ stop => ?_⟩
      · exact ⟨(max_eq_left (le_of_lt less)).symm, .inl rfl⟩
      · omega
    case isFalse more =>
      have le : pagesUp oldsz ≤ pagesUp newsz := pagesUp_mono (not_lt.mp more)
      have bound : newsz < kernbase := not_le.mp low
      have user : pagesUp newsz ≤ kernPage := pagesUp_le_kernPage (le_of_lt bound)
      apply Ensures.mono (allocPages_spec bound (le_refl _) (by omega))
      intro grown heap' ended
      obtain ⟨counts, ⟨zero, touches, gone⟩ | ⟨full, touches, present⟩⟩ := ended
      · exact ⟨counts, touches.mono fun w inside => by omega, fun _ => .inr gone,
          fun nonzero => absurd zero nonzero, fun nonzero => absurd zero nonzero⟩
      · refine ⟨counts, touches.mono fun w inside => by omega, fun zero => .inr fun w from_ stop => ?_,
          fun _ => ⟨by omega, .inr (by omega)⟩, fun _ => present⟩
        -- a size of 0 leaves no page to map
        rw [full] at zero
        rw [zero] at stop
        exact absurd stop (not_lt_zero w)

namespace Grown

variable {oldsz newsz : Nat} {grown : Nat × Vm} {heap' : Heap}

theorem reshaped (ended : Grown oldsz newsz vm heap grown heap') : Reshaped vm heap grown.2 heap' :=
  ⟨ended.counts, ended.touches.mono fun _ inside => inside.2.2⟩

theorem le_kernbase (ended : Grown oldsz newsz vm heap grown heap') (bound : oldsz ≤ kernbase) :
    grown.1 ≤ kernbase := by
  by_cases zero : grown.1 = 0
  · omega
  · have size := (ended.size zero).2
    omega

end Grown

/-! ## Freeing -/

theorem freeTables_spec {ds : List (Fin npdentries)} :
    Ensures (freeTables machine vm ds) heap fun _ heap' =>
      ∀ f, heap'.count f = heap.count f +
        (ds.map fun d => (vm.tables d).elim 0 fun table => here table.page f).sum := by
  induction ds generalizing heap with
  | nil =>
    apply Ensures.pure
    exact fun _ => rfl
  | cons d rest ih =>
    rw [freeTables]
    cases found : vm.tables d with
    | none =>
      apply Ensures.mono ih
      intro _ heap' ended f
      rw [ended f, map_cons, sum_cons, found, elim_none, zero_add]
    | some table =>
      apply Ensures.bind kfree_spec
      intro _ heap' freed
      apply Ensures.mono ih
      intro _ heap'' ended f
      rw [ended f, freed f, map_cons, sum_cons, found, elim_some, add_assoc]

/-- Without user pages, an address space owns its tables and its directory. -/
theorem count_of_emptied (empty : ∀ w < kernPage, vm.entry w = none) (f : Nat) :
    vm.count f = here vm.pgdir f +
      ((List.finRange npdentries).map fun d =>
        (vm.tables d).elim 0 fun table => here table.page f).sum := by
  have tables : ∀ d, tableCount f d (vm.tables d) =
      (vm.tables d).elim 0 fun table => here table.page f := by
    intro d
    cases found : vm.tables d with
    | none => rfl
    | some table =>
      simp only [tableCount, elim_some]
      split
      case isFalse => rfl
      case isTrue user =>
        have zero : table.count f = 0 := by
          apply total_eq_zero
          intro e
          have bound := d.isLt
          have bound' := e.isLt
          rw [userTables_eq] at user
          simp only [nptentries] at bound bound'
          have sameTable : pdx (d.val * 1024 + e.val) = d := by
            apply Fin.ext
            rw [pdx_val]
            omega
          have sameEntry : ptx (d.val * 1024 + e.val) = e := by
            apply Fin.ext
            rw [ptx_val]
            omega
          have unmapped := empty (d.val * 1024 + e.val) (by rw [kernPage_eq]; omega)
          rw [entry_of_table (by rw [sameTable, found]), sameEntry] at unmapped
          rw [unmapped]
          rfl
        rw [zero, add_zero]
  rw [Vm.count, ← total_finRange]
  simp [tables]

theorem freevm_spec :
    Ensures (freevm machine vm) heap fun _ heap' =>
      ∀ f, heap'.count f = heap.count f + vm.count f := by
  apply Ensures.bind (deallocuvm_spec (le_refl kernbase))
  intro shrunk heap' ended
  have empty : ∀ w < kernPage, shrunk.2.entry w = none :=
    fun w low => ended.2.2 w (zero_le w) low
  apply Ensures.bind freeTables_spec
  intro _ heap'' tables
  apply Ensures.mono kfree_spec
  intro _ heap''' freed f
  have counts := ended.1.counts f
  rw [count_of_emptied empty f] at counts
  have given := tables f
  have last := freed f
  omega

/-! ## Making and copying -/

/-- The pages that `kmap` maps. -/
def InRanges (ranges : List (Nat × Nat × Nat)) (w : Nat) : Prop :=
  ∃ range ∈ ranges, range.1 ≤ w ∧ w < range.1 + range.2.1

/-- No entry is the user's. -/
def Vm.NoUser (vm : Vm) : Prop := ∀ w < topPage, ∀ pte, vm.entry w = some pte → pte.user = false

/-- The kernel half has been mapped. -/
structure Furnished (ranges : List (Nat × Nat × Nat)) (vm : Vm) (heap : Heap) (vm' : Vm)
    (heap' : Heap) : Prop where
  counts : ∀ f, heap'.count f + vm'.count f = heap.count f + vm.count f
  touches : Touches (InRanges ranges) vm vm'
  noUser : vm.NoUser → vm'.NoUser

theorem mapKernel_spec (vm : Vm) {ranges : List (Nat × Nat × Nat)}
    (inKernel : ∀ range ∈ ranges, kernPage ≤ range.1 ∧ range.1 + range.2.1 ≤ topPage) :
    Ensures (mapKernel machine ranges vm) heap fun result heap' =>
      match result with
      | some vm' => Furnished ranges vm heap vm' heap'
      | none => ∀ f, heap'.count f = heap.count f + vm.count f := by
  induction ranges generalizing vm heap with
  | nil =>
    apply Ensures.pure
    exact ⟨fun _ => rfl, .refl, fun noUser => noUser⟩
  | cons range rest ih =>
    obtain ⟨virt, count, phys⟩ := range
    obtain ⟨high, bound⟩ := inKernel (virt, count, phys) mem_cons_self
    apply Ensures.bind (mappages_kernel high bound)
    intro mapped heap' ended
    split
    case isFalse =>
      apply Ensures.bind freevm_spec
      intro _ heap'' freed
      apply Ensures.pure
      intro f
      rw [freed f, ended.counts f]
    case isTrue success =>
      apply Ensures.mono (ih mapped.2 fun range member =>
        inKernel range (mem_cons_of_mem _ member))
      intro result heap'' after
      cases result with
      | none =>
        intro f
        rw [after f, ended.counts f]
      | some vm' =>
        have first : Touches (InRanges ((virt, count, phys) :: rest)) vm mapped.2 :=
          ended.touches.mono fun w inside => ⟨_, mem_cons_self, inside⟩
        have second : Touches (InRanges ((virt, count, phys) :: rest)) mapped.2 vm' := by
          apply after.touches.mono
          intro w inside
          obtain ⟨range, member, inside⟩ := inside
          exact ⟨range, mem_cons_of_mem _ member, inside⟩
        constructor
        case counts => exact fun f => (after.counts f).trans (ended.counts f)
        case touches => exact first.trans second
        case noUser =>
          intro noUser
          apply after.noUser
          intro w bound' pte found
          cases ended.flags w bound' pte found with
          | inl before => exact noUser w bound' pte before
          | inr flag => exact flag

theorem kmap_inKernel (machine : Machine) :
    ∀ range ∈ machine.kmap, kernPage ≤ range.1 ∧ range.1 + range.2.1 ≤ topPage := by
  intro range member
  have above := machine.above
  have ordered := machine.ordered
  have low := machine.low
  simp only [nptentries] at above low
  simp only [Machine.kmap, mem_cons, not_mem_nil, or_false] at member
  simp only [kernPage, topPage, kernbase, pgsize, stopPage, npdentries,
    nptentries] at member ⊢
  obtain same | same | same | same := member
  · subst same
    decide
  · subst same
    constructor
    · simp only
      omega
    · simp only
      omega
  · subst same
    constructor
    · simp only
      omega
    · simp only
      omega
  · subst same
    decide

def emptyVm (pgdir : Nat) : Vm := ⟨pgdir, fun _ => none⟩

theorem count_emptyVm (pgdir f : Nat) : (emptyVm pgdir).count f = here pgdir f := by
  have noTables : (total fun d => tableCount f d ((emptyVm pgdir).tables d)) = 0 :=
    total_eq_zero fun _ => rfl
  rw [Vm.count, noTables]
  rfl

/-- A kernel half, and no user half. -/
structure Fresh (machine : Machine) (vm : Vm) : Prop where
  entry : ∀ w < topPage, ¬ InRanges machine.kmap w → vm.entry w = none
  noUser : vm.NoUser

theorem Fresh.guarded (fresh : Fresh machine vm) : vm.Guarded :=
  fun w pte _ bound found => fresh.noUser w bound pte found

theorem setupkvm_spec : Ensures (setupkvm machine) heap fun result heap' =>
    (∀ f, heap'.count f + result.elim 0 (Vm.count · f) = heap.count f) ∧
      ∀ vm, result = some vm → Fresh machine vm := by
  apply Ensures.bind kalloc_spec
  intro result heap' taken
  cases result with
  | none =>
    apply Ensures.pure
    exact ⟨taken, nofun⟩
  | some pgdir =>
    apply Ensures.mono (mapKernel_spec (emptyVm pgdir) (kmap_inKernel machine))
    intro result heap'' ended
    cases result with
    | none =>
      refine ⟨fun f => ?_, nofun⟩
      have took := taken f
      have after := ended f
      rw [count_emptyVm] at after
      simp only [elim_some, elim_none] at took ⊢
      omega
    | some vm =>
      refine ⟨fun f => ?_, fun vm' same => ?_⟩
      · have took := taken f
        have after := ended.counts f
        rw [count_emptyVm] at after
        simp only [elim_some] at took ⊢
        omega
      · cases same
        constructor
        case entry => exact ended.touches.entry
        case noUser => exact ended.noUser fun _ _ _ found => nomatch found

theorem copyPages_spec {d : Vm} {count i : Nat} (bound : i + count ≤ kernPage) :
    Ensures (copyPages machine vm count d i) heap fun result heap' =>
      match result with
      | some d' => Reshaped d heap d' heap'
      | none => ∀ f, heap'.count f = heap.count f + d.count f := by
  induction count generalizing d i heap with
  | zero =>
    apply Ensures.pure
    exact .refl
  | succ count ih =>
    rw [copyPages]
    split
    case h_1 => exact .failure
    case h_2 pte _ =>
      apply Ensures.bind kalloc_spec
      intro result heap' taken
      cases result with
      | none =>
        apply Ensures.bind freevm_spec
        intro _ heap'' freed
        apply Ensures.pure
        intro f
        rw [freed f]
        exact congrArg (· + _) (taken f)
      | some mem =>
        have inside : i < topPage := lt_of_lt_of_le (by omega) (show kernPage ≤ topPage by decide)
        simp only [mappages_one]
        apply Ensures.bind (mapPage_spec inside)
        intro mapped heap'' placed
        split
        case isTrue success =>
          have begun : Reshaped d heap mapped.2 heap'' := by
            refine ⟨?_, placed.touches.mono fun w same => by omega⟩
            exact placed.counts_taken taken success (by omega)
          apply Ensures.mono (ih (by omega))
          intro result heap''' ended
          cases result with
          | some d' => exact begun.trans ended
          | none =>
            intro f
            rw [ended f, begun.counts f]
        case isFalse failed =>
          apply Ensures.bind kfree_spec
          intro _ heap''' freed
          apply Ensures.bind freevm_spec
          intro _ heap'''' emptied
          apply Ensures.pure
          intro f
          have change := placed.counts_failed taken failed f
          have given := freed f
          have after := emptied f
          omega

theorem copyuvm_spec {sz : Nat} (bound : sz ≤ kernbase) :
    Ensures (copyuvm machine vm sz) heap fun result heap' =>
      (∀ f, heap'.count f + result.elim 0 (Vm.count · f) = heap.count f) ∧
        ∀ vm', result = some vm' → vm'.Guarded := by
  apply Ensures.bind setupkvm_spec
  intro result heap' made
  cases result with
  | none =>
    apply Ensures.pure
    exact ⟨made.1, nofun⟩
  | some d =>
    have inUser : 0 + pagesUp sz ≤ kernPage := by
      rw [zero_add]
      exact pagesUp_le_kernPage bound
    apply Ensures.mono (copyPages_spec inUser)
    intro result heap'' ended
    cases result with
    | none =>
      refine ⟨fun f => ?_, nofun⟩
      have took := made.1 f
      have after := ended f
      simp only [elim_some, elim_none] at took ⊢
      omega
    | some d' =>
      refine ⟨fun f => (ended.counts f).trans (made.1 f), fun vm' same => ?_⟩
      cases same
      exact ended.touches.guarded (made.2 d rfl).guarded

end

end Laboratorio.Xv6.Mem
