import Laboratorio.Xv6.Mem.Pages

/-! # Page tables in memory (`vm.c`, `mmu.h`)

`walkpgdir` and `mappages` over the words of physical memory: a page table is what its page
holds, so a write to a page changes every table that uses it.  While the tables are pages of
their own (`Apart`), `mappages` adds its pages to what the processor finds and changes nothing
else (`mappages_translate`).

* Memory is pages of 1024 words; a kernel pointer stands for the page it points to.  Words and
  virtual addresses are numbers, and unsigned sums wrap.
* `free` is `kmem.freelist`; `kalloc` fails when it is empty.
* `none` is a panic.  The loop runs on `fuel`, one unit a round, and has no result without it.
-/

namespace Laboratorio.Xv6.Vm

open Laboratorio.Xv6.Mem Function Option Nat

structure Ram where
  word : Nat × Fin 1024 → Nat
  free : List Nat

/-- `PTE_P` is set. -/
def present (pte : Nat) : Bool := pte % 2 == 1

/-- `PTE_ADDR` and `PTE_FLAGS` of an entry that is present. -/
def decode (pte : Nat) : Option (Nat × Nat) :=
  if present pte then some (pte / pgsize * pgsize, pte % pgsize) else none

def pgrounddown (a : Nat) : Nat := a / pgsize * pgsize

namespace Ram

variable (ram : Ram) (pgdir va : Nat)

/-- The page table of a directory entry. -/
def table (d : Fin 1024) : Option Nat :=
  if present (ram.word (pgdir, d)) then some (ram.word (pgdir, d) / pgsize) else none

/-- Where the entry of an address is, if there is a table for it. -/
def pte : Option (Nat × Fin 1024) :=
  (ram.table pgdir (pdx (va / pgsize))).map (·, ptx (va / pgsize))

/-- What the processor finds for an address: the page and the flags. -/
def translate : Option (Nat × Nat) := (ram.pte pgdir va).bind fun pte => decode (ram.word pte)

def store (pte : Nat × Fin 1024) (value : Nat) : Ram :=
  { ram with word := update ram.word pte value }

/-- A page is taken, set to 0 and entered in the directory; 7 is `PTE_P | PTE_W | PTE_U`. -/
def fresh (pgtab : Nat) (free : List Nat) : Ram :=
  Ram.store ⟨fun slot => if slot.1 = pgtab then 0 else ram.word slot, free⟩
    (pgdir, pdx (va / pgsize)) (pgtab * pgsize ||| 7)

end Ram

/-- The entry, or none for 0. -/
def walkpgdir (ram : Ram) (pgdir va : Nat) (alloc : Bool) : Option (Nat × Fin 1024) × Ram :=
  match ram.table pgdir (pdx (va / pgsize)) with
  | some pgtab => (some (pgtab, ptx (va / pgsize)), ram)
  | none =>
    if !alloc then (none, ram)
    else
      match ram.free with
      | [] => (none, ram)
      | pgtab :: free => (some (pgtab, ptx (va / pgsize)), ram.fresh pgdir va pgtab free)

/-- The loop of `mappages`. -/
def mapPages (pgdir last perm : Nat) : Nat → Ram → Nat → Nat → Option (Int × Ram)
  | 0, _, _, _ => none
  | fuel + 1, ram, a, pa =>
    match walkpgdir ram pgdir a true with
    | (none, ram) => some (-1, ram)
    | (some pte, ram) =>
      if present (ram.word pte) then none
      else
        let ram := ram.store pte (pa ||| perm ||| 1)
        if a = last then some (0, ram)
        else mapPages pgdir last perm fuel ram ((a + pgsize) % 2 ^ 32) ((pa + pgsize) % 2 ^ 32)

def mappages (ram : Ram) (pgdir va size pa perm : Nat) : Option (Int × Ram) :=
  mapPages pgdir (pgrounddown ((va + size + 2 ^ 32 - 1) % 2 ^ 32)) perm topPage ram
    (pgrounddown va) pa

/-! ## Tables that are pages of their own -/

/-- The page tables are different pages, none is the directory, and no free page is used. -/
structure Apart (ram : Ram) (pgdir : Nat) : Prop where
  directory : ∀ d, ram.table pgdir d ≠ some pgdir
  distinct : ∀ d e pgtab, ram.table pgdir d = some pgtab → ram.table pgdir e = some pgtab → d = e
  free : ∀ page ∈ ram.free, page ≠ pgdir ∧ ∀ d, ram.table pgdir d ≠ some page
  nodup : ram.free.Nodup

section

variable {ram : Ram} {pgdir va a w pa perm pgtab flags value : Nat} {pte : Nat × Fin 1024}
  {d : Fin 1024} {free : List Nat}

theorem pgsize_eq : pgsize = 4096 := rfl

theorem page_lt (bound : w < 2 ^ 32) : w / pgsize < topPage := by
  rw [pgsize_eq, topPage_eq]
  omega

theorem or_flags (page : Nat) (small : flags < pgsize) :
    page * pgsize ||| flags = page * pgsize + flags := by
  rw [Nat.mul_comm]
  exact (Nat.two_pow_add_eq_or_of_lt (i := 12) small page).symm

theorem translate_congr {ram' : Ram}
    (table : ram'.table pgdir (pdx (a / pgsize)) = ram.table pgdir (pdx (a / pgsize)))
    (word : ∀ pte, ram.pte pgdir a = some pte → ram'.word pte = ram.word pte) :
    ram'.translate pgdir a = ram.translate pgdir a := by
  rw [Ram.translate, Ram.pte, table, ← Ram.pte, Ram.translate]
  cases found : ram.pte pgdir a with
  | none => rfl
  | some pte => exact congrArg decode (word pte found)

theorem pte_page (same : w / pgsize = a / pgsize) : ram.pte pgdir w = ram.pte pgdir a := by
  rw [Ram.pte, same, Ram.pte]

/-! ## Writing an entry -/

section store

variable (apart : Apart ram pgdir) (found : ram.pte pgdir a = some pte)
include apart found

theorem table_store : (ram.store pte value).table pgdir d = ram.table pgdir d := by
  obtain ⟨pgtab, table, rfl⟩ := map_eq_some_iff.mp found
  have other : (pgdir, d) ≠ (pgtab, ptx (a / pgsize)) := by
    rintro ⟨⟩
    exact apart.directory _ table
  simp [Ram.table, Ram.store, update_of_ne other]

theorem apart_store : Apart (ram.store pte value) pgdir := by
  have tables : ∀ d, (ram.store pte value).table pgdir d = ram.table pgdir d :=
    fun d => table_store apart found
  obtain ⟨directory, distinct, free, nodup⟩ := apart
  constructor <;> simpa only [tables]

theorem translate_store_self : (ram.store pte value).translate pgdir a = decode value := by
  rw [Ram.translate, Ram.pte, table_store apart found, ← Ram.pte, found]
  exact congrArg decode (update_self _ _ _)

theorem translate_store_of_ne (bound : a < 2 ^ 32) (bound' : w < 2 ^ 32)
    (different : w / pgsize ≠ a / pgsize) :
    (ram.store pte value).translate pgdir w = ram.translate pgdir w := by
  apply translate_congr (table_store apart found)
  intro pte' found'
  apply update_of_ne
  rintro rfl
  obtain ⟨pgtab, table, rfl⟩ := map_eq_some_iff.mp found
  obtain ⟨pgtab', table', same⟩ := map_eq_some_iff.mp found'
  obtain ⟨rfl, slots⟩ := Prod.mk.inj same
  exact different (eq_of_pdx_ptx (page_lt bound') (page_lt bound)
    (apart.distinct _ _ _ table' table) slots)

end store

/-! ## A new page table -/

section fresh

variable (apart : Apart ram pgdir) (absent : ram.table pgdir (pdx (va / pgsize)) = none)
  (taken : ram.free = pgtab :: free)
include apart taken

theorem table_fresh : (ram.fresh pgdir va pgtab free).table pgdir d =
    if d = pdx (va / pgsize) then some pgtab else ram.table pgdir d := by
  have different := (apart.free pgtab (taken ▸ List.mem_cons_self)).1
  split
  case isTrue same =>
    have word : (ram.fresh pgdir va pgtab free).word (pgdir, d) = pgtab * pgsize + 7 := by
      rw [same, ← or_flags _ (by decide)]
      exact update_self _ _ _
    rw [Ram.table, word, pgsize_eq, if_pos]
    · congr 1
      omega
    · rw [present, beq_iff_eq]
      omega
  case isFalse other =>
    have slot : (pgdir, d) ≠ (pgdir, pdx (va / pgsize)) := by
      rintro ⟨⟩
      exact other rfl
    simp [Ram.table, Ram.fresh, Ram.store, update_of_ne slot, if_neg different.symm]

theorem apart_fresh : Apart (ram.fresh pgdir va pgtab free) pgdir := by
  have tables : ∀ d, (ram.fresh pgdir va pgtab free).table pgdir d = _ :=
    fun d => table_fresh apart taken
  obtain ⟨directory, distinct, unused, nodup⟩ := apart
  rw [taken] at unused nodup
  constructor
  case directory => grind
  case distinct => grind
  case free =>
    intro page (member : page ∈ free)
    grind
  case nodup => exact nodup.of_cons

include absent

theorem translate_fresh (w : Nat) :
    (ram.fresh pgdir va pgtab free).translate pgdir w = ram.translate pgdir w := by
  obtain ⟨different, unused⟩ := apart.free pgtab (taken ▸ List.mem_cons_self)
  by_cases same : pdx (w / pgsize) = pdx (va / pgsize)
  · have word : (ram.fresh pgdir va pgtab free).word (pgtab, ptx (w / pgsize)) = 0 := by
      simp [Ram.fresh, Ram.store, different]
    rw [Ram.translate, Ram.pte, table_fresh apart taken, if_pos same, Ram.translate, Ram.pte, same,
      absent, map_some, bind_some, word]
    rfl
  · apply translate_congr
    · rw [table_fresh apart taken, if_neg same]
    · intro pte found
      obtain ⟨pgtab', table, rfl⟩ := map_eq_some_iff.mp found
      have other : pgtab' ≠ pgdir := fun same => apart.directory _ (same ▸ table)
      have own : pgtab' ≠ pgtab := fun same => unused _ (same ▸ table)
      simp [Ram.fresh, Ram.store, other, own]

end fresh

/-! ## Mapping -/

/-- The entry is found or made, or there is no page left for its table. -/
theorem walkpgdir_spec (apart : Apart ram pgdir) (va : Nat) :
    ∃ ram', walkpgdir ram pgdir va true = (ram'.pte pgdir va, ram') ∧ Apart ram' pgdir ∧
      (∀ w, ram'.translate pgdir w = ram.translate pgdir w) ∧
      (ram'.pte pgdir va = none → ram'.free = []) := by
  rw [walkpgdir]
  cases found : ram.table pgdir (pdx (va / pgsize)) with
  | some pgtab =>
    have entry : ram.pte pgdir va = some (pgtab, ptx (va / pgsize)) := by rw [Ram.pte, found]; rfl
    exact ⟨ram, by rw [entry], apart, fun _ => rfl, by rw [entry]; nofun⟩
  | none =>
    cases taken : ram.free with
    | nil =>
      have entry : ram.pte pgdir va = none := by rw [Ram.pte, found]; rfl
      exact ⟨ram, by rw [entry]; rfl, apart, fun _ => rfl, fun _ => taken⟩
    | cons pgtab free =>
      have entry : (ram.fresh pgdir va pgtab free).pte pgdir va = some (pgtab, ptx (va / pgsize)) := by
        rw [Ram.pte, table_fresh apart taken, if_pos rfl]
        rfl
      exact ⟨ram.fresh pgdir va pgtab free, by rw [entry]; rfl, apart_fresh apart taken,
        translate_fresh apart found taken, by rw [entry]; nofun⟩

/-- What `mappages` leaves for the pages from `first` to `last`: all are mapped, or there was no
page left for a table. -/
structure Mapped (pgdir first last pa perm : Nat) (ram : Ram) (result : Int × Ram) : Prop where
  apart : Apart result.2 pgdir
  other : ∀ w < 2 ^ 32, w / pgsize < first ∨ last < w / pgsize →
    result.2.translate pgdir w = ram.translate pgdir w
  range : (result.1 = 0 ∧ ∀ w, first ≤ w / pgsize → w / pgsize ≤ last →
      result.2.translate pgdir w =
        some ((pa + (w / pgsize - first) * pgsize) % 2 ^ 32, perm ||| 1)) ∨
    (result.1 = -1 ∧ result.2.free = [] ∧
      ∃ w, first ≤ w / pgsize ∧ w / pgsize ≤ last ∧ result.2.pte pgdir w = none)

theorem decode_or (small : perm < pgsize) (aligned : pa % pgsize = 0) :
    decode (pa ||| perm ||| 1) = some (pa, perm ||| 1) := by
  have flags : perm ||| 1 < pgsize := or_lt_two_pow (n := 12) small (by decide)
  have odd : (perm ||| 1) % 2 = 1 := or_mod_two_eq_one.mpr (.inr rfl)
  have value : pa ||| perm ||| 1 = pa + (perm ||| 1) := by
    rw [Nat.or_assoc, ← Nat.div_mul_cancel (Nat.dvd_of_mod_eq_zero aligned), or_flags _ flags]
  rw [pgsize_eq] at aligned flags
  rw [decode, value, pgsize_eq, if_pos (by rw [present, beq_iff_eq]; omega)]
  simp only [some.injEq, Prod.mk.injEq]
  omega

theorem mapPages_spec {v count fuel : Nat} (apart : Apart ram pgdir) (small : perm < pgsize)
    (bound : v + count < 2 ^ 20) (aligned : pa % pgsize = 0) (fits : pa < 2 ^ 32)
    (absent : ∀ w, v ≤ w / pgsize → w / pgsize ≤ v + count → ram.translate pgdir w = none)
    (enough : count < fuel) :
    ∃ result, mapPages pgdir ((v + count) * pgsize) perm fuel ram (v * pgsize) pa = some result ∧
      Mapped pgdir v (v + count) pa perm ram result := by
  induction fuel generalizing ram v count pa with
  | zero => cases enough
  | succ fuel ih =>
    have page : v * pgsize / pgsize = v := Nat.mul_div_cancel _ (by decide)
    obtain ⟨ram₁, walked, apart₁, same, failed⟩ := walkpgdir_spec apart (v * pgsize)
    rw [mapPages, walked]
    cases found : ram₁.pte pgdir (v * pgsize) with
    | none =>
      refine ⟨(-1, ram₁), rfl, apart₁, fun w _ _ => same w, .inr ⟨rfl, failed found, v * pgsize, ?_⟩⟩
      rw [page]
      exact ⟨le_refl v, le_add_right v count, found⟩
    | some pte =>
      have unset : ¬ present (ram₁.word pte) = true := by
        intro set
        have none := absent (v * pgsize) (by omega) (by omega)
        rw [← same, Ram.translate, found, bind_some, decode, if_pos set] at none
        cases none
      have bound' : v * pgsize < 2 ^ 32 := by rw [pgsize_eq]; omega
      have apart₂ : Apart (ram₁.store pte (pa ||| perm ||| 1)) pgdir := apart_store apart₁ found
      have kept : ∀ w < 2 ^ 32, w / pgsize ≠ v →
          (ram₁.store pte (pa ||| perm ||| 1)).translate pgdir w = ram.translate pgdir w :=
        fun w low different =>
          (translate_store_of_ne apart₁ found bound' low (page.symm ▸ different)).trans (same w)
      have here : ∀ w, w / pgsize = v →
          (ram₁.store pte (pa ||| perm ||| 1)).translate pgdir w =
            some ((pa + (w / pgsize - v) * pgsize) % 2 ^ 32, perm ||| 1) := by
        intro w at_
        rw [translate_store_self apart₁ (pte_page (at_.trans page.symm) ▸ found),
          decode_or small aligned, at_, Nat.sub_self, Nat.zero_mul, Nat.add_zero,
          mod_eq_of_lt fits]
      simp only [if_neg unset]
      cases count with
      | zero =>
        refine ⟨_, if_pos rfl, apart₂, fun w low outside => kept w low (by omega), .inl ⟨rfl, ?_⟩⟩
        exact fun w low high => here w (le_antisymm high low)
      | succ count =>
        have last : v * pgsize ≠ (v + (count + 1)) * pgsize := by rw [pgsize_eq]; omega
        have next : (v * pgsize + pgsize) % 2 ^ 32 = (v + 1) * pgsize := by rw [pgsize_eq]; omega
        have range : v + (count + 1) = v + 1 + count := by omega
        rw [range] at bound absent last ⊢
        have aligned₂ : (pa + pgsize) % 2 ^ 32 % pgsize = 0 := by
          rw [pgsize_eq] at aligned ⊢
          omega
        have inside : ∀ w, w / pgsize ≤ v + 1 + count → w < 2 ^ 32 := by
          rw [pgsize_eq]
          omega
        obtain ⟨result, mapped, apart', other, done⟩ := ih apart₂ bound aligned₂
          (mod_lt _ (by decide)) (fun w low high => (kept w (inside w high) (by omega)).trans
            (absent w (by omega) high)) (lt_of_succ_lt_succ enough)
        refine ⟨result, by rw [if_neg last, next, mapped], apart', fun w low outside => ?_, ?_⟩
        · rw [other w low (by omega), kept w low (by omega)]
        rcases done with ⟨zero, done⟩ | ⟨failed, empty, w, low, high, none⟩
        · refine .inl ⟨zero, fun w low high => ?_⟩
          by_cases at_ : w / pgsize = v
          · rw [other w (inside w high) (by omega), here w at_]
          · have sum : pa + pgsize + (w / pgsize - (v + 1)) * pgsize =
                pa + (w / pgsize - v) * pgsize := by
              rw [pgsize_eq] at *
              omega
            rw [done w (by omega) high, mod_add_mod, sum]
        · exact .inr ⟨failed, empty, w, by omega, high, none⟩

theorem mappages_translate {size : Nat} (apart : Apart ram pgdir) (nonempty : 1 ≤ size)
    (bound : va + size ≤ 2 ^ 32) (aligned : pa % pgsize = 0) (fits : pa < 2 ^ 32)
    (small : perm < pgsize)
    (absent : ∀ w, va / pgsize ≤ w / pgsize → w / pgsize ≤ (va + size - 1) / pgsize →
      ram.translate pgdir w = none) :
    ∃ result, mappages ram pgdir va size pa perm = some result ∧
      Mapped pgdir (va / pgsize) ((va + size - 1) / pgsize) pa perm ram result := by
  obtain ⟨count, last⟩ : ∃ count, (va + size - 1) / pgsize = va / pgsize + count :=
    Nat.exists_eq_add_of_le (Nat.div_le_div_right (by omega))
  have wraps : (va + size + 2 ^ 32 - 1) % 2 ^ 32 = va + size - 1 := by omega
  rw [mappages, wraps, pgrounddown, last]
  rw [last] at absent
  rw [pgsize_eq] at last
  apply mapPages_spec apart small _ aligned fits absent
  · rw [show topPage = 2 ^ 20 from rfl]
    omega
  · rw [pgsize_eq]
    omega

end

/-- The last entry of `kmap`, in a new directory: its pages end at `2 ^ 32`. -/
theorem mappages_devspace : ∃ result,
    mappages ⟨fun _ => 0, [1025]⟩ 1024 0xFE000000 0x2000000 0xFE000000 2 = some result ∧
      Mapped 1024 0xFE000 0xFFFFF 0xFE000000 2 ⟨fun _ => 0, [1025]⟩ result := by
  refine mappages_translate ⟨nofun, nofun, ?_, by decide⟩ (by decide) (by decide) (by decide)
    (by decide) (by decide) fun _ _ _ => rfl
  intro page member
  rw [List.mem_singleton.mp member]
  exact ⟨by decide, nofun⟩

/-- A directory that is its own table for the lowest addresses. -/
def selfTable : Ram := ⟨fun slot => if slot.1 = 1024 ∧ slot.2.val = 0 then 1024 * pgsize + 7 else 0, []⟩

/-- Mapping one page also makes a page table for other addresses. -/
theorem mappages_selfTable :
    (∀ d pgtab, selfTable.table 1024 d = some pgtab → d = 0) ∧
    selfTable.translate 1024 0x5000 = none ∧ selfTable.translate 1024 0x1400000 = none ∧
    (mappages selfTable 1024 0x5000 pgsize 0x400000 2).map
      (fun result => (result.1, result.2.translate 1024 0x1400000)) =
        some (0, some (0x400000, 7)) := by
  refine ⟨?_, by decide, by decide, by decide⟩
  intro d pgtab found
  by_contra other
  have word : selfTable.word (1024, d) = 0 := if_neg fun same => other (Fin.ext same.2)
  rw [Ram.table, word] at found
  cases found

end Laboratorio.Xv6.Vm
