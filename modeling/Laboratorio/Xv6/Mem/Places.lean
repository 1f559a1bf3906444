import Laboratorio.Xv6.Mem.Ownership
import Laboratorio.Xv6.Mem.Supply

/-! # Every page in its place

In every state that the machine reaches, each page that the allocator manages is in one place,
and no page of one process is mapped for the user in another.  The first part boots a machine and
lets its process grow.
-/

namespace Laboratorio.Xv6.Mem

open Laboratorio.Lib Laboratorio.Xv6.Ftable Nat List

section

variable {machine : Machine} {heap : Heap} {k : Kernel} (pages : Nat) {proc : Proc} {p : Pid}

/-! ## A machine that has booted -/

theorem freerange_returns {pages count first : Nat}
    (managed : ∀ page, first ≤ page → page < first + count → machine.managed page = true)
    (supply : Supply pages heap) :
    Returns (freerange machine count first) heap fun _ heap' => Supply (pages + count) heap' := by
  induction count generalizing first heap pages with
  | zero =>
    apply Returns.pure
    exact supply
  | succ count ih =>
    apply Returns.bind (kfree_returns (managed first (le_refl _) (by omega)) supply)
    intro _ heap' supplied
    apply Returns.mono (ih
      (fun page low high => managed page (by omega) (by omega)) supplied)
    intro _ heap'' ended
    exact ended.mono (by omega)

/-- A process that runs: what it has mapped is its own up to its size. -/
structure Ready (proc : Proc) (sz : Nat) : Prop where
  alive : proc.zombie = false
  size : proc.sz = sz
  mapped : ∀ w < pagesUp sz, ∃ page, proc.vm.entry w = some ⟨page, true⟩
  unmapped : ∀ w, pagesUp sz ≤ w → w < kernPage → proc.vm.entry w = none

theorem not_inRanges_of_user (machine : Machine) {w : Nat} (low : w < kernPage) :
    ¬ InRanges machine.kmap w := by
  intro inside
  obtain ⟨range, member, start, _⟩ := inside
  have high := (kmap_inKernel machine range member).1
  omega

theorem userinit_returns (supply : Supply (pages + 1027) heap) :
    Returns (userinit machine) heap fun proc heap' => Ready proc pgsize ∧ Supply pages heap' := by
  apply Returns.bind (kalloc_returns (pages + 1026) supply)
  intro result heap₁ taken
  cases result with
  | none => cases taken.1
  | some kstack =>
    apply Returns.bind (setupkvm_returns (pages + 513) taken.2)
    intro result heap₂ made
    obtain ⟨vm, same, supplied, fresh⟩ := made
    subst same
    apply Returns.bind (kalloc_returns (pages + 512) supplied)
    intro result heap₃ taken'
    cases result with
    | none => cases taken'.1
    | some mem =>
      have user : ∀ w < kernPage, vm.entry w = none := fun w low =>
        fresh.entry w (lt_of_lt_of_le low (by decide)) (not_inRanges_of_user machine low)
      have few : vm.missing userPart ≤ 512 := userPart_total ▸ missing_le vm userPart
      simp only [mappages_one]
      apply Returns.bind (mapPage_returns pages (by decide) (userPart_pdx (by decide))
        (user 0 (by decide)) (taken'.2.mono (by omega)))
      intro mapped heap₄ ended
      obtain ⟨success, supplied', placed⟩ := ended
      rw [if_pos success]
      apply Returns.pure
      refine ⟨⟨rfl, rfl, fun w below => ?_, fun w low high => ?_⟩,
        supplied'.mono (le_add_right _ _)⟩
      · have first : w = 0 := lt_one_iff.mp below
        rw [first]
        exact ⟨mem, placed.entry success⟩
      · have later : w ≠ 0 := one_le_iff_ne_zero.mp low
        rw [placed.touches.entry w (lt_of_lt_of_le high (by decide)) later]
        exact user w high

theorem main_returns (small : machine.kernelEnd + 515 ≤ nptentries) :
    Returns (main machine 0) ⟨[], []⟩ fun result heap' =>
      Ready result.2.2 pgsize ∧ Supply 55293 heap' := by
  have managed : ∀ page, machine.kernelEnd ≤ page → page < stopPage →
      machine.managed page = true := by
    intro page low high
    simp [Machine.managed, low, high]
  have stop : nptentries ≤ stopPage := by decide
  have nothing : Supply 0 ⟨[], []⟩ := ⟨rfl, le_refl 0⟩
  apply Returns.bind (freerange_returns
    (fun page low high => managed page low (by omega)) nothing)
  intro _ heap₁ supplied
  apply Returns.bind (setupkvm_returns 0 (supplied.mono (by omega)))
  intro result heap₂ made
  obtain ⟨kpgdir, same, supplied, -⟩ := made
  subst same
  have noStacks : Returns (takeStacks 0) heap₂ fun _ heap' => Supply 0 heap' :=
    Returns.pure supplied
  apply Returns.bind noStacks
  intro cpuStacks heap₃ supplied
  apply Returns.bind (freerange_returns
    (fun page low high => managed page (by omega) (by omega)) supplied)
  intro _ heap₄ supplied
  apply Returns.bind (userinit_returns 55293 (supplied.mono (by decide)))
  intro proc heap₅ ended
  apply Returns.pure
  exact ended

theorem boot_ready (machine : Machine) (small : machine.kernelEnd + 515 ≤ nptentries) :
    ∃ k proc, boot machine 0 = some k ∧ k.procs initproc = some proc ∧ Ready proc pgsize ∧
      Supply 55293 ⟨k.free, []⟩ := by
  obtain ⟨result, heap, ended, ready, supply⟩ := main_returns small
  obtain ⟨kpgdir, cpuStacks, proc⟩ := result
  have booted : boot machine 0 = some
      { free := heap.free
        procs := fun p => if p = initproc then some proc else none
        table := Table.empty Unit
        kpgdir
        cpuStacks } := by
    simp [boot, ended]
  exact ⟨_, proc, booted, rfl, ready, rfl, supply.2⟩

/-! ## A call that returns -/

theorem step_of_returns (made : Call) {post : Kernel → Heap → Prop}
    (running : k.procs p = some proc) (alive : proc.zombie = false)
    (returns : Returns (call machine k p proc made) ⟨k.free, []⟩ post) :
    ∃ k' heap', step machine k ⟨p, made, []⟩ = some { k' with free := heap'.free } ∧
      post k' heap' := by
  obtain ⟨k', heap', ended, holds⟩ := returns
  refine ⟨k', heap', ?_, holds⟩
  simp [step, running, alive, ended]

theorem sbrk_ready (machine : Machine) (n : Nat) {sz pages : Nat} (running : k.procs p = some proc)
    (ready : Ready proc sz) (positive : 0 < n) (bound : sz + n < kernbase)
    (supply : Supply (pages + (pagesUp (sz + n) - pagesUp sz) + 512) ⟨k.free, []⟩) :
    ∃ k' proc', step machine k ⟨p, .sbrk n, []⟩ = some k' ∧ k'.procs p = some proc' ∧
      Ready proc' (sz + n) ∧ Supply pages ⟨k'.free, []⟩ := by
  obtain ⟨alive, size, mapped, unmapped⟩ := ready
  subst size
  have top : kernPage ≤ topPage := by decide
  have few : proc.vm.missing userPart ≤ 512 := userPart_total ▸ missing_le proc.vm userPart
  have wanted : (((proc.sz : Int) + (n : Int)) % 2 ^ 32).toNat = proc.sz + n := by
    simp only [kernbase] at bound
    omega
  have inUser : pagesUp (proc.sz + n) ≤ kernPage := pagesUp_le_kernPage (le_of_lt bound)
  have nonzero : ¬ proc.sz + n = 0 := by omega
  have returns : Returns (growproc machine k p proc n) ⟨k.free, []⟩ fun k' heap' =>
      ∃ proc', k'.procs p = some proc' ∧ Ready proc' (proc.sz + n) ∧ Supply pages heap' := by
    rw [growproc, if_pos (by omega), wanted]
    apply Returns.bind (allocuvm_returns pages (le_add_right _ _) bound
      (fun w low high => unmapped w low (by omega)) (supply.mono (by omega)))
    intro grown heap' ended
    obtain ⟨size, supplied, enlarged⟩ := ended
    apply Returns.pure
    have more : pagesUp proc.sz ≤ pagesUp (proc.sz + n) := pagesUp_mono (le_add_right _ _)
    refine ⟨_, procs_setProc_self k p _, ⟨alive, ?_, fun w below => ?_, fun w low high => ?_⟩,
      supplied.mono (le_add_right _ _)⟩
    · rw [size, if_neg nonzero]
    · by_cases old : w < pagesUp proc.sz
      · obtain ⟨page, before⟩ := mapped w old
        exact ⟨page, by rw [enlarged.touches.entry w (by omega) (by omega)]; exact before⟩
      · exact enlarged.mapped (by rw [size]; exact nonzero) w (not_lt.mp old) below
    · rw [enlarged.touches.entry w (lt_of_lt_of_le high (by decide)) (by omega)]
      exact unmapped w (by omega) high
  obtain ⟨k', heap', taken, proc', found, ready', supplied⟩ :=
    step_of_returns (.sbrk n) running alive returns
  exact ⟨_, proc', taken, found, ready', rfl, supplied.2⟩

end

/-! ## Every page in its place -/

section

variable {vm : Vm} {v : Nat} {pte : Pte} (guarded : vm.Guarded) (bound : v < topPage)
  (mapped : vm.entry v = some pte) (user : pte.user = true)
include guarded bound mapped user

theorem below_of_user : v < kernPage := by
  by_contra high
  rw [guarded v pte (not_lt.mp high) bound mapped] at user
  cases user

/-- A page that the user can reach is owned. -/
theorem count_pos_of_user : 0 < vm.count pte.page :=
  count_pos_of_entry (below_of_user guarded bound mapped user) mapped

end

/-- Two processes do not own the same page. -/
theorem Inv.count_alone {machine : Machine} {k : Kernel} {heap : Heap} (inv : Inv machine k heap)
    {p q : Pid} {proc proc' : Proc} (different : p ≠ q) (found : k.procs p = some proc)
    (found' : k.procs q = some proc') (page : Nat) : proc.count page + proc'.count page ≤ 1 := by
  have both := add_le_total (fun p => (k.procs p).elim 0 (Proc.count · page)) different
  simp only [found, found', Option.elim_some] at both
  have once := inv.places page
  rw [Kernel.outside, Kernel.owned] at once
  split at once <;> omega

/-- The first process after `sbrk` of one page. -/
theorem grown_ready : ∃ k proc, (system smallKernel 0).Reachable k ∧
    k.procs initproc = some proc ∧ Ready proc (2 * pgsize) := by
  obtain ⟨k, proc, booted, running, ready, supply⟩ := boot_ready smallKernel (by decide)
  obtain ⟨k', proc', taken, running', ready', -⟩ :=
    sbrk_ready smallKernel pgsize running ready (by decide) (by decide)
      (supply.mono (show 0 + _ + 512 ≤ 55293 by decide))
  exact ⟨k', proc', .step ⟨initproc, .sbrk pgsize, []⟩ (.init booted) trivial taken, running',
    ready'⟩

theorem pages_in_one_place (machine : Machine) (others : Nat) {k : Kernel}
    (reachable : (system machine others).Reachable k) :
    (∀ page, k.places page = if machine.managed page then 1 else 0) ∧
    ∀ p q proc proc', p ≠ q → k.procs p = some proc → k.procs q = some proc' →
      ∀ v w pte pte', v < topPage → w < topPage → proc.vm.entry v = some pte →
        proc'.vm.entry w = some pte' → pte.user = true → pte'.user = true →
          pte.page ≠ pte'.page := by
  have inv := reachable_inv reachable
  refine ⟨inv.places, ?_⟩
  intro p q proc proc' different found found' v w pte pte' bound bound' mapped mapped' user user' same
  have owned := count_pos_of_user (inv.guarded p proc found) bound mapped user
  have owned' := count_pos_of_user (inv.guarded q proc' found') bound' mapped' user'
  have alone := inv.count_alone different found found' pte.page
  rw [← same] at owned'
  simp only [Proc.count] at alone
  omega

theorem grown_process_pages_in_place :
    ∃ k proc, (system smallKernel 0).Reachable k ∧ k.procs initproc = some proc ∧
      proc.sz = 2 * pgsize ∧ ∀ page, k.places page = if smallKernel.managed page then 1 else 0 := by
  obtain ⟨k, proc, reachable, running, ready⟩ := grown_ready
  exact ⟨k, proc, reachable, running, ready.size, (pages_in_one_place smallKernel 0 reachable).1⟩

/-- A page that a user can reach is mapped below the kernel and is not free. -/
theorem user_pages_protected {machine : Machine} {others : Nat} {k : Kernel} {p : Pid} {proc : Proc}
    (reachable : (system machine others).Reachable k)
    (found : k.procs p = some proc) :
    proc.sz ≤ kernbase ∧ ∀ v pte, v < topPage → proc.vm.entry v = some pte → pte.user = true →
      v < kernPage ∧ machine.managed pte.page = true ∧ pte.page ∉ k.free ∧
        k.reserved pte.page = 0 := by
  have inv := reachable_inv reachable
  refine ⟨inv.sizes p proc found, fun v pte bound mapped user => ?_⟩
  have guarded := inv.guarded p proc found
  have positive := count_pos_of_user guarded bound mapped user
  have owned : proc.vm.count pte.page ≤ k.owned pte.page := by
    have least := le_total (fun p => (k.procs p).elim 0 (Proc.count · pte.page)) p
    simp only [found, Option.elim_some, Proc.count] at least
    exact (Nat.le_add_left ..).trans least
  have once : k.free.count pte.page + k.outside pte.page = _ := inv.places pte.page
  rw [Kernel.outside] at once
  split at once
  · refine ⟨below_of_user guarded bound mapped user, ‹_›, count_eq_zero.mp ?_, ?_⟩ <;> omega
  · omega

theorem grown_process_protected :
    ∃ k proc page, (system smallKernel 0).Reachable k ∧ k.procs initproc = some proc ∧
      proc.sz = 2 * pgsize ∧ proc.vm.entry 1 = some ⟨page, true⟩ ∧
      smallKernel.managed page = true ∧ page ∉ k.free ∧ k.reserved page = 0 := by
  obtain ⟨k, proc, reachable, running, ready⟩ := grown_ready
  obtain ⟨page, mapped⟩ := ready.mapped 1 (by decide)
  obtain ⟨-, managed, notFree, notReserved⟩ :=
    (user_pages_protected reachable running).2 1 _ (by decide) mapped rfl
  exact ⟨k, proc, page, reachable, running, ready.size, mapped, managed, notFree, notReserved⟩

end Laboratorio.Xv6.Mem
