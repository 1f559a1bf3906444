import Laboratorio.Xv6.Ftable.Counts
import Laboratorio.Xv6.Mem.Exec

/-! # Every page is in one place

`Kernel.places` counts where a page is: on the free list, in a process, in a pipe, or among
the pages taken at boot.  Every call keeps the count at one for the pages that the allocator
manages, whatever allocation fails.
-/

namespace Laboratorio.Xv6.Mem

open Laboratorio.Lib Laboratorio.Xv6.Ftable Function Table Option List Nat

/-- A process owns its kernel stack and its address space. -/
def Proc.count (proc : Proc) (page : Nat) : Nat := here proc.kstack page + proc.vm.count page

namespace Kernel

variable (k : Kernel)

/-- What the processes that are not `UNUSED` own. -/
def owned (page : Nat) : Nat := total fun p => (k.procs p).elim 0 (Proc.count · page)

/-- The pages taken at boot. -/
def reserved (page : Nat) : Nat := k.kpgdir.count page + k.cpuStacks.count page

def outside (page : Nat) : Nat := k.owned page + k.table.live page + k.reserved page

def places (page : Nat) : Nat := k.free.count page + k.outside page

end Kernel

/-- `heap` is the free list while a call runs. -/
structure Inv (machine : Machine) (k : Kernel) (heap : Heap) : Prop where
  places : ∀ page, heap.count page + k.outside page = if machine.managed page then 1 else 0
  sizes : ∀ p proc, k.procs p = some proc → proc.sz ≤ kernbase
  guarded : ∀ p proc, k.procs p = some proc → proc.vm.Guarded
  table : k.table.Exact []
  idle : ∀ p, (∀ proc, k.procs p = some proc → proc.zombie = true) →
    ∀ fd, k.table.ofile (p, fd) = none

section

variable {machine : Machine} {k : Kernel} {heap heap' : Heap} {p : Pid} {proc : Proc} {others : Nat}
  {table : Table Unit} {released : List (Released Unit)}

/-! ## Changes of the kernel's state -/

theorem procs_setProc_self (k : Kernel) (p : Pid) (proc : Option Proc) :
    (k.setProc p proc).procs p = proc :=
  update_self _ _ _

theorem owned_setProc (k : Kernel) (p : Pid) (proc : Option Proc) (page : Nat) :
    (k.setProc p proc).owned page + (k.procs p).elim 0 (Proc.count · page) =
      k.owned page + proc.elim 0 (Proc.count · page) :=
  total_update (fun _ proc => proc.elim 0 (Proc.count · page)) k.procs p proc

namespace Inv

theorem of_counts (inv : Inv machine k heap) (counts : ∀ page, heap'.count page = heap.count page) :
    Inv machine k heap' :=
  { inv with places := fun page => by rw [counts page]; exact inv.places page }

theorem setProc (inv : Inv machine k heap) {proc : Option Proc}
    (counts : ∀ page, heap'.count page + proc.elim 0 (Proc.count · page) =
      heap.count page + (k.procs p).elim 0 (Proc.count · page))
    (size : ∀ new, proc = some new → new.sz ≤ kernbase)
    (guard : ∀ new, proc = some new → new.vm.Guarded)
    (idle : (∀ new, proc = some new → new.zombie = true) → ∀ fd, k.table.ofile (p, fd) = none) :
    Inv machine (k.setProc p proc) heap' where
  places page := by
    have before := inv.places page
    have change := owned_setProc k p proc page
    have moved := counts page
    simp only [Kernel.outside] at before ⊢
    have table : (k.setProc p proc).table.live page = k.table.live page := rfl
    have reserved : (k.setProc p proc).reserved page = k.reserved page := rfl
    omega
  sizes q new found := by
    simp only [Kernel.setProc] at found
    induction q using update_cases with
    | own => exact size new found
    | others q _ => exact inv.sizes q new found
  guarded q new found := by
    simp only [Kernel.setProc] at found
    induction q using update_cases with
    | own => exact guard new found
    | others q _ => exact inv.guarded q new found
  table := inv.table
  idle q gone fd := by
    simp only [Kernel.setProc] at gone
    induction q using update_cases with
    | own => exact idle gone fd
    | others q _ => exact inv.idle q gone fd

theorem setSome (inv : Inv machine k heap)
    (counts : ∀ page, heap'.count page + proc.count page =
      heap.count page + (k.procs p).elim 0 (Proc.count · page))
    (size : proc.sz ≤ kernbase) (guard : proc.vm.Guarded)
    (idle : proc.zombie = true → ∀ fd, k.table.ofile (p, fd) = none) :
    Inv machine (k.setProc p (some proc)) heap' := by
  apply inv.setProc counts
  · rintro _ ⟨⟩
    exact size
  · rintro _ ⟨⟩
    exact guard
  · exact fun gone => idle (gone proc rfl)

theorem setTable (inv : Inv machine k heap)
    (running : k.procs p = some proc) (alive : proc.zombie = false)
    (counts : ∀ page, heap'.count page + table.live page = heap.count page + k.table.live page)
    (exact : table.Exact []) (others : Table.Others p k.table table) :
    Inv machine { k with table } heap' where
  places page := by
    have before := inv.places page
    have moved := counts page
    simp only [Kernel.outside] at before ⊢
    have owned : ({ k with table } : Kernel).owned page = k.owned page := rfl
    have reserved : ({ k with table } : Kernel).reserved page = k.reserved page := rfl
    omega
  sizes := inv.sizes
  guarded := inv.guarded
  table := exact
  idle q gone fd := by
    have different : q ≠ p := by
      intro same
      have zombie := gone proc (same ▸ running)
      rw [alive] at zombie
      cases zombie
    exact (others (q, fd) different).trans (inv.idle q gone fd)

theorem abandon (inv : Inv machine k heap) (p : Pid) : Inv machine (k.abandon p) heap where
  places page := by
    have same : (k.abandon p).owned page = k.owned page := by
      simp only [Kernel.owned, Kernel.abandon]
      congr 1
      funext q
      cases k.procs q with
      | none => rfl
      | some proc =>
        simp only [Option.map_some]
        split <;> rfl
    have outside : (k.abandon p).outside page = k.outside page := by
      simp only [Kernel.outside, same]
      rfl
    rw [outside]
    exact inv.places page
  sizes q new found := by
    obtain ⟨proc, before, same⟩ := Option.map_eq_some_iff.mp found
    have size := inv.sizes q proc before
    rw [← same]
    split <;> exact size
  guarded q new found := by
    obtain ⟨proc, before, same⟩ := Option.map_eq_some_iff.mp found
    have guard := inv.guarded q proc before
    rw [← same]
    split <;> exact guard
  table := inv.table
  idle q gone := by
    apply inv.idle q
    intro proc before
    have zombie := gone _ (Option.map_eq_some_iff.mpr ⟨proc, before, rfl⟩)
    split at zombie <;> exact zombie

theorem pipes_of_free (inv : Inv machine k heap) {page : Nat} (free : 0 < heap.count page) :
    k.table.pipes page = none := by
  have once := inv.places page
  simp only [Kernel.outside, live] at once
  cases found : k.table.pipes page with
  | none => rfl
  | some pipe =>
    rw [found, isSome_some, if_pos rfl] at once
    split at once <;> omega

end Inv

/-! ## The calls -/

theorem freePipes_spec :
    Ensures (freePipes machine released) heap fun _ heap' =>
      ∀ page, heap'.count page = heap.count page + released.count (.page page) := by
  induction released generalizing heap with
  | nil =>
    apply Ensures.pure
    exact fun _ => rfl
  | cons first rest ih =>
    cases first with
    | nothing =>
      apply Ensures.mono ih
      intro _ heap' ended page
      have other : (Released.nothing : Released Unit) ≠ .page page := nofun
      rw [ended page, count_cons_of_ne other]
    | inode ip =>
      apply Ensures.mono ih
      intro _ heap' ended page
      have other : Released.inode ip ≠ .page page := nofun
      rw [ended page, count_cons_of_ne other]
    | page freed =>
      apply Ensures.bind kfree_spec
      intro _ heap' freed'
      apply Ensures.mono ih
      intro _ heap'' ended page
      rw [ended page, freed' page, count_cons]
      simp only [here, beq_iff_eq, Released.page.injEq]
      omega

/-- The loop of `exit` empties the slots it has passed and leaves the others alone. -/
theorem closeFiles_spec {fds : List Fd} (exact : table.Exact []) :
    Ensures (closeFiles machine p fds table) heap fun table' heap' =>
      table'.Exact [] ∧
      (∀ page, heap'.count page + table'.live page = heap.count page + table.live page) ∧
      Table.Others p table table' ∧
      ∀ fd, fd ∈ fds ∨ table.ofile (p, fd) = none → table'.ofile (p, fd) = none := by
  induction fds generalizing table heap with
  | nil =>
    apply Ensures.pure
    refine ⟨exact, fun _ => rfl, fun _ _ => rfl, fun fd empty => ?_⟩
    exact empty.resolve_left not_mem_nil
  | cons fd rest ih =>
    rw [closeFiles]
    split
    case h_1 => exact .failure
    case h_2 released table' closed =>
      obtain ⟨exact', lets, slots⟩ := exact.closeSlot closed
      apply Ensures.bind freePipes_spec
      intro _ heap' freed
      apply Ensures.mono (ih exact')
      intro table'' heap'' ended
      obtain ⟨exact'', counts, others, emptied⟩ := ended
      refine ⟨exact'', fun page => ?_, fun slot other => ?_, fun fd' passed => ?_⟩
      · have given := freed page
        have moved := counts page
        have gone := lets.pipes page
        omega
      · rw [others slot other, slots]
        exact others_setSlot table fd none slot other
      · exact emptied fd' (passed_of_slots slots passed)

theorem fork_spec (inv : Inv machine k heap) (running : k.procs p = some proc) :
    Ensures (fork machine k p proc) heap (Inv machine) := by
  rw [fork]
  split
  case h_1 =>
    apply Ensures.pure
    exact inv
  case h_2 child found =>
    have unused : k.procs child = none := by
      have passes := List.find?_some found
      exact Option.isNone_iff_eq_none.mp passes
    apply Ensures.bind kalloc_spec
    intro result heap' taken
    cases result with
    | none =>
      apply Ensures.pure
      exact inv.of_counts taken
    | some kstack =>
      apply Ensures.bind (copyuvm_spec (inv.sizes p proc running))
      intro result heap'' copied
      cases result with
      | none =>
        apply Ensures.bind kfree_spec
        intro _ heap''' freed
        apply Ensures.pure
        refine inv.of_counts fun page => ?_
        have took := taken page
        have given := freed page
        have same := copied.1 page
        simp only [Option.elim_some, Option.elim_none] at took same
        omega
      | some vm =>
        dsimp only
        split
        case h_1 => exact Ensures.failure
        case h_2 table slots =>
          apply Ensures.pure
          have free : ∀ fd ∈ List.finRange nofile, k.table.ofile (child, fd) = none := by
            intro fd _
            refine inv.idle child (fun proc found => ?_) fd
            rw [unused] at found
            cases found
          obtain ⟨exact, lets, others⟩ :=
            inv.table.copySlots (List.nodup_finRange nofile) free slots
          -- the child is there first, then its descriptors
          have born : Inv machine (k.setProc child (some ⟨kstack, vm, proc.sz, p, false⟩)) heap'' := by
            refine inv.setSome (fun page => ?_) (inv.sizes p proc running) (copied.2 vm rfl) nofun
            have took := taken page
            have same := copied.1 page
            rw [unused]
            simp only [Option.elim_some, Option.elim_none, Proc.count] at took same ⊢
            omega
          refine born.setTable (procs_setProc_self k child _) rfl (fun page => ?_) exact others
          have same := lets.pipes page
          rw [List.count_nil, Nat.add_zero] at same
          show _ + _ = _ + k.table.live page
          rw [same]

section

variable (inv : Inv machine k heap) {proc : Proc} (running : k.procs p = some proc)
  (alive : proc.zombie = false)
include inv running alive

/-- Descriptors change, and the pages of the pipes they let go of are freed. -/
theorem release_spec
    (counts : ∀ page, heap'.count page + table.live page + released.count (.page page) =
      heap.count page + k.table.live page)
    (exact : table.Exact []) (others : Table.Others p k.table table) :
    Ensures (do
      freePipes machine released
      pure { k with table } : M Kernel) heap' (Inv machine) := by
  apply Ensures.bind freePipes_spec
  intro _ heap'' freed
  apply Ensures.pure
  refine inv.setTable running alive (fun page => ?_) exact others
  have given := freed page
  have moved := counts page
  omega

theorem sysExec_spec {image : Image} :
    Ensures (sysExec machine k p proc image) heap (Inv machine) := by
  rw [sysExec]
  split
  case isFalse =>
    apply Ensures.pure
    exact inv
  case isTrue =>
    apply Ensures.bind exec_spec
    intro result heap' made
    cases result with
    | none =>
      apply Ensures.pure
      exact inv.of_counts made.1
    | some pair =>
      obtain ⟨sz, vm⟩ := pair
      obtain ⟨size, guard⟩ := made.2 sz vm rfl
      apply Ensures.bind freevm_spec
      intro _ heap'' freed
      apply Ensures.pure
      refine inv.setSome (fun page => ?_) size guard fun zombie => nomatch alive.symm.trans zombie
      have took := made.1 page
      have given := freed page
      rw [running]
      simp only [Option.elim_some, Proc.count] at took ⊢
      omega

theorem Inv.reshape {vm : Vm} (reshaped : Reshaped proc.vm heap vm heap') {sz : Nat}
    (size : sz ≤ kernbase) : Inv machine (k.setProc p (some { proc with vm, sz })) heap' := by
  refine inv.setSome (fun page => ?_) size (reshaped.touches.guarded (inv.guarded p proc running))
    fun zombie => nomatch alive.symm.trans zombie
  have kept := reshaped.counts page
  rw [running]
  simp only [Option.elim_some, Proc.count]
  omega

theorem growproc_spec (n : Int) : Ensures (growproc machine k p proc n) heap (Inv machine) := by
  have bound := inv.sizes p proc running
  rw [growproc]
  split
  case isTrue =>
    apply Ensures.bind allocuvm_spec
    intro grown heap' ended
    apply Ensures.pure
    apply inv.reshape running alive ended.reshaped
    split
    case isTrue => exact bound
    case isFalse => exact ended.le_kernbase bound
  case isFalse =>
    split
    case isTrue =>
      apply Ensures.bind (deallocuvm_spec bound)
      intro shrunk heap' ended
      apply Ensures.pure
      apply inv.reshape running alive (ended.1.reshaped (pagesUp_le_kernPage bound))
      split
      case isTrue => exact bound
      case isFalse => exact ended.2.1 ▸ le_trans (min_le_left _ _) bound
    case isFalse =>
      apply Ensures.pure
      exact inv

theorem sysPipe_spec (fd : Nat) : Ensures (sysPipe machine k p proc fd) heap (Inv machine) := by
  rw [sysPipe]
  split
  case isTrue =>
    apply Ensures.pure
    exact inv
  case isFalse =>
    split
    case h_1 => exact .failure
    case h_2 released table noFile =>
      obtain ⟨exact, lets, slots⟩ := inv.table.reserve_none noFile
      refine release_spec inv running alive (fun page => ?_) exact fun slot _ => congrFun slots slot
      rw [add_assoc, ← lets.pipes page]
    case h_3 rf wf none' table files =>
      obtain ⟨-, exact, lets, slots, different, readKind, writeKind⟩ :=
        inv.table.reserve_some files
      apply Ensures.bind kalloc_spec
      intro result heap' taken
      cases result with
      | none =>
        dsimp only
        split
        case h_1 => exact .failure
        case h_2 released table' closed =>
          have swapped : table.Exact [rf, wf] := exact.perm (List.Perm.swap rf wf [])
          obtain ⟨exact', slots', lets'⟩ := swapped.closeBoth closed
          refine release_spec inv running alive (fun page => ?_) exact' fun slot _ => ?_
          · have took := taken page
            have gone := lets.pipes page
            have gone' := lets'.pipes page
            rw [count_nil] at gone
            rw [elim_none] at took
            omega
          · rw [slots', slots]
      | some page =>
        dsimp only
        split
        case h_1 => exact .failure
        case h_2 answer released table' attached =>
          -- the page came from the free list, so it is no pipe yet
          have noPipe : table.pipes page = none := by
            have took := taken page
            rw [elim_some, here, if_pos rfl] at took
            exact lets.pipes_none (inv.pipes_of_free (by omega))
          have connected := exact.connect noPipe different readKind writeKind
          obtain ⟨exact', lets', others⟩ := connected.attach attached
          refine release_spec inv running alive (fun page' => ?_) exact' fun slot other => ?_
          · have took := taken page'
            have gone := lets.pipes page'
            have gone' := lets'.pipes page'
            have live : (table.connect rf wf page).live page' = _ := live_connect noPipe page'
            rw [count_nil] at gone
            rw [elim_some, here] at took
            omega
          · rw [others slot other]
            exact congrFun slots slot

theorem sysClose_spec (fd : Nat) : Ensures (sysClose machine k p fd) heap (Inv machine) := by
  rw [sysClose]
  split
  case h_1 => exact .failure
  case h_2 released table closed =>
    obtain ⟨exact, lets, others⟩ := inv.table.close closed
    refine release_spec inv running alive (fun page => ?_) exact others
    rw [add_assoc, ← lets.pipes page]

theorem exit_spec : Ensures (exit machine k p proc) heap (Inv machine) := by
  rw [exit]
  split
  case isTrue => exact .failure
  case isFalse =>
    apply Ensures.bind (closeFiles_spec inv.table)
    intro table heap' ended
    obtain ⟨exact, counts, others, emptied⟩ := ended
    apply Ensures.pure
    have closed : Inv machine { k with table } heap' :=
      inv.setTable running alive counts exact others
    have dead : Inv machine
        (({ k with table } : Kernel).setProc p (some { proc with zombie := true })) heap' := by
      refine closed.setSome (fun page => ?_) (inv.sizes p proc running)
        (inv.guarded p proc running) fun _ fd => emptied fd (.inl (mem_finRange fd))
      rw [running]
      rfl
    exact dead.abandon p

end

theorem zombieChild_some {child : Pid} (found : k.zombieChild p = some (child, proc)) :
    k.procs child = some proc ∧ proc.zombie = true := by
  obtain ⟨q, _, passes⟩ := exists_of_findSome?_eq_some found
  obtain ⟨proc', before, passes⟩ := bind_eq_some_iff.mp passes
  split at passes
  case isFalse => cases passes
  case isTrue zombie =>
    cases passes
    exact ⟨before, zombie.2⟩

theorem wait_spec (inv : Inv machine k heap) : Ensures (wait machine k p) heap (Inv machine) := by
  rw [wait]
  split
  case h_1 child proc found =>
    obtain ⟨before, zombie⟩ := zombieChild_some found
    apply Ensures.bind kfree_spec
    intro _ heap' freed
    apply Ensures.bind freevm_spec
    intro _ heap'' emptied
    apply Ensures.pure
    apply inv.setProc
    case counts =>
      intro page
      have given := freed page
      have given' := emptied page
      rw [before]
      simp only [Option.elim_some, Option.elim_none, Proc.count]
      omega
    case size => exact nofun
    case guard => exact nofun
    case idle =>
      intro _
      apply inv.idle child
      intro proc' same
      rw [before] at same
      cases same
      exact zombie
  case h_2 =>
    split
    case isTrue => exact Ensures.failure
    case isFalse =>
      apply Ensures.pure
      exact inv

/-! ## Boot -/

theorem freerange_spec {count first : Nat} :
    Ensures (freerange machine count first) heap fun _ heap' =>
      ∀ page, heap'.count page = heap.count page +
        if first ≤ page ∧ page < first + count then 1 else 0 := by
  induction count generalizing first heap with
  | zero =>
    apply Ensures.pure
    intro page
    rw [if_neg (by omega), add_zero]
  | succ count ih =>
    apply Ensures.bind kfree_spec
    intro _ heap' freed
    apply Ensures.mono ih
    intro _ heap'' ended page
    rw [ended page, freed page, here]
    split_ifs <;> omega

theorem takeStacks_spec : Ensures (takeStacks others) heap fun cpuStacks heap' =>
    ∀ page, heap'.count page + cpuStacks.count page = heap.count page := by
  induction others generalizing heap with
  | zero =>
    apply Ensures.pure
    exact fun _ => rfl
  | succ others ih =>
    apply Ensures.bind kalloc_spec
    intro result heap' taken
    cases result with
    | none => exact .failure
    | some stack =>
      apply Ensures.bind ih
      intro rest heap'' ended
      apply Ensures.pure
      intro page
      have took := taken page
      have after := ended page
      rw [count_cons]
      simp only [elim_some, here, beq_iff_eq] at took ⊢
      omega

theorem userinit_spec : Ensures (userinit machine) heap fun proc heap' =>
    (∀ page, heap'.count page + proc.count page = heap.count page) ∧
      proc.sz ≤ kernbase ∧ proc.vm.Guarded ∧ proc.zombie = false := by
  apply Ensures.bind kalloc_spec
  intro result heap₁ stack
  cases result with
  | none => exact Ensures.failure
  | some kstack =>
    apply Ensures.bind setupkvm_spec
    intro result heap₂ made
    cases result with
    | none => exact Ensures.failure
    | some vm =>
      apply Ensures.bind kalloc_spec
      intro result heap₃ user
      cases result with
      | none => exact Ensures.failure
      | some mem =>
        simp only [mappages_one]
        apply Ensures.bind (mapPage_spec (by decide))
        intro mapped heap₄ placed
        split
        case isFalse => exact Ensures.failure
        case isTrue success =>
          apply Ensures.pure
          have touches : Touches (· < kernPage) vm mapped.2 :=
            placed.touches.mono fun w same => by rw [same]; decide
          refine ⟨fun page => ?_, show pgsize ≤ kernbase by decide,
            touches.guarded (made.2 vm rfl).guarded, rfl⟩
          have first := stack page
          have second := made.1 page
          have last := placed.counts_taken user success (by decide) page
          simp only [Option.elim_some, Proc.count] at first second ⊢
          omega

theorem main_spec : Ensures (main machine others) ⟨[], []⟩ fun result heap' =>
    (∀ page, heap'.count page + result.2.2.count page + result.1.count page +
      result.2.1.count page = if machine.managed page then 1 else 0) ∧
      result.2.2.sz ≤ kernbase ∧ result.2.2.vm.Guarded ∧ result.2.2.zombie = false := by
  apply Ensures.bind freerange_spec
  intro _ heap₁ low
  apply Ensures.bind setupkvm_spec
  intro result heap₂ made
  cases result with
  | none => exact .failure
  | some kpgdir =>
    apply Ensures.bind takeStacks_spec
    intro cpuStacks heap₃ taken
    apply Ensures.bind freerange_spec
    intro _ heap₄ high
    apply Ensures.bind userinit_spec
    intro proc heap₅ user
    apply Ensures.pure
    refine ⟨fun page => ?_, user.2⟩
    have first := low page
    have second := made.1 page
    have third := taken page
    have fourth := high page
    have last := user.1 page
    have empty : Heap.count ⟨[], []⟩ page = 0 := rfl
    have below := machine.low
    have stop : nptentries ≤ stopPage := by decide
    simp only [elim_some] at second
    simp only [Machine.managed, Bool.and_eq_true, decide_eq_true_eq]
    split_ifs at first fourth ⊢ <;> omega

theorem boot_inv (booted : boot machine others = some k) : Inv machine k ⟨k.free, []⟩ := by
  simp only [boot] at booted
  split at booted
  case h_1 => cases booted
  case h_2 kpgdir cpuStacks proc heap ended =>
    cases booted
    obtain ⟨counts, size, guard, alive⟩ := main_spec.of_run _ _ ended
    have only : ∀ p new, (if p = initproc then some proc else none) = some new → new = proc := by
      intro p new found
      obtain ⟨-, rfl⟩ := of_guard found
      rfl
    constructor
    case places =>
      intro page
      have owned : (total fun p : Pid =>
          (if p = initproc then some proc else none).elim 0 (Proc.count · page)) =
          proc.count page := by
        have update := total_update (fun _ : Pid => fun proc : Option Proc =>
          proc.elim 0 (Proc.count · page)) (fun _ => none) initproc (some proc)
        have none : (total fun _ : Pid => (Option.none : Option Proc).elim 0 (Proc.count · page)) = 0 :=
          total_eq_zero fun _ => rfl
        rw [none] at update
        simp only [Nat.zero_add,
          update_apply] at update
        exact update
      have live : (Table.empty Unit).live page = 0 := rfl
      have count := counts page
      simp only [Kernel.outside, Kernel.owned, Kernel.reserved]
      simp only [Heap.count] at count ⊢
      omega
    case sizes =>
      intro p new found
      rw [only p new found]
      exact size
    case guarded =>
      intro p new found
      rw [only p new found]
      exact guard
    case table => exact Table.exact_empty
    case idle => exact fun _ _ _ => rfl

/-! ## Runs -/

theorem call_spec (inv : Inv machine k heap) (running : k.procs p = some proc)
    (alive : proc.zombie = false) {made : Call} :
    Ensures (call machine k p proc made) heap (Inv machine) := by
  cases made with
  | fork => exact fork_spec inv running
  | exec image => exact sysExec_spec inv running alive
  | sbrk n => exact growproc_spec inv running alive n
  | pipe fd => exact sysPipe_spec inv running alive fd
  | close fd => exact sysClose_spec inv running alive fd
  | exit => exact exit_spec inv running alive
  | wait => exact wait_spec inv

theorem step_inv {label : Label} {k' : Kernel} (inv : Inv machine k ⟨k.free, []⟩)
    (taken : step machine k label = some k') :
    Inv machine k' ⟨k'.free, []⟩ := by
  simp only [step] at taken
  split at taken
  case h_1 => cases taken
  case h_2 proc running =>
    obtain ⟨alive, taken⟩ := ite_none_left_eq_some.mp taken
    split at taken
    case h_1 => cases taken
    case h_2 k'' heap' ended =>
      cases taken
      have begun : Inv machine k ⟨k.free, label.fails⟩ := inv.of_counts fun _ => rfl
      have after := (call_spec begun running (by simpa using alive)).of_run _ _ ended
      exact ⟨after.places, after.sizes, after.guarded, after.table, after.idle⟩

theorem reachable_inv (reachable : (system machine others).Reachable k) :
    Inv machine k ⟨k.free, []⟩ := by
  induction reachable with
  | init booted => exact boot_inv booted
  | step label _ _ taken ih => exact step_inv ih taken

end

end Laboratorio.Xv6.Mem
