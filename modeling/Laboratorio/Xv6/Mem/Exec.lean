import Laboratorio.Xv6.Mem.AddressSpace

/-! # Exec

Whatever the file and the arguments are, `exec` takes every page of the new image from the free
list, and gives all of them back when it fails.
-/

namespace Laboratorio.Xv6.Mem

open Laboratorio.Lib Nat

section

variable {image : Image} {machine : Machine} {heap : Heap} {vm : Vm}

theorem loadSegments_spec {segments : List Segment} {sz : Nat} (bound : sz ≤ kernbase) :
    Ensures (loadSegments machine segments vm sz) heap fun loaded heap' =>
      Reshaped vm heap loaded.2 heap' ∧ ∀ sz', loaded.1 = some sz' → sz' ≤ kernbase := by
  induction segments generalizing vm sz heap with
  | nil =>
    apply Ensures.pure
    refine ⟨.refl, fun sz' same => ?_⟩
    cases same
    exact bound
  | cons segment rest ih =>
    have stops : Ensures (pure (none, vm) : M (Option Nat × Vm)) heap fun loaded heap' =>
        Reshaped vm heap loaded.2 heap' ∧ ∀ sz', loaded.1 = some sz' → sz' ≤ kernbase :=
      Ensures.pure ⟨.refl, nofun⟩
    rw [loadSegments]
    split
    case isTrue => exact stops
    case isFalse =>
      split
      case isTrue => exact ih bound
      case isFalse =>
        split
        case isTrue => exact stops
        case isFalse =>
          split
          case isTrue => exact stops
          case isFalse =>
            apply Ensures.bind allocuvm_spec
            intro grown heap' ended
            have reshaped := ended.reshaped
            split
            case isTrue =>
              apply Ensures.pure
              exact ⟨reshaped, nofun⟩
            case isFalse =>
              split
              case isTrue =>
                apply Ensures.pure
                exact ⟨reshaped, nofun⟩
              case isFalse =>
                apply Ensures.lift
                intro loaded
                split
                case isFalse =>
                  apply Ensures.pure
                  exact ⟨reshaped, nofun⟩
                case isTrue =>
                  apply Ensures.mono (ih (ended.le_kernbase bound))
                  intro loaded heap'' after
                  exact ⟨reshaped.trans after.1, after.2⟩

theorem reshaped_guard {guard : Nat} {pte : Pte} (low : guard < kernPage)
    (mapped : vm.entry guard = some pte) :
    Reshaped vm heap (vm.setEntry guard (some { pte with user := false })) heap := by
  have inTop : guard < topPage := lt_of_lt_of_le low (by decide)
  constructor
  case counts =>
    intro f
    have change := count_setEntry_user (some { pte with user := false }) low
      (present_of_entry mapped) f
    rw [mapped] at change
    simp only [Pte.count, Option.elim_some] at change
    omega
  case touches =>
    have only : Touches (· = guard) vm (vm.setEntry guard (some { pte with user := false })) :=
      .setEntry inTop
    exact only.mono fun w same => by omega

theorem buildImage_spec :
    Ensures (buildImage machine image vm) heap fun built heap' =>
      Reshaped vm heap built.2 heap' ∧ ∀ sz, built.1 = some sz → sz ≤ kernbase := by
  apply Ensures.bind (loadSegments_spec (zero_le _))
  intro loaded heap' ended
  obtain ⟨reshaped, sized⟩ := ended
  split
  case h_1 =>
    apply Ensures.pure
    exact ⟨reshaped, by rintro _ ⟨⟩⟩
  case h_2 sz found =>
    have inUser : pagesUp sz ≤ kernPage := pagesUp_le_kernPage (sized sz found)
    have topBound : pagesUp sz * pgsize ≤ kernbase := by
      rw [kernPage_eq] at inUser
      simp only [pgsize, kernbase]
      omega
    apply Ensures.bind allocuvm_spec
    intro stacked heap'' ended
    have stackBound := ended.le_kernbase topBound
    have together := reshaped.trans ended.reshaped
    split
    case isTrue =>
      apply Ensures.pure
      exact ⟨together, by rintro _ ⟨⟩⟩
    case isFalse =>
      dsimp only
      split
      case h_1 => exact .failure
      case h_2 pte mapped =>
        have inKernbase : stacked.1 / pgsize - 2 < kernPage := by
          rw [kernPage_eq]
          simp only [kernbase] at stackBound
          simp only [pgsize]
          omega
        have guarded := together.trans (reshaped_guard inKernbase mapped)
        apply Ensures.lift
        intro pushed
        apply Ensures.pure
        refine ⟨guarded, fun sz' same => ?_⟩
        cases pushed with
        | true =>
          cases same
          exact stackBound
        | false => cases same

theorem exec_spec :
    Ensures (exec machine image) heap fun result heap' =>
      (∀ f, heap'.count f + result.elim 0 (fun made => made.2.count f) = heap.count f) ∧
        ∀ sz vm, result = some (sz, vm) → sz ≤ kernbase ∧ vm.Guarded := by
  rw [exec]
  split
  case isTrue =>
    apply Ensures.pure
    exact ⟨fun _ => rfl, nofun⟩
  case isFalse =>
    apply Ensures.bind setupkvm_spec
    intro result heap' made
    cases result with
    | none =>
      apply Ensures.pure
      exact ⟨made.1, nofun⟩
    | some vm =>
      have fresh := made.2 vm rfl
      apply Ensures.bind buildImage_spec
      intro built heap'' ended
      obtain ⟨reshaped, sized⟩ := ended
      split
      case h_1 =>
        apply Ensures.bind freevm_spec
        intro _ heap''' freed
        apply Ensures.pure
        refine ⟨fun f => ?_, nofun⟩
        have took := made.1 f
        have kept := reshaped.counts f
        have given := freed f
        simp only [Option.elim_some, Option.elim_none] at took ⊢
        omega
      case h_2 sz found =>
        apply Ensures.pure
        refine ⟨fun f => (reshaped.counts f).trans (made.1 f), fun sz' vm' same => ?_⟩
        cases same
        exact ⟨sized sz found, reshaped.touches.guarded fresh.guarded⟩

end

end Laboratorio.Xv6.Mem
