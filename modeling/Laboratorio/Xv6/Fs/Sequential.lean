import Laboratorio.Xv6.Fs.Model

/-! # One call after the other

The file system while only one call is under way at a time: a step is a call of some process,
from its beginning to its end.  A call that panics, or that waits for ever, has no step.
-/

namespace Laboratorio.Xv6.Fs

open Laboratorio.Lib

structure Machine where
  kernel : Kernel
  locks : Inum → Option Pid

structure Label where
  pid : Pid
  call : Call

/-- A page that `kalloc` returns is not a pipe already. -/
def Call.possible (k : Kernel) : Call → Bool
  | .pipe (some page) => (k.table.pipes page).isNone
  | _ => true

def completed (m : Machine) (label : Label) : Option Machine :=
  if (m.kernel.procs label.pid).isSome && label.call.possible m.kernel then
    match (program label.pid label.call).exec label.pid m.kernel m.locks with
    | .done _ kernel locks => some ⟨kernel, locks⟩
    | .panicked _ => none
    | .blocked => none
  else none

def Files.sequential (files : Files) : System Machine Label where
  init m := m = ⟨files.boot, fun _ => none⟩
  step := completed

theorem completed_cases {m m' : Machine} {label : Label} (taken : completed m label = some m') :
    m.kernel.procs label.pid ≠ none ∧ label.call.possible m.kernel = true ∧
      ∃ result, (program label.pid label.call).exec label.pid m.kernel m.locks =
        .done result m'.kernel m'.locks := by
  obtain ⟨enabled, taken⟩ := Option.ite_none_right_eq_some.mp taken
  obtain ⟨alive, possible⟩ := Bool.and_eq_true_iff.mp enabled
  split at taken
  case h_1 result kernel locks ended =>
    cases taken
    exact ⟨Option.isSome_iff_ne_none.mp alive, possible, result, ended⟩
  case h_2 => cases taken
  case h_3 => cases taken

end Laboratorio.Xv6.Fs
