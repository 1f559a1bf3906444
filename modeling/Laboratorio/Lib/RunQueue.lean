import Mathlib.Data.List.Basic
import Mathlib.Data.List.Nodup

/-! # Cooperative jobs in a queue

The job at the front of the queue takes its next turn and goes to the back; a job that has
had all its turns leaves.  `Serves turns queue trace` says that serving the queue until it
is empty takes exactly the turns of `trace`, in that order.  Jobs that enter together are
served in rounds (`serves_rounds`).
-/

namespace Laboratorio.Lib

open List

variable {Job : Type}

/-- A queue of jobs, each with the number of turns it has had. -/
abbrev RunQueue (Job : Type) := List (Job × Nat)

inductive Serves (turns : Nat) : RunQueue Job → List (Job × Nat) → Prop
  | done : Serves turns [] []
  | turn {job : Job} {had : Nat} {rest : RunQueue Job} {trace : List (Job × Nat)} :
      had < turns → Serves turns (rest ++ [(job, had + 1)]) trace →
      Serves turns ((job, had) :: rest) ((job, had) :: trace)
  | leave {job : Job} {rest : RunQueue Job} {trace : List (Job × Nat)} :
      Serves turns rest trace → Serves turns ((job, turns) :: rest) trace

/-- Turn `j` of every job, in their order, before turn `j + 1` of any. -/
def rounds (jobs : List Job) (turns : Nat) : List (Job × Nat) :=
  (List.range turns).flatMap fun j => jobs.map fun job => (job, j)

/-- The rest of a round: `waiting` have still to take turn `had`, `served` have taken it. -/
theorem Serves.round {turns had : Nat} (before : had < turns) (waiting served : List Job)
    {trace : List (Job × Nat)}
    (next : Serves turns ((served ++ waiting).map fun job => (job, had + 1)) trace) :
    Serves turns ((waiting.map fun job => (job, had)) ++ served.map fun job => (job, had + 1))
      ((waiting.map fun job => (job, had)) ++ trace) := by
  induction waiting generalizing served with
  | nil => simpa using next
  | cons job waiting ih =>
    have rest := ih (served ++ [job]) (by simpa using next)
    apply Serves.turn before
    simpa using rest

theorem serves_leaving (turns : Nat) (jobs : List Job) :
    Serves turns (jobs.map fun job => (job, turns)) [] := by
  induction jobs with
  | nil => exact .done
  | cons job jobs ih => exact .leave ih

theorem serves_rounds_from (turns : Nat) (jobs : List Job) (left had : Nat)
    (total : had + left = turns) :
    Serves turns (jobs.map fun job => (job, had))
      ((List.range' had left).flatMap fun j => jobs.map fun job => (job, j)) := by
  induction left generalizing had with
  | zero =>
    have all : had = turns := by omega
    subst all
    exact serves_leaving had jobs
  | succ left ih =>
    have later := ih (had + 1) (by omega)
    have before : had < turns := by omega
    have round := Serves.round before jobs [] (by simpa using later)
    simpa [range'_succ] using round

/-- Jobs that enter together are served in rounds. -/
theorem serves_rounds (jobs : List Job) (turns : Nat) :
    Serves turns (jobs.map fun job => (job, 0)) (rounds jobs turns) := by
  have served := serves_rounds_from turns jobs turns 0 (by omega)
  rwa [← range_eq_range'] at served

theorem rounds_filter [DecidableEq Job] {jobs : List Job} (distinct : jobs.Nodup) {job : Job}
    (mem : job ∈ jobs) (turns : Nat) :
    ((rounds jobs turns).filter fun served => served.1 = job).map Prod.snd =
      List.range turns := by
  have once : ∀ j : Nat,
      (jobs.map fun other => (other, j)).filter (fun served => served.1 = job) = [(job, j)] := by
    intro j
    rw [filter_map]
    have single : jobs.filter (fun other => other = job) = [job] := by
      rw [filter_eq, count_eq_one_of_mem distinct mem, replicate_one]
    simpa [Function.comp_def] using congrArg (map fun other => (other, j)) single
  simp only [rounds, filter_flatMap, map_flatMap, once]
  simp

end Laboratorio.Lib
