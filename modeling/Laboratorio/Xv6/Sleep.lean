import Laboratorio.Lib.Table

/-! # How a process sleeps

What `sleep`, `wakeup1` and `kill` of `proc.c` do to the fields `state` and `chan` of one
process.  The models of the process table, of the scheduler, of the pipe and of the sleep lock
add the fields that they need; `Chan` is what their processes may sleep on.  Where other steps
may come between the two assignments of `sleep`, a model makes them one by one.
-/

namespace Laboratorio.Xv6

inductive ProcState
  | unused
  | embryo
  | sleeping
  | runnable
  | running
  | zombie
  deriving DecidableEq, Repr

/-- The states of a process that `wait` does not free and `allocproc` does not take. -/
def ProcState.live : ProcState → Bool
  | .sleeping | .runnable | .running => true
  | .unused | .embryo | .zombie => false

/-- A process that `fork` has finished: live or `ZOMBIE`. -/
def ProcState.grown (state : ProcState) : Prop :=
  state.live = true ∨ state = .zombie

structure Sleeper (Chan : Type) where
  state : ProcState
  chan : Option Chan
  deriving DecidableEq, Repr

namespace Sleeper

variable {Chan : Type} {proc : Sleeper Chan}

def sleep (chan : Chan) : Sleeper Chan :=
  ⟨.sleeping, some chan⟩

def kill (proc : Sleeper Chan) : Sleeper Chan :=
  if proc.state = .sleeping then { proc with state := .runnable } else proc

theorem kill_awake : proc.kill.state ≠ .sleeping := by
  unfold kill
  split
  · exact nofun
  · assumption

theorem kill_state : proc.kill.state = proc.state ∨
    proc.state = .sleeping ∧ proc.kill.state = .runnable := by
  unfold kill
  split
  · rename_i asleep
    exact .inr ⟨asleep, rfl⟩
  · exact .inl rfl

theorem kill_state_iff (state : ProcState) (stays : .sleeping ≠ state ∧ .runnable ≠ state) :
    proc.kill.state = state ↔ proc.state = state := by
  rcases proc.kill_state with same | ⟨sleeping, runnable⟩
  · rw [same]
  · rw [sleeping, runnable]
    exact iff_of_false stays.2 stays.1

variable [DecidableEq Chan] {chan : Option Chan}

/-- One round of the loop of `wakeup1(chan)`. -/
def wakeup1 (proc : Sleeper Chan) (chan : Option Chan) : Sleeper Chan :=
  if proc.state = .sleeping ∧ proc.chan = chan then { proc with state := .runnable } else proc

@[simp]
theorem wakeup1_chan : (proc.wakeup1 chan).chan = proc.chan := by
  unfold wakeup1
  split <;> rfl

theorem wakeup1_state : (proc.wakeup1 chan).state = proc.state ∨
    proc.state = .sleeping ∧ (proc.wakeup1 chan).state = .runnable := by
  unfold wakeup1
  split
  · rename_i asleep
    exact .inr ⟨asleep.1, rfl⟩
  · exact .inl rfl

/-- Whoever is still asleep sleeps on something else. -/
theorem asleep_of_wakeup1 (asleep : (proc.wakeup1 chan).state = .sleeping) :
    proc.state = .sleeping ∧ proc.chan ≠ chan := by
  unfold wakeup1 at asleep
  split at asleep
  · cases asleep
  · rename_i other
    exact ⟨asleep, fun same => other ⟨asleep, same⟩⟩

end Sleeper

end Laboratorio.Xv6
