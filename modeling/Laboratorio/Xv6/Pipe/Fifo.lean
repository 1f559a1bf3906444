import Laboratorio.Xv6.Pipe.Model

/-! # Pipes are FIFO byte channels

`ChannelStep` says once what a step can do to the bytes of the pipe: nothing,
store one byte in a pipe that is not full, or copy one byte out of a pipe that is
not empty.  `Channel` is the invariant: the bytes accepted are the bytes handed to
readers followed by those that `data` holds between the two wrapping counters
(`Ring.Holds`).
-/

namespace Laboratorio.Xv6.Pipes

open Laboratorio.Lib Kernel List

variable {kernel next : Kernel} {pid : Pid} {addr : List UInt8}

/-- The part of the kernel that the bytes of the pipe live in. -/
def Kernel.bytes (kernel : Kernel) :
    (Fin pipeSize → UInt8) × UInt32 × UInt32 × List UInt8 × List UInt8 :=
  (kernel.pipe.data, kernel.pipe.nread, kernel.pipe.nwrite, kernel.accepted, kernel.handed)

/-- The bytes accepted and not yet handed out, oldest first. -/
def Kernel.unread (kernel : Kernel) : List UInt8 :=
  kernel.accepted.drop kernel.handed.length

structure Channel (kernel : Kernel) : Prop where
  ordered : kernel.handed <+: kernel.accepted
  ring : Ring.Holds kernel.pipe.data kernel.pipe.nread kernel.pipe.nwrite kernel.unread

theorem pipeSize_dvd : pipeSize ∣ 2 ^ 32 := by decide

theorem pipeSize_lt : pipeSize < 2 ^ 32 := by decide

theorem Channel.accepted_eq (channel : Channel kernel) :
    kernel.accepted = kernel.handed ++ kernel.unread :=
  (prefix_iff_eq_append.mp channel.ordered).symm

theorem Channel.store (channel : Channel kernel) (byte : UInt8)
    (notFull : kernel.pipe.full = false) : Channel (kernel.store byte) := by
  have room : kernel.unread.length < pipeSize := by
    have fits := channel.ring.fits
    have full := channel.ring.full_iff pipeSize_lt
    simp only [Pipe.full, beq_eq_false_iff_ne] at notFull
    have : kernel.unread.length ≠ pipeSize := fun filled => notFull (full.mpr filled)
    omega
  constructor
  · exact channel.ordered.trans (List.prefix_append _ _)
  · have appended : (kernel.store byte).unread = kernel.unread ++ [byte] := by
      have shorter := channel.ordered.length_le
      simp only [Kernel.unread, Kernel.store]
      rw [List.drop_append_of_le_length shorter]
    rw [appended]
    exact channel.ring.push pipeSize_dvd room byte

theorem Channel.take (channel : Channel kernel)
    (notEmpty : kernel.pipe.empty = false) : Channel kernel.take.2 := by
  have some_unread : kernel.unread ≠ [] := by
    simp only [Pipe.empty, beq_eq_false_iff_ne] at notEmpty
    exact fun none => notEmpty ((channel.ring.empty_iff pipeSize_lt).mpr none)
  obtain ⟨byte, rest, unread⟩ := exists_cons_of_ne_nil some_unread
  have ring := channel.ring
  rw [unread] at ring
  have copied : kernel.pipe.data (Ring.slot pipeSize kernel.pipe.nread) = byte := ring.head
  have accepted : kernel.accepted = kernel.handed ++ (byte :: rest) := by
    rw [← unread]
    exact channel.accepted_eq
  constructor
  · simp only [Kernel.take, copied, accepted]
    exact ⟨rest, by simp⟩
  · have remaining : kernel.take.2.unread = rest := by
      simp [Kernel.unread, Kernel.take, accepted]
    rw [remaining]
    exact ring.pop

end Laboratorio.Xv6.Pipes
