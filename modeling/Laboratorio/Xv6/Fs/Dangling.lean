import Laboratorio.Xv6.Fs.LinkCounts

/-! # Entries name allocated inodes

A removed directory keeps its `..`, and a process that still works in it can read it.  As long
as no directory is removed from above another removed one, and no directory is made in a
removed one, `..` leads to an allocated directory, and so do all other entries.
-/

namespace Laboratorio.Xv6.Fs

open Laboratorio.Lib

/-- The inodes that a path lookup of some process, or the holder of an open file, can get to. -/
inductive Readable (k : Kernel) : Inum → Prop
  | root : Readable k rootIno
  | cwd {p : Pid} {i : Inum} : k.cwd p = some i → Readable k i
  | file {f : FileIndex} {i : Inum} : (k.table.files f).kind = .inode i → Readable k i
  | entry {i : Inum} {inode : Inode} {entry : Dirent} : Readable k i → k.dinodes i = some inode →
      some entry ∈ inode.slots → Readable k entry.inum

/-- No directory is made in a removed one, and none is removed that is `..` of another removed
one. -/
def LeavesParents (m : Machine) (label : Label) : Prop :=
  match label.call with
  | .mkdir path => m.kernel.addsToRemoved label.pid path = false
  | .unlink path => m.kernel.removesAbove label.pid path = false
  | _ => True

instance (m : Machine) (label : Label) : Decidable (LeavesParents m label) := by
  unfold LeavesParents
  split <;> infer_instance

theorem LeavesParents.permitted {m : Machine} {label : Label} (leaves : LeavesParents m label) :
    Permitted false true m.kernel label.pid label.call := by
  rw [LeavesParents] at leaves
  cases called : label.call with
  | mkdir path =>
    rw [called] at leaves
    exact leaves
  | unlink path =>
    rw [called] at leaves
    exact fun _ => leaves
  | «open» path omode => exact nofun
  | mknod path major => exact nofun
  | link old new => exact nofun
  | _ => trivial

theorem allocated_of_readable {k : Kernel} (settled : Settled k) (tidy : Tidy false true none k)
    {i : Inum} (readable : Readable k i) : ∃ inode, k.dinodes i = some inode := by
  have dots := tidy.sound.dots rfl
  cases readable with
  | root =>
    obtain ⟨root, found, -⟩ := tidy.sound.links.root
    exact ⟨root, found⟩
  | cwd home =>
    exact Option.isSome_iff_exists.mp (tidy.cached.pinned rfl i (settled.exact.cwd_referred home))
  | @file f _ kind =>
    have count := settled.exact i
    have one := le_sum (fun f => if (k.table.files f).kind = .inode i then 1 else 0) f
    simp only [kind, if_true] at one
    rw [Ftable.Table.inodes] at count
    exact Option.isSome_iff_exists.mp (tidy.cached.pinned rfl i (by omega))
  | entry _ found member => exact dots.targets tidy.sound.links found member

theorem no_dangling_entry (files : Files) {m : Machine}
    (reachable : files.sequential.ReachableWhen LeavesParents m) :
    (∀ i, Readable m.kernel i → ∃ inode, m.kernel.dinodes i = some inode ∧
      ∀ entry, some entry ∈ inode.slots → (m.kernel.dinodes entry.inum).isSome = true) ∧
    ∀ label, m.kernel.procs label.pid ≠ none → LeavesParents m label →
      (program label.pid label.call).exec label.pid m.kernel m.locks ≠ .panicked .ilockNoType := by
  have tidy : Tidy false true none m.kernel :=
    reachable_tidy (reachable.mono fun _ _ leaves => leaves.permitted)
  have settled := reachable_settled (reachable.mono fun _ _ _ => trivial)
  constructor
  · intro i readable
    obtain ⟨inode, found⟩ := allocated_of_readable settled tidy readable
    refine ⟨inode, found, fun entry member => ?_⟩
    obtain ⟨target, targetFound⟩ := (tidy.sound.dots rfl).targets tidy.sound.links found member
    rw [targetFound]
    rfl
  · intro label alive leaves ended
    have runs := program_tidy settled alive tidy leaves.permitted
    exact runs.panicked ended rfl rfl

/-- `mkdir d`, `chdir d`, `unlink ../d`: `..` of the removed directory is the root. -/
theorem removed_directory_keeps_parent :
    ∃ m, noFiles.sequential.ReachableWhen LeavesParents m ∧
      m.kernel.cwd initproc = some ⟨2, by decide⟩ ∧
      ∃ inode, m.kernel.dinodes ⟨2, by decide⟩ = some inode ∧ inode.nlink = 0 ∧
        ∀ entry, some entry ∈ inode.slots → (m.kernel.dinodes entry.inum).isSome = true := by
  have ran : ∃ m ∈ noFiles.sequential.runWhen LeavesParents ⟨noFiles.boot, fun _ => none⟩
      [⟨initproc, .mkdir [100]⟩, ⟨initproc, .chdir [100]⟩, ⟨initproc, .unlink [46, 46, 47, 100]⟩],
      m.kernel.cwd initproc = some ⟨2, by decide⟩ ∧
        ∃ inode ∈ m.kernel.dinodes ⟨2, by decide⟩, inode.nlink = 0 := by
    decide +kernel
  obtain ⟨m, reachable, isHome, inode, found, count⟩ :=
    System.ReachableWhen.exists_of_runWhen (.init rfl) ran
  obtain ⟨inode', found', targets⟩ := (no_dangling_entry noFiles reachable).1 _ (.cwd isHome)
  obtain rfl : inode = inode' := Option.some.inj (found.symm.trans found')
  exact ⟨m, reachable, isHome, inode, found, count, targets⟩

/-- `mkdir a`, `mkdir a/b`, `chdir a/b`, `unlink /a/b`, `unlink /a`: `..` of the current directory
names a free inode, and `open ..` panics. -/
theorem parent_of_removed_freed :
    ∃ m, noFiles.sequential.Reachable m ∧
      (Readable m.kernel ⟨3, by decide⟩ ∧
        ∃ inode, m.kernel.dinodes ⟨3, by decide⟩ = some inode ∧
          some ⟨dotDot, ⟨2, by decide⟩⟩ ∈ inode.slots ∧ m.kernel.dinodes ⟨2, by decide⟩ = none) ∧
      (program initproc (.open [46, 46] 0)).exec initproc m.kernel m.locks =
        .panicked .ilockNoType := by
  have ran : ∃ m ∈ noFiles.sequential.runWhen (fun _ _ => True) ⟨noFiles.boot, fun _ => none⟩
      [⟨initproc, .mkdir [97]⟩, ⟨initproc, .mkdir [97, 47, 98]⟩, ⟨initproc, .chdir [97, 47, 98]⟩,
        ⟨initproc, .unlink [47, 97, 47, 98]⟩, ⟨initproc, .unlink [47, 97]⟩],
      m.kernel.cwd initproc = some ⟨3, by decide⟩ ∧ (∃ inode ∈ m.kernel.dinodes ⟨3, by decide⟩,
        some ⟨dotDot, ⟨2, by decide⟩⟩ ∈ inode.slots) ∧ m.kernel.dinodes ⟨2, by decide⟩ = none ∧
        (match (program initproc (.open [46, 46] 0)).exec initproc m.kernel m.locks with
          | .panicked reason => decide (reason = .ilockNoType)
          | _ => false) = true := by
    decide +kernel
  obtain ⟨m, reachable, home, ⟨inode, found, member⟩, free, panics⟩ :=
    System.ReachableWhen.exists_of_runWhen (.init rfl) ran
  refine ⟨m, reachable, ⟨.cwd home, inode, found, member, free⟩, ?_⟩
  split at panics
  case h_1 reason ended =>
    rw [ended, of_decide_eq_true panics]
  case h_2 => cases panics

end Laboratorio.Xv6.Fs
