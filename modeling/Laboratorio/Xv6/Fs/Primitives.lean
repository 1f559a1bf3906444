import Laboratorio.Xv6.Fs.Model

/-! # What the operations on inodes and directories do, run alone

One rule for each operation: the state it ends in, exactly, and the panics that stop it.
Everything later about calls that run alone goes through these rules.  `Kept` is what an
invariant has to satisfy to survive the calls that do not change inodes themselves.
-/

namespace Laboratorio.Xv6.Fs

open Laboratorio.Lib Laboratorio.Lib.Prog

variable {post : Unit → Kernel → Prop}

/-- `iget`: a recycled cache entry is not valid. -/
def Kernel.taken (k : Kernel) (p : Pid) (i : Inum) : Kernel :=
  if 0 < k.ref i then k.addRef p i else (k.addRef p i).setValid i false

def Kernel.put (k : Kernel) (p : Pid) (i : Inum) : Kernel :=
  (freeUnlinked i k).dropRef p i

section

variable {p : Pid} {k : Kernel} {i dp : Inum} {name : Name} {allowed : Panic → Prop}

/-! ## Inodes -/

/-- `iput` frees an inode or leaves the inode table and the valid entries alone. -/
theorem freeUnlinked_cases (i : Inum) (k : Kernel) :
    (∃ inode, k.dinodes i = some inode ∧ k.valid i = true ∧ inode.nlink = 0 ∧ k.ref i = 1 ∧
      freeUnlinked i k = (k.setInode i none).setValid i false) ∨
    (freeUnlinked i k = k ∧ ∀ inode, k.dinodes i = some inode → k.valid i = true →
      inode.nlink = 0 → k.ref i ≠ 1) := by
  simp only [freeUnlinked]
  split
  case h_2 free =>
    right
    refine ⟨rfl, fun inode found => ?_⟩
    rw [free] at found
    cases found
  case h_1 inode found =>
    split
    case isTrue last =>
      simp only [Bool.and_eq_true, decide_eq_true_eq] at last
      obtain ⟨⟨valid, unlinked⟩, alone⟩ := last
      exact .inl ⟨inode, found, valid, unlinked, alone, rfl⟩
    case isFalse more =>
      right
      refine ⟨rfl, fun other same valid unlinked alone => more ?_⟩
      rw [found] at same
      cases same
      simp only [Bool.and_eq_true, decide_eq_true_eq]
      exact ⟨⟨valid, unlinked⟩, alone⟩

section

variable (others : ∀ reason, reason ≠ .ilockNoType → allowed reason)
include others

theorem iget_ends (holds : post () (k.taken p i)) : Prog.Ends p allowed (iget p i) post k := by
  apply Ends.act
  split
  case isTrue => exact .ret holds
  case isFalse => exact .panic (others _ nofun)

/-- An inode without a type cannot be locked. -/
theorem ilock_ends (noType : 0 < k.ref i → k.dinodes i = none → allowed .ilockNoType)
    (holds : 0 < k.ref i → (k.valid i || (k.dinodes i).isSome) = true → post () (k.setValid i true)) :
    Prog.Ends p allowed (ilock i) post k := by
  apply Ends.act
  split
  case isTrue => exact .panic (others _ nofun)
  case isFalse held =>
    have positive : 0 < k.ref i := Nat.pos_of_ne_zero fun zero => held (by rw [zero]; exact one_pos)
    apply Ends.acquire
    apply Ends.act
    split
    case isTrue isThere => exact .ret (holds positive isThere)
    case isFalse absent =>
      apply Ends.panic
      apply noType positive
      simp only [Bool.or_eq_true, not_or, Bool.not_eq_true, Option.isSome_eq_false_iff,
        Option.isNone_iff_eq_none] at absent
      exact absent.2

theorem iunlock_ends (holds : post () k) : Prog.Ends p allowed (iunlock i) post k := by
  apply Ends.holding
  intro held
  apply Ends.act
  split
  case isTrue => exact .release (.ret holds)
  case isFalse => exact .panic (others _ nofun)

end

theorem iput_ends (holds : post () (k.put p i)) : Prog.Ends p allowed (iput p i) post k := by
  apply Ends.acquire
  apply Ends.act
  apply Ends.release
  apply Ends.act
  exact .ret holds

section

variable (others : ∀ reason, reason ≠ .ilockNoType → allowed reason)
include others

theorem iunlockput_ends (holds : post () (k.put p i)) :
    Prog.Ends p allowed (iunlockput p i) post k := by
  apply Ends.bind
  apply iunlock_ends others
  exact iput_ends holds

theorem ialloc_ends {post : Inum → Kernel → Prop} {type : FileType}
    (holds : ∀ i, k.dinodes i = none → post i ((k.allocate i type).taken p i)) :
    Prog.Ends p allowed (ialloc p type) post k := by
  apply Ends.act
  cases found : freeInum k with
  | none => exact .panic (others _ nofun)
  | some i =>
    have passes := List.find?_some found
    have free : k.dinodes i = none := Option.isNone_iff_eq_none.mp (Bool.and_eq_true_iff.mp passes).2
    apply Ends.bind
    apply iget_ends others
    exact .ret (holds i free)

/-! ## Directories -/

theorem dirlookup_ends {post : Option (Nat × Inum) → Kernel → Prop}
    (absent : ∀ inode, k.dinodes dp = some inode → inode.type = .dir →
      lookup inode.slots name = none → post none k)
    (present : ∀ inode off ip, k.dinodes dp = some inode → inode.type = .dir →
      lookup inode.slots name = some (off, ip) → post (some (off, ip)) (k.taken p ip)) :
    Prog.Ends p allowed (dirlookup p dp name) post k := by
  apply Ends.act
  cases found : k.dinodes dp with
  | none => exact .panic (others _ nofun)
  | some inode =>
    dsimp only
    split
    case isFalse => exact .panic (others _ nofun)
    case isTrue directory =>
      cases entry : lookup inode.slots name with
      | none => exact .ret (absent inode found directory entry)
      | some slot =>
        apply Ends.bind
        apply iget_ends others
        exact .ret (present inode slot.1 slot.2 found directory entry)

/-- A name that is there already is looked up in vain. -/
theorem dirlink_ends {post : Bool → Kernel → Prop}
    (absent : ∀ inode, k.dinodes dp = some inode → inode.type = .dir →
      lookup inode.slots name = none → post true (k.setInode dp (some (inode.link name i))))
    (present : ∀ inode off ip, k.dinodes dp = some inode → inode.type = .dir →
      lookup inode.slots name = some (off, ip) → post false ((k.taken p ip).put p ip)) :
    Prog.Ends p allowed (dirlink p dp name i) post k := by
  apply Ends.bind
  apply dirlookup_ends others
  · intro inode found directory entry
    apply Ends.act
    rw [found]
    dsimp only
    split
    case isFalse => exact .panic (others _ nofun)
    case isTrue =>
      apply Ends.ret
      have linked : k.mapInode dp (fun inode => inode.link name i) =
          k.setInode dp (some (inode.link name i)) := by rw [Kernel.mapInode, found, Option.map_some]
      rw [linked]
      exact absent inode found directory entry
  · intro inode off ip found directory entry
    apply Ends.bind
    apply iput_ends
    exact .ret (present inode off ip found directory entry)

end

/-! ## Calls that only lock and put inodes -/

/-- An invariant of a call that holds references: locking keeps it, and a reference can be
put. -/
structure Kept (p : Pid) (allowed : Panic → Prop) (inv : List Inum → Kernel → Prop) : Prop where
  others : ∀ reason, reason ≠ .ilockNoType → allowed reason
  lock : ∀ {refs k i}, inv refs k → Prog.Ends p allowed (ilock i) (fun _ => inv refs) k
  put : ∀ {refs k i}, inv (i :: refs) k → inv refs (k.put p i)

namespace Kept

variable {inv : List Inum → Kernel → Prop} {refs : List Inum}
  {path : Path} {omode : UInt32} {loads : Bool} {type : FileType} {major : Int}

theorem unlock (kept : Kept p allowed inv) (holds : inv refs k) :
    Prog.Ends p allowed (iunlock i) (fun _ => inv refs) k :=
  iunlock_ends kept.others holds

theorem unlockput (kept : Kept p allowed inv) (holds : inv (i :: refs) k) :
    Prog.Ends p allowed (iunlockput p i) (fun _ => inv refs) k :=
  iunlockput_ends kept.others (kept.put holds)

variable (refs)

section

variable (kept : Kept p allowed inv)
include kept

theorem openFound
    (found : Prog.Ends p allowed (namei p path) (fun found => inv (found.toList ++ refs)) k) :
    Prog.Ends p allowed (openFound p path omode) (fun found => inv (found.toList ++ refs)) k := by
  apply Ends.seq found
  intro found k₁ holds
  cases found with
  | none => exact .ret holds
  | some ip =>
    apply Ends.seq (kept.lock holds)
    intro _ k₂ holds
    apply Ends.bind
    apply Ends.get
    split
    case isTrue => exact .andRet (kept.unlockput holds)
    case isFalse => exact .ret holds

theorem sysExec
    (found : Prog.Ends p allowed (namei p path) (fun found => inv (found.toList ++ refs)) k) :
    Prog.Ends p allowed (sysExec p path loads) (fun _ => inv refs) k := by
  apply Ends.seq found
  intro found k₁ holds
  cases found with
  | none => exact .ret holds
  | some ip =>
    apply Ends.seq (kept.lock holds)
    intro _ k₂ holds
    exact .andRet (kept.unlockput holds)

theorem makeNode (created : Prog.Ends p allowed (create p path type major)
      (fun found => inv (found.toList ++ refs)) k) :
    Prog.Ends p allowed (makeNode p path type major) (fun _ => inv refs) k := by
  apply Ends.seq created
  intro found k₁ holds
  cases found with
  | none => exact .ret holds
  | some ip => exact .andRet (kept.unlockput holds)

theorem transfer (holds : inv refs k) (ip : Inum) :
    Prog.Ends p allowed (transfer ip) (fun _ => inv refs) k := by
  apply Ends.act
  cases k.dinodes ip with
  | none => exact .ret holds
  | some inode =>
    dsimp only
    split
    case isFalse => exact .ret holds
    case isTrue =>
      apply Ends.seq (kept.unlock holds)
      exact fun _ _ holds => kept.lock holds

theorem lockedTransfer (holds : inv refs k) (ip : Inum) :
    Prog.Ends p allowed (lockedTransfer ip) (fun _ => inv refs) k := by
  apply Ends.seq (kept.lock holds)
  intro _ k₁ holds
  apply Ends.seq (kept.transfer refs holds ip)
  exact fun _ _ holds => kept.unlock holds

theorem lockedTransfers (holds : inv refs k) (ip : Inum)
    (rounds : Nat) : Prog.Ends p allowed (lockedTransfers ip rounds) (fun _ => inv refs) k := by
  induction rounds generalizing k with
  | zero => exact .ret holds
  | succ rounds ih =>
    apply Ends.seq (kept.lockedTransfer refs holds ip)
    exact fun _ _ holds => ih holds

theorem sysRead (holds : inv refs k) (fd : Nat) :
    Prog.Ends p allowed (sysRead p fd) (fun _ => inv refs) k := by
  apply Ends.act
  cases k.table.argfd p fd with
  | none => exact .ret holds
  | some found =>
    dsimp only
    split
    case isFalse => exact .ret holds
    case isTrue =>
      split
      case h_1 ip _ => exact .andRet (kept.lockedTransfer refs holds ip)
      case h_2 => exact .ret holds
      case h_3 => exact .panic (kept.others _ nofun)

theorem sysWrite (holds : inv refs k) (fd rounds : Nat) :
    Prog.Ends p allowed (sysWrite p fd rounds) (fun _ => inv refs) k := by
  apply Ends.act
  cases k.table.argfd p fd with
  | none => exact .ret holds
  | some found =>
    dsimp only
    split
    case isFalse => exact .ret holds
    case isTrue =>
      split
      case h_1 ip _ => exact .andRet (kept.lockedTransfers refs holds ip rounds)
      case h_2 => exact .ret holds
      case h_3 => exact .panic (kept.others _ nofun)

end

end Kept

end

end Laboratorio.Xv6.Fs
