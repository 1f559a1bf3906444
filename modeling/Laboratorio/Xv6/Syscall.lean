import Laboratorio.Xv6.Param

/-! # The arguments of system calls

The functions of `syscall.c` that fetch arguments from the user's stack and memory, and the loop of
`sys_exec` over its argument vector.  Addresses are 32-bit words and sums wrap.  What makes the checks
enough is that a process ends below `KERNBASE`: where `addr < sz` holds, `addr + 4` does not wrap, and
neither does the sum of an address and a size that is not negative.
-/

namespace Laboratorio.Xv6.Syscall

open Function Option

/-- What a system call reads of the process that makes it. -/
structure Proc where
  sz : UInt32
  /-- `tf->esp` -/
  esp : UInt32
  memory : UInt32 → UInt8
  belowKernel : sz.toNat < kernbase

variable (proc : Proc)

/-- `*(int*)(addr)` -/
def Proc.word (addr : UInt32) : UInt32 :=
  (proc.memory addr).toUInt32 ||| (proc.memory (addr + 1)).toUInt32 <<< 8 |||
    (proc.memory (addr + 2)).toUInt32 <<< 16 ||| (proc.memory (addr + 3)).toUInt32 <<< 24

def fetchint (addr : UInt32) : Option UInt32 :=
  if proc.sz ≤ addr ∨ proc.sz < addr + 4 then none else some (proc.word addr)

/-- The loop of `fetchstr` when `s` is `left` bytes before `ep`. -/
def nulFrom : Nat → UInt32 → Option Nat
  | 0, _ => none
  | left + 1, s => if proc.memory s = 0 then some 0 else (nulFrom left (s + 1)).map (· + 1)

/-- The pointer and the length. -/
def fetchstr (addr : UInt32) : Option (UInt32 × Nat) :=
  if proc.sz ≤ addr then none
  else (nulFrom proc (proc.sz.toNat - addr.toNat) addr).map fun length => (addr, length)

def argAddress (n : UInt32) : UInt32 := proc.esp + 4 + 4 * n

def argint (n : UInt32) : Option UInt32 :=
  fetchint proc (argAddress proc n)

def argptr (n : UInt32) (size : Int32) : Option UInt32 := do
  let i ← argint proc n
  if size < 0 ∨ proc.sz ≤ i ∨ proc.sz < i + size.toUInt32 then none else pure i

def argstr (n : UInt32) : Option (UInt32 × Nat) := do
  let addr ← argint proc n
  fetchstr proc addr

/-- The loop of `sys_exec` with `left` entries of `argv` from `i` on. -/
def execLoop (uargv : UInt32) : Nat → Nat → (Nat → UInt32) → Option (Nat → UInt32)
  | 0, _, _ => none
  | left + 1, i, argv => do
    let uarg ← fetchint proc (uargv + 4 * UInt32.ofNat i)
    if uarg = 0 then pure (update argv i 0)
    else
      let found ← fetchstr proc uarg
      execLoop uargv left (i + 1) (update argv i found.1)

/-- The path and the vector that `exec` is called with. -/
def sysExec : Option (UInt32 × (Nat → UInt32)) := do
  let path ← argstr proc 0
  let uargv ← argint proc 1
  let argv ← execLoop proc uargv maxArg 0 fun _ => 0
  pure (path.1, argv)

section

variable {proc} {addr s value : UInt32} {left length : Nat}

theorem fetchint_inside (fetched : fetchint proc addr = some value) :
    addr.toNat + 4 ≤ proc.sz.toNat := by
  have kernel := proc.belowKernel
  simp only [fetchint, Option.ite_none_left_eq_some, not_or] at fetched
  obtain ⟨⟨below, inside⟩, -⟩ := fetched
  simp only [kernbase, UInt32.lt_iff_toNat_lt, UInt32.le_iff_toNat_le, UInt32.toNat_add,
    UInt32.reduceToNat] at kernel below inside
  omega

theorem next_add (s : UInt32) (j : Nat) : s + 1 + UInt32.ofNat j = s + UInt32.ofNat (j + 1) := by
  rw [UInt32.add_assoc, UInt32.add_comm 1, UInt32.ofNat_add]
  rfl

theorem nulFrom_some (found : nulFrom proc left s = some length) :
    length < left ∧ (∀ j < length, proc.memory (s + UInt32.ofNat j) ≠ 0) ∧
      proc.memory (s + UInt32.ofNat length) = 0 := by
  induction left generalizing s length with
  | zero => cases found
  | succ left ih =>
    rw [nulFrom] at found
    split at found
    case isTrue nul =>
      cases found
      exact ⟨Nat.succ_pos _, nofun, (UInt32.add_zero s).symm ▸ nul⟩
    case isFalse notNul =>
      obtain ⟨rest, more, rfl⟩ := Option.map_eq_some_iff.mp found
      obtain ⟨bound, before, nul⟩ := ih more
      rw [next_add] at nul
      refine ⟨Nat.succ_lt_succ bound, fun j below => ?_, nul⟩
      cases j with
      | zero => exact (UInt32.add_zero s).symm ▸ notNul
      | succ j =>
        rw [← next_add]
        exact before j (Nat.lt_of_succ_lt_succ below)

theorem fetchstr_inside {p : UInt32} (fetched : fetchstr proc addr = some (p, length)) :
    p = addr ∧ p.toNat + length + 1 ≤ proc.sz.toNat ∧
      (∀ j < length, proc.memory (p + UInt32.ofNat j) ≠ 0) ∧
      proc.memory (p + UInt32.ofNat length) = 0 := by
  obtain ⟨below, found⟩ := ite_none_left_eq_some.mp fetched
  obtain ⟨length, found, same⟩ := map_eq_some_iff.mp found
  cases same
  obtain ⟨bound, string⟩ := nulFrom_some found
  exact ⟨rfl, by omega, string⟩

theorem argptr_inside {n p : UInt32} {size : Int32} (fetched : argptr proc n size = some p) :
    0 ≤ size.toInt ∧ p.toNat < proc.sz.toNat ∧ p.toNat + size.toInt ≤ proc.sz.toNat := by
  have kernel := proc.belowKernel
  obtain ⟨i, -, checked⟩ := Option.bind_eq_some_iff.mp fetched
  obtain ⟨checks, same⟩ := Option.ite_none_left_eq_some.mp checked
  cases same
  simp only [not_or, Int32.not_lt] at checks
  obtain ⟨positive, below, inside⟩ := checks
  have nonneg : 0 ≤ size.toInt := Int32.le_iff_toInt_le.mp positive
  have unsigned : size.toUInt32.toNat = size.toInt.toNat := Int32.toNat_toUInt32_of_le positive
  have small := Int32.toInt_lt size
  simp only [kernbase, UInt32.lt_iff_toNat_lt, UInt32.le_iff_toNat_le, UInt32.toNat_add]
    at kernel below inside
  omega

/-- The entries of `argv` before `k` are strings, and the next one is null. -/
def IsVector (proc : Proc) (argv : Nat → UInt32) (k : Nat) : Prop :=
  (∀ i < k, ∃ length, fetchstr proc (argv i) = some (argv i, length)) ∧ argv k = 0

/-- The loop has checked the entries before `i`, and it does not pass `left` more. -/
theorem execLoop_some {uargv : UInt32} {i : Nat} {argv argv' : Nat → UInt32}
    (checked : ∀ j < i, ∃ length, fetchstr proc (argv j) = some (argv j, length))
    (ended : execLoop proc uargv left i argv = some argv') :
    ∃ k < i + left, IsVector proc argv' k := by
  induction left generalizing i argv with
  | zero => cases ended
  | succ left ih =>
    obtain ⟨uarg, -, ended⟩ := bind_eq_some_iff.mp ended
    split at ended
    case isTrue =>
      cases ended
      refine ⟨i, by omega, fun j below => ?_, update_self ..⟩
      rw [update_of_ne (Nat.ne_of_lt below)]
      exact checked j below
    case isFalse =>
      obtain ⟨⟨p, length⟩, found, goesOn⟩ := bind_eq_some_iff.mp ended
      have same : p = uarg := (fetchstr_inside found).1
      have checked' : ∀ j < i + 1, ∃ length,
          fetchstr proc (update argv i p j) = some (update argv i p j, length) := by
        intro j below
        by_cases last : j = i
        · rw [last, update_self]
          exact ⟨length, same ▸ found⟩
        · rw [update_of_ne last]
          exact checked j (by omega)
      obtain ⟨k, below, vector⟩ := ih checked' goesOn
      exact ⟨k, by omega, vector⟩

end

/-- Whatever a process passes, the kernel looks at its own memory only. -/
theorem arguments_inside (proc : Proc) :
    (∀ n value, argint proc n = some value → (argAddress proc n).toNat + 4 ≤ proc.sz.toNat) ∧
    (∀ n size p, argptr proc n size = some p →
      0 ≤ size.toInt ∧ p.toNat < proc.sz.toNat ∧ p.toNat + size.toInt ≤ proc.sz.toNat) ∧
    (∀ n p length, argstr proc n = some (p, length) →
      p.toNat + length + 1 ≤ proc.sz.toNat ∧
      (∀ j < length, proc.memory (p + UInt32.ofNat j) ≠ 0) ∧
      proc.memory (p + UInt32.ofNat length) = 0) ∧
    (∀ path argv, sysExec proc = some (path, argv) → ∃ k < maxArg, IsVector proc argv k) := by
  refine ⟨fun n value => fetchint_inside, fun n size p => argptr_inside, ?_, ?_⟩
  · intro n p length fetched
    obtain ⟨addr, -, fetched⟩ := bind_eq_some_iff.mp fetched
    exact (fetchstr_inside fetched).2
  · intro path argv called
    obtain ⟨_, -, called⟩ := bind_eq_some_iff.mp called
    obtain ⟨uargv, -, called⟩ := bind_eq_some_iff.mp called
    obtain ⟨argv, looped, same⟩ := bind_eq_some_iff.mp called
    cases same
    obtain ⟨k, below, vector⟩ := execLoop_some (fun _ none => absurd none (Nat.not_lt_zero _)) looped
    exact ⟨k, Nat.zero_add maxArg ▸ below, vector⟩

/-- The call `exec("ls", argv)`: the string is at 32, and `argv` at 40. -/
def lsCall : Proc where
  sz := 64
  esp := 0
  memory addr :=
    if addr = 4 ∨ addr = 40 then 32 else if addr = 8 then 40
    else if addr = 32 then 108 else if addr = 33 then 115 else 0
  belowKernel := by decide

theorem lsCall_inside :
    argptr lsCall 1 8 = some 40 ∧ (40 : UInt32).toNat + (8 : Int32).toInt ≤ lsCall.sz.toNat ∧
    argstr lsCall 0 = some (32, 2) ∧ lsCall.memory (32 + 2) = 0 ∧
    ∃ argv, sysExec lsCall = some (32, argv) ∧ ∃ k < maxArg, IsVector lsCall argv k := by
  obtain ⟨-, ptr, str, exec⟩ := arguments_inside lsCall
  have fetched : argptr lsCall 1 8 = some 40 := by decide
  have string : argstr lsCall 0 = some (32, 2) := by decide
  obtain ⟨argv, called⟩ : ∃ argv, sysExec lsCall = some (32, argv) := ⟨_, rfl⟩
  exact ⟨fetched, (ptr 1 8 40 fetched).2.2, string, (str 0 32 2 string).2.2, argv, called, exec 32 argv called⟩

end Laboratorio.Xv6.Syscall
