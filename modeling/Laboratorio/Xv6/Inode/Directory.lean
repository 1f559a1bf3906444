import Laboratorio.Xv6.Inode.Contents

/-! # Looking names up in a directory (`fs.c`)

`dirlookup` reads the entries of a directory one by one through `readi` and compares their names
with `strncmp`.  When the entries before the one it looks for are mapped, it finds that one
(`dirlookup_found`), whatever comes after it.
-/

namespace Laboratorio.Xv6.Inodes

open List Nat

/-! ## Names -/

/-- `strncmp` (`string.c`).  The list ends where the string has its NUL. -/
def strncmp : Nat → List UInt8 → List UInt8 → Int
  | 0, _, _ => 0
  | n + 1, p, q =>
    if p.headD 0 ≠ 0 ∧ p.headD 0 = q.headD 0 then strncmp n p.tail q.tail
    else (p.headD 0).toNat - (q.headD 0).toNat

def namecmp (s t : List UInt8) : Int := strncmp dirsiz s t

theorem toNat_sub_eq_zero (a b : UInt8) : (a.toNat : Int) - b.toNat = 0 ↔ a = b := by
  rw [← UInt8.toNat_inj]
  omega

/-- What `strncmp` sees of a string: at most `n` bytes, up to its NUL. -/
def cut (n : Nat) (s : List UInt8) : List UInt8 := (s.take n).takeWhile (· ≠ 0)

theorem cut_succ (n : Nat) (s : List UInt8) :
    cut (n + 1) s = if s.headD 0 = 0 then [] else s.headD 0 :: cut n s.tail := by
  cases s with
  | nil => rfl
  | cons c s =>
    simp only [cut]
    by_cases ends : c = 0 <;> simp [ends]

/-- Two strings compare equal when they agree up to the limit. -/
theorem strncmp_eq_zero_iff {n : Nat} {p q : List UInt8} :
    strncmp n p q = 0 ↔ cut n p = cut n q := by
  induction n generalizing p q with
  | zero => simp [strncmp, cut]
  | succ n ih =>
    rw [strncmp, cut_succ, cut_succ]
    generalize p.headD 0 = b
    generalize q.headD 0 = c
    by_cases ends : b = 0
    · rw [if_neg (fun goes => goes.1 ends), if_pos ends, toNat_sub_eq_zero, ends]
      by_cases ends' : 0 = c
      · rw [if_pos ends'.symm, ends']
        simp only
      · simp [ends', Ne.symm ends']
    · by_cases same : b = c
      · rw [if_pos ⟨ends, same⟩, if_neg ends, ← same, if_neg ends, ih, cons.injEq]
        simp
      · rw [if_neg (fun goes => same goes.2), if_neg ends, toNat_sub_eq_zero]
        by_cases ends' : c = 0
        · simp [ends', ends]
        · simp [same, ends']

/-- Nothing but the string is seen when zeros follow it. -/
theorem cut_padded {n : Nat} {s : List UInt8} (string : 0 ∉ s) (zeros : Nat) :
    cut n (s ++ List.replicate zeros 0) = s.take n := by
  have padding : ∀ m, ((replicate zeros (0 : UInt8)).take m).takeWhile (· ≠ 0) = [] := by
    intro m
    cases zeros <;> cases m <;> rfl
  rw [cut, take_append, takeWhile_append_of_pos, padding, append_nil]
  intro c member
  exact decide_eq_true fun zero => string (zero ▸ mem_of_mem_take member)

theorem strncmp_eq_zero {n zeros : Nat} {p q : List UInt8} (pString : 0 ∉ p) (qString : 0 ∉ q) :
    strncmp n p (q ++ List.replicate zeros 0) = 0 ↔ p.take n = q.take n := by
  have unpadded := cut_padded (n := n) pString 0
  rw [replicate_zero, append_nil] at unpadded
  rw [strncmp_eq_zero_iff, unpadded, cut_padded qString]

/-! ## Entries -/

/-- `sizeof(struct dirent)` -/
def direntSize : Nat := 2 + dirsiz

structure Dirent where
  inum : Nat
  name : List UInt8

def Dirent.ofBytes (bytes : List UInt8) : Dirent where
  inum := (bytes.getD 0 0).toNat + (bytes.getD 1 0).toNat * 256
  name := bytes.drop 2

inductive DirPanic
  | notDir
  | read
  | write
  | inode (panic : Panic)
  deriving DecidableEq

/-- The loop of `dirlookup`.  Every round moves on by an entry. -/
def lookupLoop : Nat → FileSystem → Inode → List UInt8 → Nat →
    Except DirPanic (Option (Nat × Nat) × FileSystem × Inode)
  | 0, fs, dp, _, _ => .ok (none, fs, dp)
  | fuel + 1, fs, dp, name, off =>
    if off < dp.size then
      match readi fs dp off direntSize with
      | .error panic => .error (.inode panic)
      | .ok (none, _, _) => .error .read
      | .ok (some bytes, fs, dp) =>
        if bytes.length ≠ direntSize then .error .read
        else
          let de := Dirent.ofBytes bytes
          if de.inum = 0 then lookupLoop fuel fs dp name (off + direntSize)
          else if namecmp name de.name = 0 then .ok (some (de.inum, off), fs, dp)
          else lookupLoop fuel fs dp name (off + direntSize)
    else .ok (none, fs, dp)

/-- The number of the inode that `iget` returns, with `*poff`; or `none` for 0. -/
def dirlookup (fs : FileSystem) (dp : Inode) (name : List UInt8) :
    Except DirPanic (Option (Nat × Nat) × FileSystem × Inode) :=
  if dp.type ≠ .dir then .error .notDir
  else
    match lookupLoop dp.size fs dp name 0 with
    | .error panic => .error panic
    | .ok (none, fs, dp) => .ok (none, fs, dp)
    | .ok (some (inum, off), fs, dp) =>
      match iget fs inum with
      | .error panic => .error (.inode panic)
      | .ok fs => .ok (some (inum, off), fs, dp)

/-! ## Finding an entry -/

/-- The entry with index `k`. -/
def direntAt (blocks : Nat → Block) (dp : Inode) (k : Nat) : Dirent :=
  .ofBytes ((List.range direntSize).map fun j => byteAt blocks dp (k * direntSize + j))

/-- The first entry in use with a name, in the mapped part of a directory. -/
structure FirstEntry (blocks : Nat → Block) (dp : Inode) (name : List UInt8) (k : Nat) : Prop where
  inside : (k + 1) * direntSize ≤ dp.size
  mapped : ∀ j < (k + 1) * direntSize, blockAddr blocks dp (j / bsize) ≠ 0
  used : (direntAt blocks dp k).inum ≠ 0
  same : namecmp name (direntAt blocks dp k).name = 0
  earlier : ∀ i < k, (direntAt blocks dp i).inum = 0 ∨
    namecmp name (direntAt blocks dp i).name ≠ 0

variable {fs : FileSystem} {dp : Inode} {name : List UInt8} {k : Nat}

theorem readi_dirent (directory : dp.type = .dir) (small : dp.size < 2 ^ 32) {i : Nat}
    (inside : (i + 1) * direntSize ≤ dp.size)
    (mapped : ∀ j < (i + 1) * direntSize, blockAddr fs.blocks dp (j / bsize) ≠ 0) :
    readi fs dp (i * direntSize) direntSize =
      .ok (some ((List.range direntSize).map fun j => byteAt fs.blocks dp (i * direntSize + j)),
        fs, dp) := by
  have notDevice : dp.type ≠ .dev := by
    rw [directory]
    nofun
  have next : (i + 1) * direntSize = i * direntSize + direntSize := succ_mul ..
  apply readi_bytes notDevice (by omega) small
  intro j bound
  exact mapped _ (by omega)

theorem lookupLoop_found (directory : dp.type = .dir) (small : dp.size < 2 ^ 32)
    (first : FirstEntry fs.blocks dp name k) {i fuel : Nat} (upto : i ≤ k)
    (enough : k - i < fuel) :
    lookupLoop fuel fs dp name (i * direntSize) =
      .ok (some ((direntAt fs.blocks dp k).inum, k * direntSize), fs, dp) := by
  induction fuel generalizing i with
  | zero => exact absurd enough (not_lt_zero _)
  | succ fuel ih =>
    have next : i * direntSize + direntSize = (i + 1) * direntSize := (succ_mul ..).symm
    have inside := first.inside
    have le : (i + 1) * direntSize ≤ (k + 1) * direntSize :=
      mul_le_mul_right _ (succ_le_succ upto)
    have read := readi_dirent directory small (i := i) (by omega)
      fun j below => first.mapped j (by omega)
    have below : i * direntSize < dp.size := by
      have positive : 0 < direntSize := by decide
      omega
    have length : ((range direntSize).map fun j =>
        byteAt fs.blocks dp (i * direntSize + j)).length = direntSize := by
      rw [length_map, length_range]
    simp only [lookupLoop, if_pos below, read, length, ne_eq, not_true_eq_false, if_false]
    rw [← direntAt]
    by_cases here : i = k
    · subst here
      rw [if_neg first.used, if_pos first.same]
    · -- an earlier entry is skipped
      have skipped := ih (i := i + 1) (by omega) (by omega)
      rw [next]
      rcases first.earlier i (by omega) with unused | different
      · rw [if_pos unused, skipped]
      · rw [if_neg different, skipped, ite_self]

theorem dirlookup_found (directory : dp.type = .dir) (small : dp.size < 2 ^ 32)
    (first : FirstEntry fs.blocks dp name k) {fs' : FileSystem}
    (got : iget fs (direntAt fs.blocks dp k).inum = .ok fs') :
    dirlookup fs dp name =
      .ok (some ((direntAt fs.blocks dp k).inum, k * direntSize), fs', dp) := by
  have enough : k - 0 < dp.size := by
    have inside := first.inside
    simp only [direntSize, dirsiz] at inside
    omega
  have found := lookupLoop_found directory small first (Nat.zero_le k) enough
  rw [Nat.zero_mul] at found
  simp [dirlookup, directory, found, got]

end Laboratorio.Xv6.Inodes
