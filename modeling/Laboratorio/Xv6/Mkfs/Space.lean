import Laboratorio.Xv6.Mkfs.Files

/-! # `mkfs` succeeds when the files fit

A file of `n` bytes takes `blocksUsed n` blocks, its indirect block included.  If the root
directory and the files together fit on the disk, no step of the program fails (`main_succeeds`).
-/

namespace Laboratorio.Xv6.Mkfs

open Laboratorio.Lib Inodes Function Words UInt32 Option List

variable {bn inum : Nat} {files : List File}

variable {g g' : Globals} {kind : Nat → FileType} {data : Nat → List UInt8}

def blocksUsed (n : Nat) : Nat :=
  blocksFor n + if ndirect < blocksFor n then 1 else 0

theorem blocksUsed_mono {m n : Nat} (le : m ≤ n) : blocksUsed m ≤ blocksUsed n := by
  have blocks := blocksFor_mono le
  simp only [blocksUsed]
  split <;> split <;> omega

/-! ## One block -/

/-- The blocks that mapping block `bn` takes when `count` blocks are mapped. -/
def cost (count bn : Nat) : Nat :=
  if bn < count then 0 else if bn = ndirect then 2 else 1

section Growing

variable {din : Dinode} {type : FileType} {base : Nat → Option Inode} {inum count : Nat}
  {i : Fin (ndirect + 1)}

theorem ensureAddr_empty (empty : din.addrs i = 0) :
    ensureAddr g din i = ({ g with freeblock := g.freeblock + 1 },
      { din with addrs := update din.addrs i (UInt32.ofNat g.freeblock) }) :=
  if_pos empty

theorem ensureAddr_held (held : din.addrs i ≠ 0) : ensureAddr g din i = (g, din) :=
  if_neg held

theorem blockOf_direct (ok : Ok g)
    (maps : Maps base inum (view g) (din.inode type) count) (direct : bn < ndirect) (room : g.freeblock + cost count bn ≤ fssize) :
    ∃ x g' din', blockOf g din bn = some (x, g', din') ∧ x < fssize ∧
      g'.freeblock ≤ g.freeblock + cost count bn := by
  have place : slotOf bn = some (.direct ⟨bn, by omega⟩) := dif_pos direct
  have address : addrOf (view g).blocks (update base inum (some (din.inode type)))
      (inum, .direct ⟨bn, by omega⟩) = (din.addrs ⟨bn, by omega⟩).toNat :=
    addrOf_direct (update_self ..) _
  by_cases empty : din.addrs ⟨bn, by omega⟩ = 0
  · have unmapped : ¬ bn < count := by
      intro below
      obtain ⟨slot, found, held⟩ := (maps.extent bn).mp below
      rw [place] at found
      cases found
      rw [address, empty] at held
      exact held rfl
    have one : cost count bn = 1 := by
      simp [cost, if_neg unmapped, if_neg (Nat.ne_of_lt direct)]
    rw [one] at room ⊢
    refine ⟨_, _, _, by simp only [blockOf, dif_pos direct, ensureAddr_empty empty]; rfl, ?_,
      Nat.le_refl _⟩
    simp only [update_self, toNat_freeblock ok]
    omega
  · have held : addrOf (view g).blocks (update base inum (some (din.inode type)))
        (inum, .direct ⟨bn, by omega⟩) ≠ 0 := by
      rw [address]
      exact fun zero => empty (UInt32.toNat_inj.mp zero)
    have bounds := (held_bounds maps.owns held).2
    exact ⟨(din.addrs ⟨bn, by omega⟩).toNat, g, din,
      by simp [blockOf, dif_pos direct, ensureAddr_held empty], by omega,
      Nat.le_add_right ..⟩

theorem blockOf_indirect (ok : Ok g)
    (maps : Maps base inum (view g) (din.inode type) count) (within : bn ≤ count) (notDirect : ¬ bn < ndirect)
    (bound : bn < maxFile) (room : g.freeblock + cost count bn ≤ fssize) :
    ∃ x g' din', blockOf g din bn = some (x, g', din') ∧ x < fssize ∧
      g'.freeblock ≤ g.freeblock + cost count bn := by
  have indirect : bn - ndirect < nindirect := by
    simp only [maxFile] at bound
    omega
  have place : ∀ b, (notDirect : ¬ b < ndirect) → (h : b - ndirect < nindirect) →
      slotOf b = some (.indirect ⟨b - ndirect, h⟩) := by
    intro b notDirect h
    rw [slotOf, dif_neg notDirect, dif_pos h]
  by_cases empty : din.addrs (Fin.last ndirect) = 0
  · -- no block of the indirect range is mapped, so this is its first one
    have first : bn = ndirect ∧ ¬ bn < count := by
      have none : ¬ ndirect < count := by
        intro below
        obtain ⟨slot, found, held⟩ := (maps.extent ndirect).mp below
        cases found
        rw [addrOf_some (update_self ..)] at held
        simp only [addrAt, Dinode.inode, empty] at held
        exact held rfl
      omega
    have two : cost count bn = 2 := by
      simp [cost, if_neg first.2, if_pos first.1]
    rw [two] at room ⊢
    have read : rsect g.image g.freeblock = some zeroes := by
      rw [rsect, if_pos (by rw [ok.length]; omega), ok.clean g.freeblock (Nat.le_refl _)]
    have word : get zeroes (bn - ndirect) = 0 := get_zero _
    have small : (ofNat (g.freeblock + 1)).toNat = g.freeblock + 1 := by
      apply toNat_ofNat_of_lt'
      have inside : g.freeblock + 1 ≤ fssize := by omega
      exact Nat.lt_of_le_of_lt inside (by decide)
    refine ⟨_, _, _, by
      simp only [blockOf, dif_neg notDirect, ensureAddr_empty empty, update_self,
        toNat_freeblock ok, read, word, bind_eq_bind, bind_some]
      rfl, ?_, Nat.le_refl _⟩
    rw [get_put_self _ _ indirect]
    omega
  · have pointer : addrOf (view g).blocks (update base inum (some (din.inode type)))
        (inum, .direct (Fin.last ndirect)) = (din.addrs (Fin.last ndirect)).toNat :=
      addrOf_direct (update_self ..) _
    have nonzero : (din.addrs (Fin.last ndirect)).toNat ≠ 0 :=
      fun zero => empty (UInt32.toNat_inj.mp zero)
    have bounds := held_bounds maps.owns (by rw [pointer]; exact nonzero)
    rw [pointer] at bounds
    have read : rsect g.image (din.addrs (Fin.last ndirect)).toNat =
        some (g.image.sectors (din.addrs (Fin.last ndirect)).toNat) := by
      rw [rsect, if_pos (by rw [ok.length]; omega)]
    have word : addrOf (view g).blocks (update base inum (some (din.inode type)))
        (inum, .indirect ⟨bn - ndirect, indirect⟩) =
          (get (g.image.sectors (din.addrs (Fin.last ndirect)).toNat) (bn - ndirect)).toNat := by
      rw [addrOf_some (update_self ..)]
      simp [addrAt, Dinode.inode, if_neg nonzero, view, if_neg (Nat.not_lt.mpr bounds.1)]
    generalize block : g.image.sectors (din.addrs (Fin.last ndirect)).toNat = buf at read word
    by_cases vacant : get buf (bn - ndirect) = 0
    · have unmapped : ¬ bn < count := by
        intro below
        obtain ⟨slot, found, held⟩ := (maps.extent bn).mp below
        rw [place bn notDirect indirect] at found
        cases found
        rw [word, vacant] at held
        exact held rfl
      have some : 1 ≤ cost count bn := by
        simp only [cost, if_neg unmapped]
        split <;> omega
      refine ⟨_, _, _, by
        simp only [blockOf, dif_neg notDirect, ensureAddr_held empty, read, vacant,
          bind_eq_bind, bind_some]
        rfl, ?_, by simp only; omega⟩
      rw [get_put_self _ _ indirect, toNat_freeblock ok]
      omega
    · have held := (held_bounds maps.owns (by
        rw [word]
        exact fun zero => vacant (UInt32.toNat_inj.mp zero))).2
      exact ⟨(get buf (bn - ndirect)).toNat, g, din, by
        simp only [blockOf, dif_neg notDirect, ensureAddr_held empty, read, if_neg vacant,
          bind_eq_bind, bind_some], by omega, Nat.le_add_right ..⟩

theorem blockOf_succeeds (ok : Ok g)
    (maps : Maps base inum (view g) (din.inode type) count) (within : bn ≤ count) (bound : bn < maxFile)
    (room : g.freeblock + cost count bn ≤ fssize) :
    ∃ x g' din', blockOf g din bn = some (x, g', din') ∧ x < fssize ∧
      g'.freeblock ≤ g.freeblock + cost count bn := by
  by_cases direct : bn < ndirect
  · exact blockOf_direct ok maps direct room
  · exact blockOf_indirect ok maps within direct bound room

/-! ## The loop -/

theorem cost_round (off : Nat) {m : Nat} (some : 0 < m) (fits : off % bsize + m ≤ bsize) :
    blocksUsed off + cost (blocksFor off) (off / bsize) = blocksUsed (off + m) ∧
      blocksFor (off + m) = max (blocksFor off) (off / bsize + 1) := by
  have grown : blocksFor (off + m) = off / bsize + 1 := by
    simp only [blocksFor, bsize, nindirect] at fits ⊢
    omega
  have before : blocksFor off = off / bsize ∨ blocksFor off = off / bsize + 1 := by
    simp only [blocksFor, bsize, nindirect]
    omega
  refine ⟨?_, by omega⟩
  simp only [blocksUsed, cost, grown]
  rcases before with before | before
  · rw [before, if_neg (Nat.lt_irrefl _)]
    split <;> split <;> split <;> omega
  · rw [before, if_pos (Nat.lt_succ_self _), Nat.add_zero]

theorem appendLoop_succeeds {fuel off : Nat} {p : List UInt8} (ok : Ok g)
    (maps : Maps base inum (view g) (din.inode type) (blocksFor off))
    (fits : off + p.length ≤ maxFile * bsize)
    (room : g.freeblock + blocksUsed (off + p.length) ≤ fssize + blocksUsed off) :
    ∃ g' din' off', appendLoop fuel g din off p = some (g', din', off') ∧
      g'.freeblock + blocksUsed off ≤ g.freeblock + blocksUsed (off + p.length) := by
  induction fuel generalizing off p g din with
  | zero =>
    have more := blocksUsed_mono (Nat.le_add_right off p.length)
    exact ⟨g, din, off, rfl, by omega⟩
  | succ fuel ih =>
    by_cases none : p = []
    · subst none
      exact ⟨g, din, off, by simp [appendLoop], Nat.le_refl _⟩
    · have positive : 0 < p.length := length_pos_iff.mpr none
      have progress : 0 < bsize - off % bsize := Nat.sub_pos_of_lt (Nat.mod_lt off (by decide))
      generalize length : min p.length (bsize - off % bsize) = m
      obtain ⟨paid, blocks⟩ := cost_round off (m := m) (by omega) (by omega)
      have more : blocksUsed (off + m) ≤ blocksUsed (off + p.length) :=
        blocksUsed_mono (by omega)
      have bound : off / bsize < maxFile := div_lt_of_lt_mul (by omega)
      obtain ⟨x, g₁, din₁, found, inside, taken⟩ := blockOf_succeeds ok maps
        (div_le_of_le_mul (le_blocksFor_mul off)) bound (by omega)
      have frame := blockOf_frame found
      have read : rsect g₁.image x = some (g₁.image.sectors x) := by
        rw [rsect, if_pos (by rw [frame.length, ok.length]; exact inside)]
      have start : off - off / bsize * bsize = off % bsize := by
        simp only [bsize, nindirect]
        omega
      have space : (off / bsize + 1) * bsize - off = bsize - off % bsize := by
        simp only [bsize, nindirect]
        omega
      have round := round_view ok maps (div_le_of_le_mul (le_blocksFor_mul off)) bound
        found inside (patch (g₁.image.sectors x) (off % bsize) (p.take m))
      have dropped : off + m + (p.drop m).length = off + p.length := by
        rw [length_drop]
        omega
      obtain ⟨g', din', off', rest, spent⟩ := ih (p := p.drop m) round.ok
        ⟨round.owns, blocks ▸ round.extent⟩ (by omega) (by rw [dropped]; simp only; omega)
      rw [dropped] at spent
      simp only at spent
      refine ⟨g', din', off', ?_, by omega⟩
      simp [appendLoop, if_neg none, if_pos bound, found, read, start, space, length, rest]

end Growing

/-! ## Inodes -/

theorem winode_succeeds (ok : Ok g) (bound : inum < ninodes) (din : Dinode) :
    ∃ image, winode g.image inum din = some image := by
  have low := iblock_lt bound
  have lower := ok.lower
  have upper := ok.upper
  have read : rsect g.image (iblock sb inum) = some (g.image.sectors (iblock sb inum)) := by
    rw [rsect, if_pos (by rw [ok.length]; omega)]
  exact ⟨_, by rw [winode, read]; rfl⟩

theorem rinode_succeeds (ok : Ok g) (bound : inum < ninodes) :
    rinode g.image inum = some (dinodeIn (g.image.sectors (iblock sb inum)) inum) := by
  have low := iblock_lt bound
  have lower := ok.lower
  have upper := ok.upper
  rw [rinode, rsect, if_pos (by rw [ok.length]; omega)]
  rfl

theorem ialloc_succeeds (ok : Ok g) (room : g.freeinode < ninodes) (type : FileType) :
    ∃ inum g', ialloc g type = some (inum, g') := by
  obtain ⟨image, stored⟩ := winode_succeeds ok room ⟨typeCode type, 0, 0, 1, 0, fun _ => 0⟩
  exact ⟨g.freeinode, { g with freeinode := g.freeinode + 1, image },
    by simp [ialloc, stored]⟩

/-- Appending succeeds when there is room, and takes the blocks it needs. -/
theorem Holds.iappend_succeeds (holds : Holds g kind data) (lower : 1 ≤ inum)
    (upper : inum < g.freeinode) {p : List UInt8} (fits : (data inum ++ p).length ≤ maxFile * bsize)
    (room : g.freeblock + blocksUsed (data inum ++ p).length ≤
      fssize + blocksUsed (data inum).length) :
    ∃ g', Mkfs.iappend g inum p = some g' ∧
      g'.freeblock + blocksUsed (data inum).length ≤
        g.freeblock + blocksUsed (data inum ++ p).length := by
  obtain ⟨ip, stores⟩ := holds.file inum lower upper
  have bound : inum < ninodes := Nat.lt_of_lt_of_le upper holds.ok.inodes
  have read := rinode_succeeds holds.ok bound
  generalize dinodeIn (g.image.sectors (iblock sb inum)) inum = din at read
  obtain ⟨-, load⟩ := rinode_view stores.entry read
  obtain ⟨type, -, rfl⟩ := map_eq_some_iff.mp load
  have size : din.size.toNat = (data inum).length := stores.size
  have maps := (stores.opened holds.owns).maps (stores.type ▸ holds.notDevice inum)
  rw [stores.size] at maps
  rw [length_append] at fits room ⊢
  obtain ⟨g₁, din₁, off, looped, spent⟩ := appendLoop_succeeds (p := p) holds.ok maps fits room
  obtain ⟨-, ok₁, -, -⟩ := appendLoop_writeLoop holds.ok maps (le_blocksFor_mul _)
    (Nat.le_refl p.length) looped
  obtain ⟨image, stored⟩ := winode_succeeds ok₁ bound { din₁ with size := ofNat off }
  refine ⟨{ g₁ with image }, ?_, spent⟩
  simp [Mkfs.iappend, read, size, looped, stored]

theorem Holds.copyFile_succeeds (holds : Holds g kind data) (fuel : Nat)
    (bytes : List UInt8) (lower : 1 ≤ inum) (upper : inum < g.freeinode)
    (fits : (data inum ++ bytes).length ≤ maxFile * bsize)
    (room : g.freeblock + blocksUsed (data inum ++ bytes).length ≤
      fssize + blocksUsed (data inum).length) :
    ∃ g', Mkfs.copyFile fuel g inum bytes = some g' ∧
      g'.freeblock + blocksUsed (data inum).length ≤
        g.freeblock + blocksUsed (data inum ++ bytes).length := by
  have more : blocksUsed (data inum).length ≤ blocksUsed (data inum ++ bytes).length :=
    blocksUsed_mono (by rw [length_append]; omega)
  induction fuel generalizing g data bytes with
  | zero => exact ⟨g, rfl, by omega⟩
  | succ fuel ih =>
    by_cases none : bytes = []
    · exact ⟨g, by simp [Mkfs.copyFile, if_pos none], by omega⟩
    · have positive : 0 < bytes.length := length_pos_iff.mpr none
      have whole : data inum ++ bytes = data inum ++ bytes.take bsize ++ bytes.drop bsize := by
        rw [append_assoc, take_append_drop]
      have part : (data inum ++ bytes.take bsize).length ≤ (data inum ++ bytes).length := by
        simp only [length_append, length_take]
        omega
      have partUsed := blocksUsed_mono part
      obtain ⟨g₁, first, spent⟩ := holds.iappend_succeeds lower upper
        (Nat.le_trans part fits) (by omega)
      have holds₁ := holds.iappend lower upper (take_bsize_ne_nil none) first
      rw [whole] at fits room partUsed more ⊢
      have now : update data inum (data inum ++ bytes.take bsize) inum =
        data inum ++ bytes.take bsize := update_self ..
      obtain ⟨g', rest, spent'⟩ := ih holds₁ (bytes.drop bsize)
        (by rw [iappend_freeinode first]; exact upper) (by rw [now]; exact fits) (by rw [now]; omega)
        (by rw [now]; omega)
      rw [now] at spent'
      refine ⟨g', ?_, by omega⟩
      simp [Mkfs.copyFile, if_neg none, first, rest]

/-! ## The files -/

/-- The blocks of the root directory and of the files. -/
def total (files : List File) : Nat :=
  blocksUsed (rootData files).length +
    (files.map fun file => blocksUsed (file.contents.getD []).length).sum

@[simp]
theorem dirent_length (inum : Nat) (name : List UInt8) : (dirent inum name).length = 16 := by
  simp only [dirent, length_cons, length_append, length_replicate,
    length_take, dirsiz]
  omega

theorem entries_length (inum : Nat) (files : List File) :
    (entries inum files).length = 16 * files.length := by
  induction files generalizing inum with
  | nil => rfl
  | cons file rest ih =>
    simp only [entries, length_append, dirent_length, ih, length_cons]
    omega

theorem rootData_length (files : List File) :
    (rootData files).length = 16 * (files.length + 2) := by
  simp only [rootData, length_append, dirent_length, entries_length]
  omega

theorem total_append (first second : List File) : total first ≤ total (first ++ second) := by
  have root : blocksUsed (rootData first).length ≤ blocksUsed (rootData (first ++ second)).length :=
    blocksUsed_mono (by simp only [rootData_length, length_append]; omega)
  simp only [total, map_append, sum_append]
  omega

/-- A file that `mkfs` can copy. -/
structure File.Fits (file : File) : Prop where
  name : 47 ∉ file.name
  opened : file.contents.isSome = true
  size : (file.contents.getD []).length ≤ maxFile * bsize

theorem Made.addFile_succeeds {file : File} (made : Made g files)
    (few : files.length < 198) (fits : file.Fits) (spent : g.freeblock ≤ nmeta + total files)
    (room : nmeta + total (files ++ [file]) ≤ fssize) :
    ∃ g', Mkfs.addFile rootino g file = some g' ∧
      g'.freeblock ≤ nmeta + total (files ++ [file]) := by
  obtain ⟨bytes, opened⟩ := isSome_iff_exists.mp fits.opened
  have size := fits.size
  rw [opened] at size
  have limit : g.freeinode < ninodes := by
    rw [made.freeinode]
    simp only [ninodes]
    omega
  have regular : FileType.file ≠ .dev := (by rintro ⟨⟩)
  obtain ⟨inum, g₁, allocated⟩ := ialloc_succeeds made.holds.ok limit .file
  obtain ⟨rfl, next, same, holds₁⟩ := made.holds.ialloc limit (by rw [made.freeinode]; omega)
    regular allocated
  have away : g.freeinode ≠ rootino := by
    rw [made.freeinode]
    simp only [rootino]
    omega
  -- first the entry in the root directory
  have root : update (dataOf files) g.freeinode [] rootino = rootData files := by
    rw [update_of_ne away.symm, dataOf, if_pos rfl]
  have linkedData : (rootData files ++ dirent g.freeinode file.shortName).length =
      (rootData (files ++ [file])).length := by
    simp only [length_append, rootData_length, dirent_length, length_singleton]
    omega
  have totals : total (files ++ [file]) + blocksUsed (rootData files).length =
      total files + blocksUsed (rootData (files ++ [file])).length + blocksUsed bytes.length := by
    simp only [total, map_append, sum_append, map_cons, map_nil, sum_cons,
      sum_nil, opened, getD_some]
    omega
  have rootFits : (rootData (files ++ [file])).length ≤ maxFile * bsize := by
    simp only [rootData_length, length_append, length_singleton, maxFile,
      nindirect, bsize]
    omega
  have inside : rootino < g₁.freeinode := by
    rw [next, made.freeinode]
    simp only [rootino]
    omega
  obtain ⟨g₂, linked, spent₂⟩ := holds₁.iappend_succeeds (p := dirent g.freeinode file.shortName)
    (Nat.le_refl rootino) inside (by rw [root, linkedData]; exact rootFits)
    (by rw [root, linkedData]; omega)
  rw [root, linkedData] at spent₂
  have next₂ := iappend_freeinode linked
  have holds₂ := holds₁.iappend (Nat.le_refl rootino) inside (dirent_ne_nil _ _) linked
  -- then the contents of the file
  generalize filled : update (update (dataOf files) g.freeinode []) rootino _ =
    data₂ at holds₂
  have empty : data₂ g.freeinode = [] := by
    rw [← filled, update_of_ne away, update_self]
  have none : blocksUsed ([] : List UInt8).length = 0 := by decide
  obtain ⟨g₃, copied, spent₃⟩ := holds₂.copyFile_succeeds bytes.length bytes
    (show 1 ≤ g.freeinode by rw [made.freeinode]; omega) (by rw [next₂, next]; omega)
    (by rw [empty]; exact size) (by rw [empty, nil_append, none]; omega)
  rw [empty, nil_append] at spent₃
  refine ⟨g₃, ?_, by omega⟩
  simp [Mkfs.addFile, if_neg fits.name, opened, allocated, linked, copied]

theorem Made.addFiles_succeeds {done : List File} (made : Made g done)
    (few : done.length + files.length ≤ 198) (fits : ∀ file ∈ files, file.Fits)
    (spent : g.freeblock ≤ nmeta + total done) (room : nmeta + total (done ++ files) ≤ fssize) :
    ∃ g', files.foldlM (Mkfs.addFile rootino) g = some g' ∧
      g'.freeblock ≤ nmeta + total (done ++ files) := by
  induction files generalizing g done with
  | nil =>
    rw [append_nil]
    exact ⟨g, rfl, spent⟩
  | cons file rest ih =>
    rw [length_cons] at few
    have split : done ++ file :: rest = (done ++ [file]) ++ rest := by
      rw [append_assoc, singleton_append]
    rw [split] at room ⊢
    have part := total_append (done ++ [file]) rest
    obtain ⟨g₁, first, spent₁⟩ := made.addFile_succeeds (by omega)
      (fits file mem_cons_self) spent (by omega)
    have made₁ := made.addFile (by omega) first
    obtain ⟨g', others, spent'⟩ := ih made₁
      (by rw [length_append, length_singleton]; omega)
      (fun other member => fits other (mem_cons_of_mem file member)) spent₁ room
    exact ⟨g', by rw [foldlM_cons, first]; exact others, spent'⟩

/-! ## The program -/

theorem makeRoot_succeeds :
    ∃ g, makeRoot = some (rootino, g) ∧ g.freeblock ≤ nmeta + total [] := by
  have holds := start_holds fun _ => []
  have directory : FileType.dir ≠ .dev := nofun
  obtain ⟨inum, g₁, allocated⟩ := ialloc_succeeds holds.ok (by decide) .dir
  obtain ⟨rfl, next, free, holds₁⟩ := holds.ialloc (by decide) (Nat.le_refl 1) directory allocated
  have root : start.freeinode = rootino := rfl
  have empty : update (fun _ : Nat => ([] : List UInt8)) rootino [] = fun _ => [] :=
    update_eq_self_iff.mpr rfl
  rw [root] at allocated next holds₁
  rw [empty] at holds₁
  have inside : rootino < g₁.freeinode := by
    rw [next]
    decide
  -- both entries go to the first block of the directory
  obtain ⟨g₂, linked, spent₂⟩ := holds₁.iappend_succeeds (p := dirent rootino dot)
    (Nat.le_refl rootino) inside (by rw [nil_append]; decide)
    (by rw [free]; decide)
  rw [free] at spent₂
  have next₂ := iappend_freeinode linked
  have holds₂ := holds₁.iappend (Nat.le_refl rootino) inside (dirent_ne_nil _ _) linked
  rw [nil_append] at holds₂
  generalize filled : update (fun _ : Nat => ([] : List UInt8)) rootino
    (dirent rootino dot) = data₂ at holds₂
  have one : data₂ rootino = dirent rootino dot := by
    rw [← filled, update_self]
  have first : g₂.freeblock ≤ nmeta + 1 := spent₂
  obtain ⟨g₃, linked', spent₃⟩ := holds₂.iappend_succeeds (p := dirent rootino dotdot)
    (Nat.le_refl rootino) (by rw [next₂]; exact inside)
    (by rw [one]; decide)
    (by
      rw [one]
      exact Nat.le_trans (Nat.add_le_add_right first _) (by decide))
  rw [one, length_append, dirent_length, dirent_length] at spent₃
  have used : blocksUsed (16 + 16) = blocksUsed 16 := by decide
  refine ⟨g₃, ?_, ?_⟩
  · have begun : ialloc ⟨wsect blank 1 (putAll zeroes 0 sb.words), 1, nmeta⟩ .dir =
      some (rootino, g₁) := allocated
    simp [makeRoot, begun, linked, linked']
  · have needed : 1 ≤ total [] := by decide
    omega

theorem finish_succeeds (made : Made g files) : ∃ g', finish g rootino = some g' := by
  have bound : rootino < ninodes := by decide
  have read := rinode_succeeds made.holds.ok bound
  obtain ⟨image, stored⟩ := winode_succeeds made.holds.ok bound
    { dinodeIn (g.image.sectors (iblock sb rootino)) rootino with
      size := ofNat
        (((dinodeIn (g.image.sectors (iblock sb rootino)) rootino).size.toNat / bsize + 1) * bsize) }
  have bits : g.freeblock < bsize * 8 :=
    Nat.lt_of_le_of_lt made.holds.ok.upper (by decide)
  exact ⟨_, by
    simp only [finish, read, stored, balloc, if_pos bits, bind_eq_bind, bind_some]
    rfl⟩

/-- If everything fits, the image is made. -/
theorem main_succeeds (few : files.length ≤ 198)
    (fits : ∀ file ∈ files, file.Fits) (room : nmeta + total files ≤ fssize) :
    ∃ g, main files = some g := by
  obtain ⟨g₁, rooted, spent⟩ := makeRoot_succeeds
  obtain ⟨-, made⟩ := makeRoot_made rooted
  obtain ⟨g₂, added, -⟩ := made.addFiles_succeeds (by rw [length_nil]; omega) fits spent room
  have made₂ := made.addFiles (by rw [length_nil]; omega) added
  obtain ⟨g₃, finished⟩ := finish_succeeds made₂
  exact ⟨g₃, by simp [main, rooted, added, finished]⟩

end Laboratorio.Xv6.Mkfs
