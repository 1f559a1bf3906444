import Mathlib.Data.List.FinRange
import Mathlib.Data.List.Nodup
import Laboratorio.Lib.Table
import Laboratorio.Xv6.Inode.BlockMap
import Laboratorio.Xv6.Mkfs.Model

/-! # The block map stays consistent

* `Consistent` — no holes, no shared blocks, an exact bitmap, and in-memory inodes that
  agree with the inode table.
* `Stored` — what a call on a locked inode leaves: one new entry in the inode table that
  agrees with the inode in memory, and a bitmap that tracks the table.  `writei_stored`,
  `readi_stored` and `itrunc_stored` are the three calls.
* `block_map_consistent` — a consistent file system stays consistent in every sequence
  of calls, and `readi` changes nothing on the disk.
-/

namespace Laboratorio.Xv6.Inodes

open Laboratorio.Lib Function List Nat Option

variable {fs' fs : FileSystem} {inum : Nat} {ip' : Inode} {session next : Session}
  {table : Nat → Option Inode} {addr : Nat × Slot → Nat} {blocks : Nat → Block}

/-- The in-memory inode and the one in the table agree. -/
def Inode.Agrees (ip dip : Inode) : Prop :=
  ip.type = dip.type ∧ ip.nlink = dip.nlink ∧ ip.size = dip.size ∧ ip.addrs = dip.addrs

structure Consistent (fs : FileSystem) : Prop where
  noHoles : ∀ inum ip, fs.dinodes inum = some ip → ip.type ≠ .dev → ∀ bn,
    bn < blocksFor ip.size ↔ blockAddr fs.blocks ip bn ≠ 0
  distinct : ∀ inum ip slot inum' ip' slot', fs.dinodes inum = some ip →
    fs.dinodes inum' = some ip' → addrAt fs.blocks ip slot ≠ 0 →
    addrAt fs.blocks ip slot = addrAt fs.blocks ip' slot' → inum = inum' ∧ slot = slot'
  inDataArea : ∀ inum ip slot, fs.dinodes inum = some ip → addrAt fs.blocks ip slot ≠ 0 →
    fs.sb.dataStart ≤ addrAt fs.blocks ip slot ∧ addrAt fs.blocks ip slot < fs.sb.size
  bitmapExact : ∀ b, fs.sb.dataStart ≤ b → b < fs.sb.size → (fs.bitmap b = true ↔
    ∃ inum ip slot, fs.dinodes inum = some ip ∧ addrAt fs.blocks ip slot = b)
  cacheAgrees : ∀ inum ip, 0 < (fs.icache inum).ref → (fs.icache inum).locked = false →
    (fs.icache inum).copy = some ip → ∃ dip, fs.dinodes inum = some dip ∧ ip.Agrees dip

/-- The boot block, the log, the inode blocks and the bitmap are marked in use. -/
def MetadataMarked (fs : FileSystem) : Prop :=
  ∀ b, b < fs.sb.dataStart → fs.bitmap b = true


/-! ## Freeing blocks -/

section Freeing

variable {low high : Nat} {addr : Nat × Slot → Nat} {loose : List Nat}

theorem bfree_spec {b : Nat}
    (tracks : Tracks low high fs.bitmap addr (b :: loose)) (ok : bfree fs b = .ok fs') :
    Tracks low high fs'.bitmap addr loose ∧ SameTables fs fs' ∧ fs'.blocks = fs.blocks := by
  unfold bfree at ok
  split at ok
  · cases ok
    exact ⟨tracks.give, ⟨rfl, rfl, rfl⟩, rfl⟩
  · cases ok

theorem freeAll_spec {list : List Nat}
    (tracks : Tracks low high fs.bitmap addr (list.filter (· ≠ 0) ++ loose))
    (ok : freeAll fs list = .ok fs') :
    Tracks low high fs'.bitmap addr loose ∧ SameTables fs fs' ∧ fs'.blocks = fs.blocks := by
  induction list generalizing fs with
  | nil =>
    simp only [freeAll, Except.ok.injEq] at ok
    subst ok
    exact ⟨tracks, .refl fs, rfl⟩
  | cons b rest ih =>
    unfold freeAll at ok
    split at ok
    · rename_i zero
      rw [List.filter_cons_of_neg (by simpa using zero)] at tracks
      exact ih tracks ok
    · rename_i nonzero
      rw [List.filter_cons_of_pos (by simpa using nonzero)] at tracks
      obtain ⟨freed, freeOk, ok⟩ := of_bind_ok ok
      obtain ⟨freedTracks, freedTables, freedBlocks⟩ := bfree_spec tracks freeOk
      obtain ⟨restTracks, restTables, restBlocks⟩ := ih freedTracks ok
      exact ⟨restTracks, freedTables.trans restTables, restBlocks.trans freedBlocks⟩

end Freeing

/-- The places of an inode, in the order in which `itrunc` frees their blocks. -/
def places (inum : Nat) : List (Nat × Slot) :=
  (List.ofFn fun i : Fin ndirect => (inum, .direct i.castSucc)) ++
    ((List.ofFn fun j : Fin nindirect => (inum, .indirect j)) ++
      [(inum, .direct (Fin.last ndirect))])

theorem mem_places {place : Nat × Slot} : place ∈ places inum ↔ place.1 = inum := by
  obtain ⟨other, slot⟩ := place
  simp only [places, List.mem_append, List.mem_ofFn, Prod.mk.injEq, List.mem_singleton]
  constructor
  · rintro (⟨_, same, _⟩ | ⟨_, same, _⟩ | ⟨same, _⟩)
    · exact same.symm
    · exact same.symm
    · exact same
  · intro same
    cases slot with
    | direct i =>
      cases i using Fin.lastCases with
      | last => exact .inr (.inr ⟨same, rfl⟩)
      | cast k => exact .inl ⟨k, same.symm, rfl⟩
    | indirect j => exact .inr (.inl ⟨j, same.symm, rfl⟩)

theorem nodup_places (inum : Nat) : (places inum).Nodup := by
  refine List.Nodup.append ?_ (List.Nodup.append ?_ (List.nodup_singleton _) ?_) ?_
  · exact List.nodup_ofFn_ofInjective fun i j equal => by simpa using equal
  · exact List.nodup_ofFn_ofInjective fun i j equal => by simpa using equal
  · intro place first second
    simp only [List.mem_ofFn] at first second
    obtain ⟨_, rfl⟩ := first
    simp at second
  · intro place first second
    simp only [List.mem_append, List.mem_ofFn, List.mem_singleton] at first second
    obtain ⟨i, rfl⟩ := first
    rcases second with ⟨j, equal⟩ | equal
    · simp at equal
    · simp only [Prod.mk.injEq, Slot.direct.injEq, true_and] at equal
      exact absurd equal (Fin.castSucc_ne_last i)

/-- The blocks in the order of `itrunc`. -/
theorem map_places {ip : Inode} (entry : table inum = some ip) :
    (places inum).map (addrOf blocks table) =
      (List.ofFn fun i : Fin ndirect => ip.addrs i.castSucc) ++
        ((List.ofFn fun j : Fin nindirect => addrAt blocks ip (.indirect j)) ++
          [ip.addrs (Fin.last ndirect)]) := by
  simp [places, comp_def, addrOf_some entry, addrAt]

/-! ## Calls on a locked inode -/

theorem Inode.Agrees.refl (ip : Inode) : ip.Agrees ip := ⟨rfl, rfl, rfl, rfl⟩

/-- What a call on a locked inode leaves behind. -/
structure Stored (fs : FileSystem) (inum : Nat) (fs' : FileSystem) (ip' dip' : Inode) : Prop where
  sb : fs'.sb = fs.sb
  icache : fs'.icache = fs.icache
  dinodes : fs'.dinodes = update fs.dinodes inum (some dip')
  agrees : ip'.Agrees dip'
  owns : Owns fs' fs'.dinodes []
  extent : dip'.type ≠ .dev → Extent (addrOf fs'.blocks fs'.dinodes) inum (blocksFor dip'.size)
  others : ∀ other slot, other ≠ inum →
    addrOf fs'.blocks fs'.dinodes (other, slot) = addrOf fs.blocks fs.dinodes (other, slot)

section Locked

variable {fs : FileSystem} {inum : Nat} {ip dip : Inode}

/-- An inode in memory that agrees with its entry in the table. -/
structure Opened (fs : FileSystem) (inum : Nat) (ip dip : Inode) : Prop where
  owns : Owns fs fs.dinodes []
  entry : fs.dinodes inum = some dip
  agrees : ip.Agrees dip
  extent : dip.type ≠ .dev → Extent (addrOf fs.blocks fs.dinodes) inum (blocksFor dip.size)

section

variable (opened : Opened fs inum ip dip)
include opened

theorem Stored.unchanged : Stored fs inum fs ip dip where
  sb := rfl
  icache := rfl
  dinodes := by rw [← opened.entry, update_eq_self]
  agrees := opened.agrees
  owns := opened.owns
  extent := opened.extent
  others _ _ _ := rfl

theorem Opened.addrOf_written (blocks : Nat → Block) :
    addrOf blocks (update fs.dinodes inum (some ip)) = addrOf blocks fs.dinodes := by
  rw [addrOf_congr opened.agrees.2.2.2, ← opened.entry, update_eq_self]

theorem Opened.owns_written : Owns fs (update fs.dinodes inum (some ip)) [] := by
  show Tracks _ _ _ _ _
  rw [opened.addrOf_written]
  exact opened.owns

theorem Opened.maps (notDevice : ip.type ≠ .dev) :
    Maps fs.dinodes inum fs ip (blocksFor ip.size) := by
  refine ⟨opened.owns_written, ?_⟩
  rw [opened.addrOf_written, opened.agrees.2.2.1]
  exact opened.extent (opened.agrees.1 ▸ notDevice)

theorem readi_unchanged {off n : Nat} {bytes : Option (List UInt8)}
    (ok : readi fs ip off n = .ok (bytes, fs', ip')) : fs' = fs ∧ ip' = ip := by
  unfold readi at ok
  split at ok
  · simp only [Except.ok.injEq, Prod.mk.injEq] at ok
    exact ⟨ok.2.1.symm, ok.2.2.symm⟩
  · rename_i notDevice
    split at ok
    · simp only [Except.ok.injEq, Prod.mk.injEq] at ok
      exact ⟨ok.2.1.symm, ok.2.2.symm⟩
    · rename_i inFile
      obtain ⟨⟨read, final, finalIp⟩, loopOk, ok⟩ := of_bind_ok ok
      cases ok
      -- the loop stays below `size`, hence inside the extent
      have covered := le_blocksFor_mul ip.size
      refine readLoop_unchanged (opened.maps notDevice) ?_ loopOk
      split <;> omega

theorem writei_stored {off : Nat} {src : List UInt8} {count : Option Nat}
    (ok : writei fs inum ip off src = .ok (count, fs', ip')) :
    ∃ dip', Stored fs inum fs' ip' dip' := by
  unfold writei at ok
  split at ok
  · cases ok
    exact ⟨dip, .unchanged opened⟩
  · rename_i notDevice
    split at ok
    · cases ok
      exact ⟨dip, .unchanged opened⟩
    · rename_i inFile
      split at ok
      · cases ok
        exact ⟨dip, .unchanged opened⟩
      · obtain ⟨⟨looped, loopedIp⟩, loopOk, ok⟩ := of_bind_ok ok
        have covered := le_blocksFor_mul ip.size
        have written := opened.addrOf_written fs.blocks
        obtain ⟨grown, maps, unchanged⟩ :=
          writeLoop_spec (opened.maps notDevice) (by omega) (Nat.le_refl _) loopOk
        have loopedSize : loopedIp.size = ip.size := by rw [grown.inode]
        simp only at ok
        split at ok
        · rename_i grows
          cases ok
          have resized : addrOf looped.blocks (update fs.dinodes inum
                (some { loopedIp with size := off + src.length })) =
              addrOf looped.blocks (update fs.dinodes inum (some loopedIp)) :=
            addrOf_congr rfl
          have table : (iupdate looped inum { loopedIp with size := off + src.length }).dinodes =
              update fs.dinodes inum (some { loopedIp with size := off + src.length }) := by
            rw [iupdate, grown.tables.dinodes]
          refine ⟨{ loopedIp with size := off + src.length }, grown.tables.sb, grown.tables.icache,
            table, .refl _, ?_, ?_, ?_⟩
          · rw [table]
            show Tracks _ _ _ (addrOf looped.blocks _) _
            rw [resized]
            exact grown.owns
          · intro _
            rw [table]
            show Extent (addrOf looped.blocks _) _ _
            have larger : blocksFor ip.size ≤ blocksFor (off + src.length) :=
              blocksFor_mono (by omega)
            rw [resized, ← Nat.max_eq_right larger]
            exact maps.extent
          · intro other slot different
            rw [table]
            show addrOf looped.blocks _ _ = _
            rw [resized, grown.others other slot different, written]
        · rename_i keepsSize
          simp only [Except.ok.injEq, Prod.mk.injEq] at ok
          obtain ⟨-, rfl, rfl⟩ := ok
          -- no `iupdate`: every block was mapped already, so no address changed
          have inside : off + src.length ≤ ip.size := by
            simp only [not_and] at keepsSize
            by_cases empty : src = []
            · rw [empty, List.length_nil]
              omega
            · have := keepsSize empty
              omega
          obtain rfl := unchanged (Nat.le_trans inside covered)
          have same := opened.addrOf_written looped.blocks
          refine ⟨dip, grown.tables.sb, grown.tables.icache, ?_, opened.agrees, ?_, ?_, ?_⟩
          · rw [grown.tables.dinodes, ← opened.entry, update_eq_self]
          · rw [grown.tables.dinodes]
            show Tracks _ _ _ _ _
            rw [← same]
            exact grown.owns
          · intro _
            rw [grown.tables.dinodes, ← same, ← opened.agrees.2.2.1,
              ← Nat.max_eq_left (blocksFor_mono inside)]
            exact maps.extent
          · intro other slot different
            rw [grown.tables.dinodes, ← same, grown.others other slot different, written]

end

theorem addrOf_blank {blank : Inode} (zero : ∀ i, blank.addrs i = 0) (slot : Slot) :
    addrOf blocks (update table inum (some blank)) (inum, slot) = 0 := by
  rw [addrOf_some (update_self ..)]
  cases slot with
  | direct i => exact zero i
  | indirect j => exact if_pos (zero _)

theorem extent_zero (blank : ∀ slot, addr (inum, slot) = 0) : Extent addr inum (blocksFor 0) := by
  intro bn
  have none : ¬ bn < blocksFor 0 := by
    simp only [blocksFor, bsize, nindirect]
    omega
  refine iff_of_false none ?_
  rintro ⟨slot, _, nonzero⟩
  exact nonzero (blank slot)

theorem itrunc_stored (opened : Opened fs inum ip dip)
    (ok : itrunc fs inum ip = .ok (fs', ip')) : ip' = ip.emptied ∧ Stored fs inum fs' ip' ip' := by
  have inMemory : update fs.dinodes inum (some ip) inum = some ip :=
    update_self ..
  -- the inode lets go of all its blocks at once; they are then freed in order
  have letGo := opened.owns_written.clear (places inum) (nodup_places inum)
  simp only [mem_places] at letGo
  have emptied : (fun place : Nat × Slot => if place.1 = inum then 0 else
        addrOf fs.blocks (update fs.dinodes inum (some ip)) place) =
      addrOf fs.blocks (update fs.dinodes inum (some ip.emptied)) := by
    funext ⟨other, slot⟩
    by_cases same : other = inum
    · subst same
      rw [if_pos rfl, addrOf_blank fun _ => rfl]
    · simp [if_neg same, addrOf, update_of_ne same]
  rw [emptied, Tracks.held, map_places inMemory, filter_append, filter_append,
    append_nil] at letGo
  obtain ⟨first, directOk, ok⟩ := of_bind_ok ok
  obtain ⟨firstTracks, firstTables, firstBlocks⟩ := freeAll_spec letGo directOk
  obtain ⟨second, indirectOk, ok⟩ := of_bind_ok ok
  cases ok
  have indirect : Tracks fs.sb.dataStart fs.sb.size second.bitmap
        (addrOf fs.blocks (update fs.dinodes inum (some ip.emptied))) [] ∧
      SameTables first second ∧ second.blocks = first.blocks := by
    unfold freeIndirect at indirectOk
    split at indirectOk
    · rename_i zero
      cases indirectOk
      simp only [addrAt, zero] at firstTracks
      refine ⟨?_, .refl first, rfl⟩
      simpa using firstTracks
    · rename_i nonzero
      simp only [addrAt, nonzero] at firstTracks
      obtain ⟨third, wordsOk, indirectOk⟩ := of_bind_ok indirectOk
      rw [firstBlocks] at wordsOk
      obtain ⟨thirdTracks, thirdTables, thirdBlocks⟩ := freeAll_spec firstTracks wordsOk
      rw [filter_cons_of_pos (by simpa using nonzero)] at thirdTracks
      obtain ⟨lastTracks, lastTables, lastBlocks⟩ := bfree_spec thirdTracks indirectOk
      exact ⟨lastTracks, thirdTables.trans lastTables, lastBlocks.trans thirdBlocks⟩
  obtain ⟨secondTracks, secondTables, secondBlocks⟩ := indirect
  have tables := firstTables.trans secondTables
  have blocks : second.blocks = fs.blocks := secondBlocks.trans firstBlocks
  have table : (iupdate second inum ip.emptied).dinodes =
      update fs.dinodes inum (some ip.emptied) := by
    rw [iupdate, tables.dinodes]
  refine ⟨rfl, tables.sb, tables.icache, table, .refl _, ?_, ?_, ?_⟩
  · rw [table]
    show Tracks second.sb.dataStart second.sb.size second.bitmap (addrOf second.blocks _) _
    rw [tables.sb, blocks]
    exact secondTracks
  · intro _
    exact extent_zero fun slot => addrOf_blank (fun _ => rfl) slot
  · intro other slot different
    rw [table]
    show addrOf second.blocks _ _ = _
    rw [blocks]
    simp [addrOf, update_of_ne different]

end Locked

/-! ## The invariant of a session -/

structure SessionInv (session : Session) : Prop where
  owns : Owns session.fs session.fs.dinodes []
  extent : ∀ inum ip, session.fs.dinodes inum = some ip → ip.type ≠ .dev →
    Extent (addrOf session.fs.blocks session.fs.dinodes) inum (blocksFor ip.size)
  locks : ∀ inum ∈ session.mine,
    0 < (session.fs.icache inum).ref ∧ (session.fs.icache inum).locked = true
  agrees : ∀ inum ip, 0 < (session.fs.icache inum).ref →
    (session.fs.icache inum).locked = false ∨ inum ∈ session.mine →
    (session.fs.icache inum).copy = some ip →
    ∃ dip, session.fs.dinodes inum = some dip ∧ ip.Agrees dip

theorem extent_congr {addr' : Nat × Slot → Nat} {count : Nat}
    (same : ∀ slot, addr' (inum, slot) = addr (inum, slot)) (extent : Extent addr inum count) :
    Extent addr' inum count := by
  intro bn
  simp only [same]
  exact extent bn

section Session

variable {fs : FileSystem} {mine : List Nat}
  {operation : FileSystem → Inode → Except Panic (FileSystem × Inode)}

theorem Consistent.sessionInv (consistent : Consistent fs) (marked : MetadataMarked fs) :
    SessionInv ⟨fs, []⟩ where
  owns :=
    { low_pos := fs.sb.dataStart_pos
      area := by
        intro ⟨inum, slot⟩ nonzero
        cases entry : fs.dinodes inum with
        | none => simp [addrOf, entry] at nonzero
        | some ip =>
          rw [addrOf_some entry] at nonzero ⊢
          exact consistent.inDataArea inum ip slot entry nonzero
      distinct := by
        intro ⟨inum, slot⟩ ⟨inum', slot'⟩ nonzero equal
        cases entry : fs.dinodes inum with
        | none => simp [addrOf, entry] at nonzero
        | some ip =>
          rw [addrOf_some entry] at nonzero equal
          cases entry' : fs.dinodes inum' with
          | none => simp [addrOf, entry', nonzero] at equal
          | some ip' =>
            rw [addrOf_some entry'] at equal
            obtain ⟨rfl, rfl⟩ :=
              consistent.distinct inum ip slot inum' ip' slot' entry entry' nonzero equal
            rfl
      loose_area := nofun
      loose_nodup := nodup_nil
      loose_free := nofun
      exact := by
        intro b lower upper
        have nonzero : b ≠ 0 := ne_of_gt (lt_of_lt_of_le fs.sb.dataStart_pos lower)
        simp [consistent.bitmapExact b lower upper, exists_place nonzero]
      reserved := marked }
  extent inum ip entry notDevice := (extent_iff entry _).mpr (consistent.noHoles inum ip entry notDevice)
  locks := nofun
  agrees inum ip used free copy :=
    consistent.cacheAgrees inum ip used (free.resolve_right (not_mem_nil)) copy

section

variable (inv : SessionInv ⟨fs, mine⟩)
include inv

theorem SessionInv.opened {ip dip : Inode} (entry : fs.dinodes inum = some dip)
    (agrees : ip.Agrees dip) : Opened fs inum ip dip :=
  ⟨inv.owns, entry, agrees, inv.extent inum dip entry⟩

theorem SessionInv.consistent : Consistent fs ∧ MetadataMarked fs := by
  refine ⟨⟨?_, ?_, ?_, ?_, ?_⟩, inv.owns.reserved⟩
  · intro inum ip entry notDevice
    exact (extent_iff entry _).mp (inv.extent inum ip entry notDevice)
  · intro inum ip slot inum' ip' slot' entry entry' nonzero equal
    rw [← addrOf_some entry] at nonzero equal
    rw [← addrOf_some entry'] at equal
    simpa using inv.owns.distinct _ _ nonzero equal
  · intro inum ip slot entry nonzero
    rw [← addrOf_some entry] at nonzero ⊢
    exact inv.owns.area _ nonzero
  · intro b lower upper
    have nonzero : b ≠ 0 := ne_of_gt (lt_of_lt_of_le fs.sb.dataStart_pos lower)
    simp [inv.owns.exact b lower upper, exists_place nonzero]
  · intro inum ip used free copy
    exact inv.agrees inum ip used (.inl free) copy

theorem SessionInv.setEntry {entry : Entry}
    {mine' : List Nat} (others : ∀ other, other ≠ inum → (other ∈ mine' ↔ other ∈ mine))
    (lock : inum ∈ mine' → 0 < entry.ref ∧ entry.locked = true)
    (agrees : ∀ ip, 0 < entry.ref → entry.locked = false ∨ inum ∈ mine' → entry.copy = some ip →
      ∃ dip, fs.dinodes inum = some dip ∧ ip.Agrees dip) :
    SessionInv ⟨fs.setEntry inum entry, mine'⟩ := by
  refine ⟨inv.owns, inv.extent, ?_, ?_⟩
  · intro other member
    simp only [FileSystem.setEntry]
    induction other using update_cases with
    | own => exact lock member
    | others other same => exact inv.locks other ((others other same).mp member)
  · intro other ip
    simp only [FileSystem.setEntry]
    induction other using update_cases with
    | own => exact agrees ip
    | others other same =>
      rw [others other same]
      exact inv.agrees other ip

/-- A call on a locked inode, with the inode in memory written back to its entry. -/
theorem SessionInv.stored
    {dip' : Inode} (member : inum ∈ mine) (stored : Stored fs inum fs' ip' dip') :
    SessionInv ⟨fs'.setEntry inum { fs'.icache inum with copy := some ip' }, mine⟩ := by
  have entry : fs'.dinodes inum = some dip' := by rw [stored.dinodes, update_self]
  have before : SessionInv ⟨fs, mine⟩ := inv
  refine ⟨stored.owns, ?_, ?_, ?_⟩
  · intro other ip otherEntry notDevice
    by_cases same : other = inum
    · subst same
      obtain rfl : dip' = ip := Option.some.inj (entry.symm.trans otherEntry)
      exact stored.extent notDevice
    · refine extent_congr (fun slot => stored.others other slot same) ?_
      have kept : fs.dinodes other = some ip := by
        rwa [show (fs'.setEntry inum _).dinodes = fs'.dinodes from rfl, stored.dinodes,
          update_of_ne same] at otherEntry
      exact before.extent other ip kept notDevice
  · intro other otherMember
    have lock := before.locks other otherMember
    by_cases same : other = inum
    · subst same
      simpa [FileSystem.setEntry, stored.icache] using lock
    · simpa [FileSystem.setEntry, same, stored.icache] using lock
  · intro other ip used free copy
    by_cases same : other = inum
    · subst same
      simp only [FileSystem.setEntry, update_self, Option.some.injEq] at copy
      exact ⟨dip', entry, copy ▸ stored.agrees⟩
    · simp only [FileSystem.setEntry, update_of_ne same, stored.icache] at used free copy
      obtain ⟨dip, kept, agrees⟩ := before.agrees other ip used free copy
      refine ⟨dip, ?_, agrees⟩
      show fs'.dinodes other = some dip
      rw [stored.dinodes, update_of_ne same, kept]

theorem SessionInv.iget (ok : iget fs inum = .ok fs') : SessionInv ⟨fs', mine⟩ := by
  unfold Inodes.iget at ok
  simp only at ok
  split at ok
  · rename_i used
    cases ok
    refine inv.setEntry (fun _ _ => .rfl) (fun member => ⟨by simp, (inv.locks inum member).2⟩) ?_
    exact fun ip _ free copy => inv.agrees inum ip used free copy
  · rename_i unused
    split at ok
    · cases ok
      refine inv.setEntry (fun _ _ => .rfl) (fun member => ?_) nofun
      exact absurd (inv.locks inum member).1 unused
    · cases ok

theorem SessionInv.ialloc {type : FileType}
    (ok : ialloc fs type = .ok (inum, fs')) : SessionInv ⟨fs', mine⟩ := by
  unfold Inodes.ialloc at ok
  split at ok
  · rename_i found search
    obtain ⟨referenced, getOk, ok⟩ := of_bind_ok ok
    simp only [Except.ok.injEq, Prod.mk.injEq] at ok
    obtain ⟨rfl, rfl⟩ := ok
    have free : fs.dinodes found = none := by
      have found := List.find?_some search
      simp only [Bool.and_eq_true, Option.isNone_iff_eq_none] at found
      exact found.2
    -- a new inode holds no blocks: every address is where it was
    have sameAddr : addrOf fs.blocks (update fs.dinodes found (some (.fresh type))) =
        addrOf fs.blocks fs.dinodes := by
      refine addrOf_update fun slot => ?_
      rw [addrOf_blank fun _ => rfl]
      simp [addrOf, free]
    have marked : SessionInv ⟨iupdate fs found (.fresh type), mine⟩ := by
      refine ⟨?_, ?_, inv.locks, ?_⟩
      · show Tracks _ _ _ (addrOf fs.blocks _) _
        exact sameAddr ▸ inv.owns
      · intro other ip entry notDevice
        show Extent (addrOf fs.blocks (update fs.dinodes found _)) _ _
        by_cases same : other = found
        · subst same
          have : Inode.fresh type = ip := by simpa [iupdate] using entry
          subst this
          exact extent_zero fun slot => addrOf_blank (fun _ => rfl) slot
        · rw [sameAddr]
          exact inv.extent other ip (by simpa [iupdate, same] using entry) notDevice
      · intro other ip used unlocked copy
        obtain ⟨dip, entry, agrees⟩ := inv.agrees other ip used unlocked copy
        have different : other ≠ found := by
          rintro rfl
          cases free.symm.trans entry
        exact ⟨dip, by simpa [iupdate, different] using entry, agrees⟩
    exact marked.iget getOk
  · cases ok

theorem SessionInv.iput
    (unlocked : (fs.icache inum).locked = false) (used : 0 < (fs.icache inum).ref)
    (ok : iput fs inum = .ok fs') : SessionInv ⟨fs', mine⟩ := by
  have notMine : inum ∉ mine := fun member =>
    absurd (inv.locks inum member).2 (by rw [unlocked]; exact Bool.false_ne_true)
  have drop : SessionInv
      ⟨fs.setEntry inum { fs.icache inum with ref := (fs.icache inum).ref - 1 }, mine⟩ :=
    inv.setEntry (fun _ _ => .rfl) (fun member => absurd member notMine)
      fun ip _ free copy => inv.agrees inum ip used free copy
  unfold Inodes.iput at ok
  simp only at ok
  split at ok
  · rename_i ip copy
    split at ok
    · obtain ⟨⟨truncated, _⟩, truncOk, ok⟩ := of_bind_ok ok
      cases ok
      obtain ⟨dip, entry, agrees⟩ := inv.agrees inum ip used (.inl unlocked) copy
      obtain ⟨rfl, stored⟩ := itrunc_stored (inv.opened entry agrees) truncOk
      -- the freed inode held no address any more
      have sameAddr : addrOf truncated.blocks (update truncated.dinodes inum none) =
          addrOf truncated.blocks truncated.dinodes := by
        refine addrOf_update fun slot => ?_
        rw [stored.dinodes, addrOf_blank fun _ => rfl]
        simp [addrOf]
      refine ⟨?_, ?_, ?_, ?_⟩
      · show Tracks _ _ _ (addrOf truncated.blocks (update truncated.dinodes inum none)) _
        rw [sameAddr]
        exact stored.owns
      · intro other otherIp otherEntry notDevice
        show Extent (addrOf truncated.blocks (update truncated.dinodes inum none)) _ _
        have different : other ≠ inum := by
          rintro rfl
          simp [FileSystem.setEntry] at otherEntry
        rw [sameAddr]
        refine extent_congr (fun slot => stored.others other slot different) ?_
        refine inv.extent other otherIp ?_ notDevice
        simpa [FileSystem.setEntry, different, stored.dinodes] using otherEntry
      · intro other member
        have different : other ≠ inum := by
          rintro rfl
          exact notMine member
        simpa [FileSystem.setEntry, different, stored.icache] using inv.locks other member
      · intro other otherIp otherUsed free otherCopy
        have different : other ≠ inum := by
          rintro rfl
          simp [FileSystem.setEntry] at otherUsed
        simp only [FileSystem.setEntry, update_of_ne different, stored.icache] at *
        obtain ⟨otherDip, kept, otherAgrees⟩ := inv.agrees other otherIp otherUsed free otherCopy
        exact ⟨otherDip, by rw [stored.dinodes, update_of_ne different, kept], otherAgrees⟩
    · simp only [Except.ok.injEq] at ok
      exact ok ▸ drop
  · simp only [Except.ok.injEq] at ok
    exact ok ▸ drop

theorem SessionInv.ilock
    (unlocked : (fs.icache inum).locked = false) (ok : ilock fs inum = .ok fs') :
    SessionInv ⟨fs', inum :: mine⟩ := by
  have others : ∀ other, other ≠ inum → (other ∈ inum :: mine ↔ other ∈ mine) := by
    intro other different
    simp [different]
  unfold Inodes.ilock at ok
  simp only at ok
  split at ok
  · cases ok
  · rename_i unreferenced
    have used : 0 < (fs.icache inum).ref := by omega
    split at ok
    · rename_i held copy
      cases ok
      exact inv.setEntry others (fun _ => ⟨used, rfl⟩)
        fun ip _ _ same => inv.agrees inum ip used (.inl unlocked) same
    · split at ok
      · rename_i dip entry
        cases ok
        refine inv.setEntry others (fun _ => ⟨used, rfl⟩) fun ip _ _ copy => ?_
        exact ⟨dip, entry, some.inj copy ▸ .refl dip⟩
      · cases ok

theorem SessionInv.iunlock (member : inum ∈ mine) :
    SessionInv ⟨iunlock fs inum, mine.filter (· ≠ inum)⟩ := by
  refine inv.setEntry (fun other different => by simp [different]) (fun absent => ?_) ?_
  · simp at absent
  · exact fun ip used _ copy => inv.agrees inum ip used (.inr member) copy

end

theorem of_onInode (taken : onInode session inum operation = some next) :
    ∃ ip fs' ip', inum ∈ session.mine ∧ (session.fs.icache inum).copy = some ip ∧
      operation session.fs ip = .ok (fs', ip') ∧
      next = ⟨fs'.setEntry inum { fs'.icache inum with copy := some ip' }, session.mine⟩ := by
  obtain ⟨member, taken⟩ := ite_none_right_eq_some.mp taken
  split at taken
  · cases taken
  · rename_i ip copy
    split at taken
    · cases taken
    · rename_i fs' ip' ok
      exact ⟨ip, fs', ip', member, copy, ok, (some.inj taken).symm⟩

theorem SessionInv.onInode (inv : SessionInv ⟨fs, mine⟩)
    (spec : ∀ ip dip fs' ip', Opened fs inum ip dip →
      operation fs ip = .ok (fs', ip') → ∃ dip', Stored fs inum fs' ip' dip')
    (taken : onInode ⟨fs, mine⟩ inum operation = some next) : SessionInv next := by
  obtain ⟨ip, fs', ip', member, copy, ok, rfl⟩ := of_onInode taken
  obtain ⟨dip, entry, agrees⟩ := inv.agrees inum ip (inv.locks inum member).1 (.inr member) copy
  obtain ⟨dip', stored⟩ := spec ip dip fs' ip' (inv.opened entry agrees) ok
  exact inv.stored member stored

theorem of_map_ok {α β : Type} {x : Except Panic (α × β)} {result : β}
    (ok : x.map Prod.snd = .ok result) : ∃ value, x = .ok (value, result) := by
  cases x with
  | error e => cases ok
  | ok pair =>
    obtain ⟨value, found⟩ := pair
    simp only [Except.map, Except.ok.injEq] at ok
    exact ⟨value, by rw [ok]⟩

theorem of_onTable {result : Except Panic FileSystem} (taken : onTable session result = some next) :
    ∃ fs', result = .ok fs' ∧ next = ⟨fs', session.mine⟩ := by
  unfold onTable at taken
  split at taken
  · cases taken
  · rename_i fs'
    exact ⟨fs', rfl, (some.inj taken).symm⟩

theorem SessionInv.step {op : Op} (inv : SessionInv session)
    (taken : step session op = some next) : SessionInv next := by
  cases op with
  | ialloc type =>
    obtain ⟨fs', ok, rfl⟩ := of_onTable taken
    obtain ⟨inum, ok⟩ := of_map_ok ok
    exact inv.ialloc ok
  | iget inum =>
    obtain ⟨fs', ok, rfl⟩ := of_onTable taken
    exact inv.iget ok
  | ilock inum =>
    obtain ⟨unlocked, taken⟩ := ite_none_left_eq_some.mp taken
    obtain ⟨locked, lockTaken, rfl⟩ := map_eq_some_iff.mp taken
    obtain ⟨fs', ok, rfl⟩ := of_onTable lockTaken
    exact inv.ilock (by simpa using unlocked) ok
  | iunlock inum =>
    obtain ⟨member, taken⟩ := ite_none_right_eq_some.mp taken
    exact some.inj taken ▸ inv.iunlock member
  | writei inum off src =>
    rw [Inodes.step] at taken
    refine inv.onInode (fun ip dip fs' ip' opened ok => ?_) taken
    obtain ⟨count, ok⟩ := of_map_ok ok
    exact writei_stored opened ok
  | readi inum off n =>
    rw [Inodes.step] at taken
    refine inv.onInode (fun ip dip fs' ip' opened ok => ?_) taken
    obtain ⟨bytes, ok⟩ := of_map_ok ok
    obtain ⟨rfl, rfl⟩ := readi_unchanged opened ok
    exact ⟨dip, .unchanged opened⟩
  | itrunc inum =>
    rw [Inodes.step] at taken
    refine inv.onInode (fun ip dip fs' ip' opened ok => ?_) taken
    exact ⟨ip', (itrunc_stored opened ok).2⟩
  | iput inum =>
    obtain ⟨ready, taken⟩ := ite_none_left_eq_some.mp taken
    simp only [not_or, Bool.not_eq_true] at ready
    obtain ⟨fs', ok, rfl⟩ := of_onTable taken
    exact inv.iput ready.1 (Nat.pos_of_ne_zero ready.2) ok

theorem SessionInv.run {final : Session} {ops : List Op} (inv : SessionInv session)
    (ran : run session ops = some final) : SessionInv final := by
  induction ops generalizing session with
  | nil => exact some.inj ran ▸ inv
  | cons op rest ih =>
    obtain ⟨next, taken, ran⟩ := bind_eq_some_iff.mp ran
    exact ih (inv.step taken) ran

end Session

/-! ## The result -/

/-- Every sequence of calls leaves a consistent file system consistent, and a read at
the end of it changes nothing on the disk. -/
theorem block_map_consistent {fs : FileSystem} (consistent : Consistent fs)
    (marked : MetadataMarked fs) {ops : List Op} {session : Session}
    (ran : run ⟨fs, []⟩ ops = some session) :
    Consistent session.fs ∧ MetadataMarked session.fs ∧
      ∀ inum off n next, step session (.readi inum off n) = some next →
        next.fs.blocks = session.fs.blocks ∧ next.fs.bitmap = session.fs.bitmap ∧
          next.fs.dinodes = session.fs.dinodes := by
  have inv := (consistent.sessionInv marked).run ran
  refine ⟨inv.consistent.1, inv.consistent.2, fun inum off n next taken => ?_⟩
  rw [step] at taken
  obtain ⟨ip, fs', ip', member, copy, ok, rfl⟩ := of_onInode taken
  obtain ⟨bytes, ok⟩ := of_map_ok ok
  obtain ⟨dip, entry, agrees⟩ := inv.agrees inum ip (inv.locks inum member).1 (.inr member) copy
  obtain ⟨rfl, rfl⟩ := readi_unchanged (inv.opened entry agrees) ok
  exact ⟨rfl, rfl, rfl⟩

/-- A file system is consistent when its inodes are new and hold no address. -/
theorem consistent_of_fresh
    (fresh : ∀ inum ip, fs.dinodes inum = some ip → ∃ type, ip = .fresh type)
    (uncached : ∀ inum, (fs.icache inum).copy = none)
    (free : ∀ b, fs.sb.dataStart ≤ b → fs.bitmap b = false) : Consistent fs := by
  have blank : ∀ type slot, addrAt fs.blocks (.fresh type) slot = 0 := by
    intro type slot
    cases slot with
    | direct i => rfl
    | indirect j => rfl
  refine ⟨?_, ?_, ?_, ?_, ?_⟩
  · intro inum ip entry _ bn
    obtain ⟨type, rfl⟩ := fresh inum ip entry
    have unmapped : blockAddr fs.blocks (.fresh type) bn = 0 := by
      unfold blockAddr
      split
      · exact blank ..
      · rfl
    exact iff_of_false (show ¬ bn < blocksFor 0 from not_lt_zero bn) fun mapped =>
      mapped unmapped
  · intro inum ip slot _ _ _ entry _ nonzero
    obtain ⟨type, rfl⟩ := fresh inum ip entry
    exact absurd (blank type slot) nonzero
  · intro inum ip slot entry nonzero
    obtain ⟨type, rfl⟩ := fresh inum ip entry
    exact absurd (blank type slot) nonzero
  · intro b lower _
    refine iff_of_false (by rw [free b lower]; nofun) ?_
    rintro ⟨inum, ip, slot, entry, holds⟩
    obtain ⟨type, rfl⟩ := fresh inum ip entry
    have positive := fs.sb.dataStart_pos
    have := (blank type slot).symm.trans holds
    omega
  · intro inum ip _ _ copy
    rw [uncached] at copy
    cases copy

/-- The layout that `mkfs` writes. -/
def mkfsSb : Superblock where
  size := fssize
  ninodes := ninodes
  dataStart := Mkfs.nmeta
  dataStart_pos := by decide
  size_lt := by decide

/-- A disk as `mkfs` lays it out, with one empty file; its inode is in the cache. -/
def freshDisk (bitmap : Nat → Bool) : FileSystem where
  sb := mkfsSb
  devsw _ := ⟨none, none⟩
  bitmap := bitmap
  blocks _ _ := 0
  dinodes inum := if inum = 1 then some (.fresh .file) else none
  icache inum := ⟨if inum = 1 then 1 else 0, false, none⟩

theorem freshDisk_consistent {bitmap : Nat → Bool}
    (free : ∀ b, Mkfs.nmeta ≤ b → bitmap b = false) : Consistent (freshDisk bitmap) := by
  refine consistent_of_fresh ?_ (fun _ => rfl) free
  intro inum ip entry
  obtain ⟨-, entry⟩ := ite_none_right_eq_some.mp entry
  exact ⟨.file, (some.inj entry).symm⟩

theorem freshDisk_marked_consistent : Consistent (freshDisk (· < Mkfs.nmeta)) :=
  freshDisk_consistent fun _ lower => decide_eq_false (not_lt.mpr lower)

/-- Writes a byte to the file of `freshDisk`. -/
def writeByte : List Op :=
  [.ilock 1, .writei 1 0 [7], .iunlock 1]

theorem byte_in_first_data_block : ∃ session,
    run ⟨freshDisk (· < Mkfs.nmeta), []⟩ (writeByte ++ [.ilock 1]) = some session ∧
      Consistent session.fs ∧ session.fs.bitmap Mkfs.nmeta = true := by
  have ran : (run ⟨freshDisk (· < Mkfs.nmeta), []⟩ (writeByte ++ [.ilock 1])).map
      (fun session => session.fs.bitmap Mkfs.nmeta) = some true := by decide +kernel
  obtain ⟨session, ran, marked⟩ := map_eq_some_iff.mp ran
  exact ⟨session, ran, (block_map_consistent freshDisk_marked_consistent
    (fun b below => decide_eq_true below) ran).1, marked⟩

/-- Without the marks on the first blocks `balloc` hands out block 0: the file then has
a size and no block. -/
theorem unmarked_metadata_makes_hole : ∃ session, Consistent (freshDisk fun _ => false) ∧
    run ⟨freshDisk fun _ => false, []⟩ writeByte = some session ∧ ¬ Consistent session.fs := by
  have ran : (run ⟨freshDisk fun _ => false, []⟩ writeByte).map (fun session =>
      (session.fs.dinodes 1).map fun ip => (ip.type, ip.size, ip.addrs 0)) =
        some (some (.file, 1, 0)) := by decide +kernel
  obtain ⟨session, ran, inode⟩ := Option.map_eq_some_iff.mp ran
  obtain ⟨ip, entry, fields⟩ := Option.map_eq_some_iff.mp inode
  simp only [Prod.mk.injEq] at fields
  obtain ⟨type, size, addr⟩ := fields
  refine ⟨session, freshDisk_consistent fun _ _ => rfl, ran, fun consistent => ?_⟩
  have mapped := (consistent.noHoles 1 ip entry (by rw [type]; decide) 0).mp (by rw [size]; decide)
  exact mapped addr

end Laboratorio.Xv6.Inodes
