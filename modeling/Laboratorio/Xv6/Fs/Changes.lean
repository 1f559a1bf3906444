import Laboratorio.Xv6.Fs.Paths

/-! # The calls that change directories

`create`, `link` and `unlink` change several inodes one after the other; in the middle of a
change the invariants of the inode table do not hold.  `At` follows the table through such a
change step by step, and at its end the table is one of those of `LinkInv` and `DotsInv`.
-/

namespace Laboratorio.Xv6.Fs

open Laboratorio.Lib Laboratorio.Lib.Prog Function Kernel Option Inode LinkInv

/-- The table is known exactly. -/
structure At (dots : Bool) (d : Dinodes) (k : Kernel) : Prop where
  cached : Cached dots k
  dinodes : k.dinodes = d

section

variable {strict dots : Bool} {k₀ k : Kernel} {p : Pid} {d : Dinodes} {i dp ip : Inum}
  {inode new target : Inode} {name : Name} {type : FileType} {major : Int}

theorem At.tidy {pending : Option Inum} (table : At dots d k) (sound : Sound strict dots pending d) :
    Tidy strict dots pending k :=
  ⟨table.cached, table.dinodes.symm ▸ sound⟩

theorem At.setInode (table : At dots d k)
    (loaded : new.nlink = 0 → k.valid i = true ∧ 0 < k.ref i) :
    At dots (update d i (some new)) (k.setInode i (some new)) := by
  refine ⟨table.cached.setInode loaded, ?_⟩
  rw [← table.dinodes]
  rfl

/-- `k'` is as `k`, but for the table. -/
structure SameCache (k k' : Kernel) : Prop where
  valid : k'.valid = k.valid
  ref : k'.ref = k.ref

theorem mapInode_at (table : At dots d k) (found : d i = some inode) (change : Inode → Inode)
    (loaded : (change inode).nlink = 0 → k.valid i = true ∧ 0 < k.ref i) :
    Runs dots p (Prog.modify fun k => k.mapInode i change) (fun _ k' =>
      At dots (update d i (some (change inode))) k' ∧ SameCache k k') k := by
  have changed : k.mapInode i change = k.setInode i (some (change inode)) := by
    rw [mapInode, table.dinodes, found, map_some]
  apply Ends.modify
  rw [changed]
  exact ⟨table.setInode loaded, rfl, rfl⟩

theorem dirlink_at (table : At dots d k) (found : d dp = some inode)
    (absent : lookup inode.slots name = none) :
    Runs dots p (dirlink p dp name i) (fun linked k' => linked = true ∧
      At dots (update d dp (some (inode.link name i))) k') k := by
  apply dirlink_ends other_panics
  · intro inode' found' _ _
    rw [table.dinodes, found, some.injEq] at found'
    subst found'
    refine ⟨rfl, table.setInode fun unlinked => ?_⟩
    exact table.cached.kept dp inode (by rw [table.dinodes, found]) unlinked
  · intro inode' off other found' _ present
    rw [table.dinodes, found, some.injEq] at found'
    subst found'
    rw [absent] at present
    cases present

/-! ## Create -/

def Inode.created (type : FileType) (major : Int) : Inode :=
  { Inode.fresh type with major, nlink := 1 }

def Inode.newDir (major : Int) (dp ip : Inum) : Inode :=
  ((Inode.created .dir major).link dot ip).link dotDot dp

theorem created_at (table : At dots d k) (p : Pid) (i : Inum) (type : FileType) (major : Int) :
    At dots (update d i (some (Inode.created type major)))
      ((((k.allocate i type).taken p i).setValid i true).mapInode i
        fun inode => { inode with major, nlink := 1 }) := by
  have dinodes : (((k.allocate i type).taken p i).setValid i true).dinodes =
      update d i (some (.fresh type)) := by
    rw [← table.dinodes]
    exact taken_dinodes (k.allocate i type) p i
  have changed : (((k.allocate i type).taken p i).setValid i true).mapInode i
      (fun inode => { inode with major, nlink := 1 }) =
      (((k.allocate i type).taken p i).setValid i true).setInode i
        (some (created type major)) := by
    rw [mapInode, dinodes, update_self]
    rfl
  rw [changed]
  refine ⟨table.cached.create p one_ne_zero type, ?_⟩
  rw [setInode, dinodes, update_idem]

/-- `.` and `..` of a new directory, and the link that `..` is. -/
theorem createDots_at (table : At dots (update d ip (some (Inode.created .dir major))) k)
    (found : d dp = some inode) (different : dp ≠ ip) (nonneg : 0 ≤ inode.nlink) :
    Runs dots p (createDots p .dir dp ip) (fun _ =>
      At dots (update (update d ip (some (Inode.newDir major dp ip))) dp
        (some { inode with nlink := inode.nlink + 1 }))) k := by
  have isParent : update d ip (some (created .dir major)) dp = some inode := by
    rw [update_of_ne different, found]
  have counted : inode.nlink + 1 = 0 → k.valid dp = true ∧ 0 < k.ref dp := by omega
  apply Ends.seq
    (mapInode_at table isParent (fun inode => { inode with nlink := inode.nlink + 1 }) counted)
  intro _ k₁ linked
  have isNew : update (update d ip (some (created .dir major))) dp
      (some { inode with nlink := inode.nlink + 1 }) ip = some (created .dir major) := by
    rw [update_of_ne (Ne.symm different), update_self]
  apply Ends.seq (dirlink_at linked.1 isNew rfl)
  intro self k₂ ended
  obtain ⟨isTrue, table⟩ := ended
  subst isTrue
  apply Ends.seq (dirlink_at table (update_self _ _ _) rfl)
  intro up k₃ ended
  obtain ⟨isTrue, table⟩ := ended
  subst isTrue
  apply Ends.ret
  refine ⟨table.cached, table.dinodes.trans ?_⟩
  rw [update_idem, update_comm (Ne.symm different), update_idem,
    update_comm different]
  rfl

theorem Sound.createFile (sound : Sound strict dots none d) (found : d dp = some inode)
    (directory : inode.type = .dir) (linked : strict = true → 0 < inode.nlink)
    (absent : lookup inode.slots name = none) (free : d ip = none) (file : type ≠ .dir) :
    Sound strict dots none (update
      (update d ip (some (Inode.created type major))) dp (some (inode.link name ip))) := by
  have shape := sound.links.shape dp inode found directory
  have isParent : update d ip (some (Inode.created type major)) dp = some inode := by
    rw [update_of_ne (LinkInv.ne_of_free found free).symm, found]
  constructor
  case links =>
    have allocated :
        LinkInv strict (update d ip (some (Inode.created type major))) (some ip) :=
      sound.links.allocFile free file rfl rfl
    exact allocated.link isParent directory linked (update_self _ _ _) file
      (shape.name_proper absent)
  case dots =>
    intro isDots
    have allocated : DotsInv (update d ip (some (Inode.created type major))) := by
      apply (sound.dots isDots).update
      · intro old oldFound
        rw [free] at oldFound
        cases oldFound
      · exact .inr file
    refine allocated.setEntry isParent directory directory rfl ?_
    simp [parentOf, Inode.link, shape.lookup_addEntry]

theorem Sound.createDir (sound : Sound strict dots none d) (found : d dp = some inode)
    (directory : inode.type = .dir) (linked : 0 < inode.nlink)
    (absent : lookup inode.slots name = none) (free : d ip = none) :
    Sound strict dots none
      (LinkInv.withDir d dp ip inode (Inode.newDir major dp ip) name) := by
  have shape := sound.links.shape dp inode found directory
  have up : parentOf (newDir major dp ip) = some dp := rfl
  constructor
  case links =>
    exact sound.links.makeDir found directory linked free (shape.name_proper absent) rfl rfl rfl
  case dots =>
    exact fun isDots => (sound.dots isDots).makeDir found directory linked shape free rfl up

theorem createNew_tidy (tidy : Tidy strict dots none k) (found : k.dinodes dp = some inode)
    (directory : inode.type = .dir) (absent : lookup inode.slots name = none)
    (linked : strict = true ∨ type = .dir → 0 < inode.nlink) :
    Runs dots p (createNew p dp name type major) (fun _ => Tidy strict dots none) k := by
  apply Ends.bind
  apply ialloc_ends other_panics
  intro ip free
  have different : dp ≠ ip := (ne_of_free found free).symm
  have fresh : ((k.allocate ip type).taken p ip).dinodes ip = some (.fresh type) := by
    rw [taken_dinodes]
    exact update_self _ _ _
  apply Ends.bind
  apply ilock_ends other_panics
  · intro _ noInode
    rw [fresh] at noInode
    cases noInode
  intro _ _
  apply Ends.bind
  apply Ends.modify
  have table := created_at ⟨tidy.cached, rfl⟩ p ip type major
  by_cases isDir : type = .dir
  · -- a directory: its parent gets a link and an entry
    subst isDir
    apply Ends.seq (createDots_at table found different (tidy.sound.links.nlink_nonneg found))
    intro _ k₁ table
    apply Ends.seq (dirlink_at table (update_self _ _ _) absent)
    intro isLinked k₂ ended
    obtain ⟨isTrue, table⟩ := ended
    subst isTrue
    have made : k₂.dinodes =
        withDir k.dinodes dp ip inode (newDir major dp ip) name := by
      rw [table.dinodes, update_idem]
      rfl
    have final : Tidy strict dots none k₂ := by
      refine ⟨table.cached, ?_⟩
      rw [made]
      exact tidy.sound.createDir found directory (linked (.inr rfl)) absent free
    exact .andRet (iunlockput_tidy final)
  · rw [createDots, if_neg isDir]
    apply Ends.bind
    apply Ends.ret
    have isParent : update k.dinodes ip (some (created type major)) dp = some inode := by
      rw [update_of_ne different, found]
    apply Ends.seq (dirlink_at table isParent absent)
    intro isLinked k₂ ended
    obtain ⟨isTrue, table⟩ := ended
    subst isTrue
    have final := table.tidy (tidy.sound.createFile found directory
      (fun isStrict => linked (.inl isStrict)) absent free isDir)
    exact .andRet (iunlockput_tidy final)

theorem createFound_tidy (tidy : Tidy strict dots none k) :
    Runs dots p (createFound p dp ip type) (fun _ => Tidy strict dots none) k := by
  apply Ends.seq (iunlockput_tidy tidy)
  intro _ k₁ tidy
  apply Ends.seq (ilock_tidy tidy)
  intro _ k₂ tidy
  apply Ends.bind
  apply Ends.get
  split
  case isTrue => exact .ret tidy
  case isFalse =>
    exact .andRet (iunlockput_tidy tidy)

/-- A new entry goes to a directory with links: always if link counts are to be exact, and for
a new directory in any case. -/
theorem create_tidy (walking : Walking strict dots none k₀ p [] k) (path : Path)
    (permitted : ∀ dp name inode, k₀.resolve p path = some (dp, name) → k₀.dinodes dp = some inode →
      lookup inode.slots name = none → strict = true ∨ type = .dir → 0 < inode.nlink) :
    Runs dots p (create p path type major) (fun _ => Tidy strict dots none) k := by
  apply Ends.seq (nameiparent_walks walking path)
  intro found k₁ ended
  obtain ⟨walking, isFound⟩ := ended
  cases found with
  | none => exact .ret walking.tidy
  | some parent =>
    obtain ⟨dp, name⟩ := parent
    apply Ends.bind
    apply Ends.mark
    apply Ends.ret
    apply Ends.seq (ilock_walking walking)
    intro _ k₂ locked
    apply Ends.seq (dirlookup_walking locked.1 name)
    intro entry k₃ looked
    obtain ⟨walking, inode, isThere, directory, isEntry⟩ := looked
    cases entry with
    | some entry => exact createFound_tidy walking.tidy
    | none =>
      have here : k₃.dinodes dp = some inode := by rw [walking.same.dinodes, isThere]
      have linked := permitted dp name inode isFound.symm isThere isEntry.symm
      exact .andRet (createNew_tidy walking.tidy here directory isEntry.symm linked)

/-! ## Link -/

section

variable {pending pending' : Option Inum}

/-- The link count of a file runs ahead of its entries, or is brought back. -/
theorem Sound.setFileLinks (sound : Sound strict dots pending d) (found : d i = some inode)
    (file : inode.type ≠ .dir) {count : Int}
    (others : ∀ j, j ≠ i → ahead pending' j = ahead pending j)
    (balance : count + ahead pending i = inode.nlink + ahead pending' i) :
    Sound strict dots pending' (update d i (some { inode with nlink := count })) := by
  refine ⟨sound.links.setFileLinks found file others balance, fun isDots => ?_⟩
  apply (sound.dots isDots).update
  · intro old oldFound oldDir
    rw [found, some.injEq] at oldFound
    exact absurd (oldFound ▸ oldDir) file
  · exact .inr file

end

theorem Sound.count (sound : Sound strict dots none d) (found : d i = some inode)
    (file : inode.type ≠ .dir) :
    Sound strict dots (some i) (update d i (some { inode with nlink := inode.nlink + 1 })) := by
  apply sound.setFileLinks found file
  · intro j different
    rw [ahead_none, ahead_of_ne different]
  · rw [ahead_none, ahead_self]
    omega

theorem Sound.uncount (sound : Sound strict dots (some i) d) (found : d i = some inode)
    (file : inode.type ≠ .dir) :
    Sound strict dots none (update d i (some { inode with nlink := inode.nlink + -1 })) := by
  apply sound.setFileLinks found file
  · intro j different
    rw [ahead_none, ahead_of_ne different]
  · rw [ahead_none, ahead_self]
    omega

theorem Sound.link (sound : Sound strict dots (some i) d) (found : d dp = some inode)
    (directory : inode.type = .dir) (linked : strict = true → 0 < inode.nlink)
    (absent : lookup inode.slots name = none) (targetFound : d i = some target)
    (file : target.type ≠ .dir) :
    Sound strict dots none (update d dp (some (inode.link name i))) := by
  have shape := sound.links.shape dp inode found directory
  refine ⟨sound.links.link found directory linked targetFound file (shape.name_proper absent),
    fun isDots => ?_⟩
  refine (sound.dots isDots).setEntry found directory directory rfl ?_
  simp [parentOf, Inode.link, shape.lookup_addEntry]

theorem linkBad_tidy (walking : Walking strict dots (some ip) k₀ p [ip] k)
    (found : k₀.dinodes ip = some target) (file : target.type ≠ .dir) :
    Runs dots p (linkBad p ip) (fun _ => Tidy strict dots none) k := by
  apply Ends.seq (ilock_walking walking)
  intro _ k₁ locked
  obtain ⟨walking, -, valid, referred⟩ := locked
  have table : At dots k₀.dinodes k₁ := ⟨walking.tidy.cached, walking.same.dinodes⟩
  apply Ends.seq (mapInode_at table found
    (fun inode => { inode with nlink := inode.nlink + -1 }) fun _ => ⟨valid, referred⟩)
  intro _ k₂ ended
  obtain ⟨table, -⟩ := ended
  have sound := walking.tidy.sound
  rw [walking.same.dinodes] at sound
  exact .andRet (iunlockput_tidy (table.tidy (sound.uncount found file)))

theorem linkNew_tidy (walking : Walking strict dots (some ip) k₀ p [ip] k)
    (found : k₀.dinodes ip = some target) (file : target.type ≠ .dir) (new : Path)
    (permitted : ∀ dp name inode, k₀.resolve p new = some (dp, name) → k₀.dinodes dp = some inode →
      lookup inode.slots name = none → strict = true → 0 < inode.nlink) :
    Runs dots p (linkNew p ip new) (fun _ => Tidy strict dots none) k := by
  apply Ends.seq (nameiparent_walks walking new)
  intro parent k₁ ended
  obtain ⟨walking, isFound⟩ := ended
  cases parent with
  | none => exact linkBad_tidy walking found file
  | some parent =>
    obtain ⟨dp, name⟩ := parent
    apply Ends.bind
    apply Ends.mark
    apply Ends.ret
    apply Ends.seq (ilock_walking walking)
    intro _ k₂ locked
    obtain ⟨walking, -, -, -⟩ := locked
    apply Ends.bind
    apply dirlink_ends other_panics
    · -- the name is new
      intro inode isThere directory absent
      have atStart : k₀.dinodes dp = some inode := by rw [← walking.same.dinodes, isThere]
      have linked := permitted dp name inode isFound.symm atStart absent
      have final : Tidy strict dots none (k₂.setInode dp (some (inode.link name ip))) := by
        have target : k₂.dinodes ip = some target := by rw [walking.same.dinodes, found]
        constructor
        case cached =>
          exact walking.tidy.cached.setInode fun unlinked =>
            walking.tidy.cached.kept dp inode isThere unlinked
        case sound => exact walking.tidy.sound.link isThere directory linked absent target file
      apply Ends.seq (iunlockput_tidy final)
      intro _ k₃ tidy
      exact .andRet (iput_tidy tidy)
    · -- it is there already
      intro inode off other isThere directory present
      have taken := walking.taken (i := other) fun isDots =>
        walking.tidy.sound.allocated isDots isThere present
      apply Ends.seq (iunlockput_walking taken.put)
      exact fun _ _ walking => linkBad_tidy walking found file

/-- The state in which the new link is counted, but has no entry yet. -/
theorem Walking.countLink (walking : Walking strict dots none k₀ p [ip] k)
    (found : k₀.dinodes ip = some inode) (file : inode.type ≠ .dir) :
    Walking strict dots (some ip) (k.addLinks ip 1) p [ip] (k.addLinks ip 1) ∧
      (k.addLinks ip 1).dinodes =
        update k₀.dinodes ip (some { inode with nlink := inode.nlink + 1 }) := by
  have here : k.dinodes ip = some inode := by rw [walking.same.dinodes, found]
  have nonneg := walking.tidy.sound.links.nlink_nonneg here
  have changed : k.addLinks ip 1 = k.setInode ip (some { inode with nlink := inode.nlink + 1 }) := by
    rw [addLinks, mapInode, here, map_some]
  rw [changed]
  refine ⟨⟨walking.accounts.setInode ip _, ⟨?_, ?_⟩, ⟨rfl, rfl, rfl⟩, ?_⟩, ?_⟩
  · apply walking.tidy.cached.setInode
    intro unlinked
    dsimp only at unlinked
    omega
  · exact walking.tidy.sound.count here file
  · intro j other otherFound unlinked
    rcases update_eq_some otherFound with ⟨rfl, ⟨⟩⟩ | ⟨_, before⟩
    · dsimp only at unlinked
      omega
    · rw [walking.same.dinodes] at before
      have anchored := walking.anchored j other before unlinked
      rw [← walking.same.procs, ← walking.same.table] at anchored
      exact anchored
  · rw [← walking.same.dinodes]
    rfl

theorem sysLink_tidy (walking : Walking strict dots none k₀ p [] k) (old new : Path)
    (permitted : ∀ dp name inode, k₀.resolve p new = some (dp, name) → k₀.dinodes dp = some inode →
      lookup inode.slots name = none → strict = true → 0 < inode.nlink) :
    Runs dots p (sysLink p old new) (fun _ => Tidy strict dots none) k := by
  apply Ends.seq (namei_walks walking old)
  intro found k₁ walking
  cases found with
  | none => exact .ret walking.tidy
  | some ip =>
    apply Ends.seq (ilock_walking walking)
    intro _ k₂ locked
    obtain ⟨walking, isThere, -, -⟩ := locked
    obtain ⟨inode, found⟩ := isSome_iff_exists.mp isThere
    have sameDir : k₂.isDir ip = decide (inode.type = .dir) := by
      rw [isDir, walking.same.dinodes, found]
    apply Ends.bind
    apply Ends.get
    rw [sameDir]
    split
    case isTrue =>
      apply Ends.seq (iunlockput_walking walking)
      exact fun _ _ walking => .ret walking.tidy
    case isFalse notDir =>
      have file : inode.type ≠ .dir := fun directory => notDir (decide_eq_true directory)
      obtain ⟨counted, dinodes⟩ := walking.countLink found file
      apply Ends.bind
      apply Ends.modify
      apply Ends.seq (iunlock_walking counted)
      intro _ k₃ counted
      have isThere : (k₂.addLinks ip 1).dinodes ip =
          some { inode with nlink := inode.nlink + 1 } := by
        rw [dinodes, update_self]
      apply linkNew_tidy counted isThere file new
      intro dp name parent resolved parentFound absent isStrict
      -- directories have not changed, so the path means what it did
      have sameWalk : (k₂.addLinks ip 1).resolve p new = k₀.resolve p new := by
        have sameOrigin : (k₂.addLinks ip 1).origin p new = k₀.origin p new := by
          have sameProcs : (k₂.addLinks ip 1).procs = k₀.procs := walking.same.procs
          rw [origin, origin, cwd, cwd, sameProcs]
        rw [resolve, dinodes]
        congr 1
        funext start
        apply walk_congr
        intro j
        by_cases same : j = ip
        · subst same
          rw [update_self, found]
          rfl
        · rw [update_of_ne same]
      rw [sameWalk] at resolved
      rw [dinodes] at parentFound
      rcases update_eq_some parentFound with ⟨rfl, ⟨⟩⟩ | ⟨_, before⟩
      · obtain ⟨start, -, walked⟩ := bind_eq_some_iff.mp resolved
        obtain ⟨other, otherFound, directory⟩ := walk_dir walked
        rw [found, some.injEq] at otherFound
        exact absurd (otherFound ▸ directory) file
      · exact permitted dp name parent resolved before absent isStrict

/-! ## Unlink -/

variable {off : Nat}

theorem Sound.unlinkFile (sound : Sound strict dots none d)
    (named : Named d dp inode off name ip target) (file : target.type ≠ .dir) :
    Sound strict dots (some ip) (update d dp (some (inode.unlink off))) :=
  ⟨sound.links.unlinkFile named file, fun isDots =>
    (sound.dots isDots).setEntry named.found named.directory named.directory rfl
      (parentOf_withoutChild named sound.links)⟩

theorem Sound.removeDir (sound : Sound strict dots none d)
    (named : Named d dp inode off name ip target) (targetDir : target.type = .dir)
    (empty : isdirempty target = true)
    (noneBelow : dots = true → ∀ j other, j ≠ ip → d j = some other → other.type = .dir →
      other.nlink = 0 → parentOf other ≠ some ip) :
    Sound strict dots none (LinkInv.withoutDir d dp ip inode target off) :=
  ⟨LinkInv.removeDir named targetDir empty sound.links, fun isDots =>
    (sound.dots isDots).removeDir sound.links named targetDir empty (noneBelow isDots)⟩

theorem unlinkBad_tidy (tidy : Tidy strict dots none k) :
    Runs dots p (unlinkBad p dp) (fun _ => Tidy strict dots none) k := by
  exact .andRet (iunlockput_tidy tidy)

theorem clear_at (tidy : Tidy strict dots none k)
    (named : Named k.dinodes dp inode off name ip target) :
    Runs dots p (Prog.modify fun k => k.mapInode dp fun inode => inode.unlink off) (fun _ k' =>
      At dots (update k.dinodes dp (some (inode.unlink off))) k' ∧ SameCache k k') k :=
  mapInode_at ⟨tidy.cached, rfl⟩ named.found (fun inode => inode.unlink off)
    fun unlinked => tidy.cached.kept dp inode named.found unlinked

theorem unlinkEntry_file (tidy : Tidy strict dots none k)
    (named : Named k.dinodes dp inode off name ip target)
    (file : target.type ≠ .dir) (valid : k.valid ip = true) (referred : 0 < k.ref ip) :
    Runs dots p (unlinkEntry p dp off ip false) (fun _ => Tidy strict dots none) k := by
  have different : ip ≠ dp :=
    (ne_of_file named.found named.directory named.targetFound file).symm
  apply Ends.seq (clear_at tidy named)
  intro _ k₁ ended
  obtain ⟨table, same⟩ := ended
  have cleared := table.tidy (tidy.sound.unlinkFile named file)
  apply Ends.bind
  apply Ends.ret
  apply Ends.bind
  apply iunlockput_ends other_panics
  have final := cleared.put p dp
  have isThere : (k₁.put p dp).dinodes ip = some target := by
    rw [put_dinodes_of_ne different, table.dinodes, update_of_ne different, named.targetFound]
  have loaded : (k₁.put p dp).valid ip = true ∧ 0 < (k₁.put p dp).ref ip := by
    rw [put_valid_of_ne different, put_ref, update_of_ne different, same.valid, same.ref]
    exact ⟨valid, referred⟩
  apply Ends.seq (mapInode_at ⟨final.cached, rfl⟩ isThere
    (fun inode => { inode with nlink := inode.nlink + -1 }) fun _ => loaded)
  intro _ k₂ ended
  obtain ⟨table, -⟩ := ended
  exact .andRet (iunlockput_tidy (table.tidy (final.sound.uncount isThere file)))

/-- The parent of a removed directory keeps a link, so it stays while its lock is given up. -/
theorem unlinkEntry_dir (tidy : Tidy strict dots none k)
    (named : Named k.dinodes dp inode off name ip target)
    (targetDir : target.type = .dir) (empty : isdirempty target = true)
    (noneBelow : dots = true → ∀ j other, j ≠ ip → k.dinodes j = some other → other.type = .dir →
      other.nlink = 0 → parentOf other ≠ some ip)
    (valid : k.valid ip = true) (referred : 0 < k.ref ip) :
    Runs dots p (unlinkEntry p dp off ip true) (fun _ => Tidy strict dots none) k := by
  have removable := removable named targetDir empty tidy.sound.links
  have different : ip ≠ dp := removable.different.symm
  apply Ends.seq (clear_at tidy named)
  intro _ k₁ ended
  obtain ⟨table, same⟩ := ended
  have more : inode.nlink + -1 ≠ 0 := by
    have links := removable.more
    omega
  apply Ends.seq (mapInode_at table (update_self _ _ _)
    (fun inode => { inode with nlink := inode.nlink + -1 }) fun none => absurd none more)
  intro _ k₂ ended
  obtain ⟨table, same'⟩ := ended
  rw [update_idem] at table
  apply Ends.bind
  apply iunlockput_ends other_panics
  have kept : (k₂.put p dp).dinodes = k₂.dinodes := by
    have parent : k₂.dinodes dp = some (withoutChild inode off) := by
      rw [table.dinodes, update_self]
      rfl
    exact put_dinodes_of_linked parent more
  have isThere : (k₂.put p dp).dinodes ip = some target := by
    rw [kept, table.dinodes, update_of_ne different, named.targetFound]
  have loaded : (k₂.put p dp).valid ip = true ∧ 0 < (k₂.put p dp).ref ip := by
    rw [put_valid_of_ne different, put_ref, update_of_ne different, same'.valid, same'.ref,
      same.valid, same.ref]
    exact ⟨valid, referred⟩
  apply Ends.seq (mapInode_at ⟨table.cached.put p dp, rfl⟩ isThere
    (fun inode => { inode with nlink := inode.nlink + -1 }) fun _ => loaded)
  intro _ k₃ ended
  obtain ⟨table', -⟩ := ended
  have removed : Tidy strict dots none k₃ := by
    refine ⟨table'.cached, ?_⟩
    rw [table'.dinodes, kept, table.dinodes]
    exact tidy.sound.removeDir named targetDir empty noneBelow
  exact .andRet (iunlockput_tidy removed)

/-- No directory is removed that is `..` of another removed one, if `..` is not to dangle. -/
theorem sysUnlink_tidy (walking : Walking strict dots none k₀ p [] k) (path : Path)
    (permitted : dots = true → ∀ dp name inode off ip target, k₀.resolve p path = some (dp, name) →
      proper name = true → k₀.dinodes dp = some inode → lookup inode.slots name = some (off, ip) →
      k₀.dinodes ip = some target → target.type = .dir → isdirempty target = true →
      ∀ j other, j ≠ ip → k₀.dinodes j = some other → other.type = .dir → other.nlink = 0 →
        parentOf other ≠ some ip) :
    Runs dots p (sysUnlink p path) (fun _ => Tidy strict dots none) k := by
  apply Ends.seq (nameiparent_walks walking path)
  intro found k₁ ended
  obtain ⟨walking, isFound⟩ := ended
  cases found with
  | none => exact .ret walking.tidy
  | some parent =>
    obtain ⟨dp, name⟩ := parent
    apply Ends.bind
    apply Ends.mark
    apply Ends.ret
    apply Ends.seq (ilock_walking walking)
    intro _ k₂ locked
    obtain ⟨walking, -, -, -⟩ := locked
    split
    case isTrue => exact unlinkBad_tidy walking.tidy
    case isFalse notDots =>
      have isProper : proper name = true := proper_iff.mpr (not_or.mp notDots)
      apply Ends.seq (dirlookup_walking walking name)
      intro entry k₃ looked
      obtain ⟨walking, inode, isThere, directory, isEntry⟩ := looked
      cases entry with
      | none => exact unlinkBad_tidy walking.tidy
      | some entry =>
        obtain ⟨off, ip⟩ := entry
        have slot := get_of_lookup isEntry.symm
        apply Ends.seq (ilock_walking walking)
        intro _ k₄ locked
        obtain ⟨walking, isTarget, valid, referred⟩ := locked
        obtain ⟨target, targetFound⟩ := isSome_iff_exists.mp isTarget
        have named : Named k₄.dinodes dp inode off name ip target := by
          rw [walking.same.dinodes]
          exact ⟨isThere, directory, slot, isProper, targetFound⟩
        apply Ends.act
        rw [named.targetFound]
        dsimp only
        split
        case isTrue => exact .panic (other_panics _ (by rintro ⟨⟩))
        case isFalse =>
          split
          case isTrue =>
            apply Ends.seq (iunlockput_tidy walking.tidy)
            exact fun _ _ tidy => unlinkBad_tidy tidy
          case isFalse removes =>
            by_cases targetDir : target.type = .dir
            · have empty : isdirempty target = true := by
                cases isEmpty : isdirempty target with
                | true => rfl
                | false => exact absurd ⟨targetDir, isEmpty⟩ removes
              have noneBelow := fun isDots => permitted isDots dp name inode off ip target
                isFound.symm isProper isThere isEntry.symm targetFound targetDir empty
              rw [← walking.same.dinodes] at noneBelow
              rw [decide_eq_true targetDir]
              exact unlinkEntry_dir walking.tidy named targetDir empty noneBelow valid referred
            · rw [decide_eq_false targetDir]
              exact unlinkEntry_file walking.tidy named targetDir valid referred

end

end Laboratorio.Xv6.Fs
