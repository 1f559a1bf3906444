import Mathlib.Logic.Function.Iterate

/-! # The multiprocessor configuration table (`mp.c`)

`mpconfig` checks the table that the firmware leaves in memory, and the loop of `mpinit` walks its
entries.  `iteration` is one round of that loop.  Each case of the switch moves `p` on by itself,
and the default case does not: its `break` leaves the switch only.
-/

namespace Laboratorio.Xv6.Mp

open Function

/-- `NCPU` -/
def maxCpus : Nat := 8

/-- `sizeof(struct mpconf)` -/
def headerSize : Nat := 44

/-- The bytes from `conf` on. -/
abbrev Table := Nat → UInt8

namespace Table

variable (table : Table)

/-- `conf->length`, a `ushort`. -/
def length : Nat := (table 4).toNat + 256 * (table 5).toNat

def version : UInt8 := table 6

/-- `sum`, as the `uchar` it returns. -/
def sum (len : Nat) : UInt8 := (List.range len).foldl (fun sum i => sum + table i) 0

/-- `mpconfig`: the table is accepted. -/
def mpconfig : Bool :=
  [table 0, table 1, table 2, table 3] == [0x50, 0x43, 0x4D, 0x50] &&
    (table.version == 1 || table.version == 4) && table.sum table.length == 0

end Table

/-- The entry types; any other byte is none of them. -/
inductive EntryType
  | proc
  | bus
  | ioapic
  | iointr
  | lintr
  deriving DecidableEq

def EntryType.size : EntryType → Nat
  | .proc => 20
  | .bus | .ioapic | .iointr | .lintr => 8

def entryType (byte : UInt8) : Option EntryType :=
  if byte = 0x00 then some .proc
  else if byte = 0x01 then some .bus
  else if byte = 0x02 then some .ioapic
  else if byte = 0x03 then some .iointr
  else if byte = 0x04 then some .lintr
  else none

/-- An entry starts at `p`: each follows the one before it, up to one of unknown type. -/
inductive Table.EntryAt (table : Table) : Nat → Prop
  | first : EntryAt table headerSize
  | next {p : Nat} {type : EntryType} (entry : EntryAt table p) (inside : p < table.length)
      (known : entryType (table p) = some type) : EntryAt table (p + type.size)

def Table.UnknownEntry (table : Table) : Prop :=
  ∃ p, table.EntryAt p ∧ p < table.length ∧ entryType (table p) = none

/-- The variables of `mpinit`; `p` counts from `conf`. -/
structure State where
  p : Nat
  ismp : Bool
  ncpu : Nat
  apicid : Nat → UInt8
  ioapicid : UInt8

def State.start : State := ⟨headerSize, true, 0, fun _ => 0, 0⟩

/-- The body of the loop. -/
def State.entry (table : Table) (s : State) : State :=
  match entryType (table s.p) with
  | some .proc =>
    if s.ncpu < maxCpus then
      { s with
        p := s.p + 20
        ncpu := s.ncpu + 1
        apicid := update s.apicid s.ncpu (table (s.p + 1)) }
    else { s with p := s.p + 20 }
  | some .ioapic => { s with p := s.p + 8, ioapicid := table (s.p + 1) }
  | some .bus | some .iointr | some .lintr => { s with p := s.p + 8 }
  -- the `break` leaves the switch, not the loop
  | none => { s with ismp := false }

/-- One round of the loop; a loop that has ended stays as it is. -/
def State.iteration (table : Table) (s : State) : State :=
  if s.p < table.length then s.entry table else s

def rounds (table : Table) (n : Nat) : State := (State.iteration table)^[n] .start

def State.Ended (table : Table) (s : State) : Prop := table.length ≤ s.p

instance (table : Table) (s : State) : Decidable (s.Ended table) :=
  inferInstanceAs (Decidable (_ ≤ _))

section

variable {table : Table} {s : State}

theorem ncpu_entry (bound : s.ncpu ≤ maxCpus) : (s.entry table).ncpu ≤ maxCpus := by
  rw [State.entry]
  split
  case h_1 =>
    split
    case isTrue room => exact room
    case isFalse => exact bound
  all_goals exact bound

theorem ncpu_rounds (table : Table) (n : Nat) : (rounds table n).ncpu ≤ maxCpus := by
  induction n with
  | zero => exact Nat.zero_le _
  | succ n ih =>
    rw [rounds, iterate_succ_apply', State.iteration]
    split
    case isTrue => exact ncpu_entry ih
    case isFalse => exact ih

theorem entry_known {type : EntryType} (known : entryType (table s.p) = some type) :
    (s.entry table).p = s.p + type.size ∧ (s.entry table).ismp = s.ismp := by
  rw [State.entry, known]
  cases type with
  | proc =>
    simp only
    split
    case isTrue => exact ⟨rfl, rfl⟩
    case isFalse => exact ⟨rfl, rfl⟩
  | bus | ioapic | iointr | lintr => exact ⟨rfl, rfl⟩

theorem iteration_unknown (unknown : entryType (table s.p) = none) :
    (s.iteration table).p = s.p := by
  rw [State.iteration, State.entry, unknown]
  split <;> rfl

theorem rounds_succ (table : Table) (n : Nat) :
    rounds table (n + 1) = (rounds table n).iteration table := iterate_succ_apply' ..

theorem rounds_add (n m : Nat) :
    rounds table (n + m) = (State.iteration table)^[m] (rounds table n) := by
  rw [rounds, Nat.add_comm, iterate_add_apply, ← rounds]

/-- The walk comes to every entry ... -/
theorem Table.EntryAt.reached {p : Nat} (entry : table.EntryAt p) :
    ∃ n, (rounds table n).p = p := by
  induction entry with
  | first => exact ⟨0, rfl⟩
  | @next p type entry inside known ih =>
    obtain ⟨n, place⟩ := ih
    subst place
    refine ⟨n + 1, ?_⟩
    rw [rounds_succ, State.iteration, if_pos inside, (entry_known known).1]

/-- ... and to nothing else. -/
theorem entryAt_rounds (table : Table) (n : Nat) : table.EntryAt (rounds table n).p := by
  induction n with
  | zero => exact .first
  | succ n ih =>
    rw [rounds_succ]
    cases type : entryType (table (rounds table n).p) with
    | none => rwa [iteration_unknown type]
    | some type' =>
      rw [State.iteration]
      split
      case isTrue inside =>
        rw [(entry_known type).1]
        exact ih.next inside type
      case isFalse => exact ih

/-- At an entry of unknown type the loop goes round for ever. -/
theorem not_ended_of_unknown (unknown : table.UnknownEntry) (n : Nat) :
    ¬ (rounds table n).Ended table := by
  obtain ⟨p, entry, inside, none⟩ := unknown
  obtain ⟨m, place⟩ := entry.reached
  have stays : ∀ k, (rounds table (m + k)).p = p := by
    intro k
    induction k with
    | zero => exact place
    | succ k ih => rw [← Nat.add_assoc, rounds_succ, iteration_unknown (ih ▸ none), ih]
  intro ended
  -- a loop that has ended would still have ended `m` rounds later
  have fixed : (rounds table n).iteration table = rounds table n := if_neg (Nat.not_lt_of_le ended)
  have later := stays n
  rw [Nat.add_comm, rounds_add, iterate_fixed fixed] at later
  rw [State.Ended, later] at ended
  omega

theorem rounds_progress (known : ¬ table.UnknownEntry) (n : Nat) :
    ((rounds table n).Ended table ∨ 8 * n ≤ (rounds table n).p) ∧ (rounds table n).ismp = true := by
  induction n with
  | zero => exact ⟨.inr (Nat.zero_le _), rfl⟩
  | succ n ih =>
    obtain ⟨progress, ismp⟩ := ih
    rw [rounds_succ, State.iteration]
    split
    case isFalse ended => exact ⟨.inl (Nat.le_of_not_lt ended), ismp⟩
    case isTrue going =>
      cases type : entryType (table (rounds table n).p) with
      | none => exact absurd ⟨_, entryAt_rounds table n, going, type⟩ known
      | some type' =>
        have moves := entry_known type
        refine ⟨.inr ?_, moves.2.trans ismp⟩
        have before := progress.resolve_left (Nat.not_le_of_lt going)
        have size : 8 ≤ type'.size := by cases type' <;> decide
        omega

end

/-- The loop ends, with `ismp` cleared if there is an entry of unknown type and at most
`NCPU` processors, exactly if there is no such entry. -/
theorem mpinit_ends (table : Table) (_accepted : table.mpconfig = true) :
    ((∃ n, (rounds table n).Ended table ∧
        ((rounds table n).ismp = false ↔ table.UnknownEntry)) ∧
      ∀ n, (rounds table n).ncpu ≤ maxCpus) ↔ ¬ table.UnknownEntry := by
  constructor
  · rintro ⟨⟨n, ended, -⟩, -⟩ unknown
    exact not_ended_of_unknown unknown n ended
  · intro known
    obtain ⟨progress, ismp⟩ := rounds_progress known table.length
    refine ⟨⟨table.length, ?_, ?_⟩, ncpu_rounds table⟩
    · rw [State.Ended]
      exact progress.elim id fun far => by omega
    · rw [ismp]
      exact ⟨nofun, fun unknown => absurd unknown known⟩

/-- A table of `bytes` behind its header; `checksum` makes the sum of all bytes 0. -/
def tableOf (checksum : UInt8) (bytes : List UInt8) : Table := fun i =>
  ([0x50, 0x43, 0x4D, 0x50, UInt8.ofNat (headerSize + bytes.length), 0, 1, checksum] ++
    List.replicate 36 0 ++ bytes).getD i 0

/-- A processor and a bus. -/
def twoEntries : Table := tableOf 0x86 (List.replicate 20 0 ++ [1, 0, 0, 0, 0, 0, 0, 0])

theorem two_entries_walked :
    (∃ n, (rounds twoEntries n).Ended twoEntries ∧
        ((rounds twoEntries n).ismp = false ↔ twoEntries.UnknownEntry)) ∧
      ∀ n, (rounds twoEntries n).ncpu ≤ maxCpus := by
  apply (mpinit_ends _ (by decide +kernel)).mpr
  have places : ∀ p, twoEntries.EntryAt p → p = 44 ∨ p = 64 ∨ 72 ≤ p := by
    intro p entry
    induction entry with
    | first => exact .inl rfl
    | next _ _ known ih =>
      obtain rfl | rfl | far := ih
      · cases (show some EntryType.proc = _ from known)
        exact .inr (.inl rfl)
      · cases (show some EntryType.bus = _ from known)
        exact .inr (.inr (Nat.le_refl _))
      · exact .inr (.inr (Nat.le_add_right_of_le far))
  rintro ⟨p, entry, inside, unknown⟩
  have length : twoEntries.length = 72 := by decide +kernel
  obtain rfl | rfl | far := places p entry
  · cases unknown
  · cases unknown
  · omega

def unknownEntry : Table := tableOf 0x9D [5]

/-- The entry is looked at again and again. -/
theorem unknown_entry_loops : unknownEntry.mpconfig = true ∧
    ∀ n, ¬ (rounds unknownEntry n).Ended unknownEntry :=
  ⟨by decide +kernel, not_ended_of_unknown ⟨44, .first, by decide +kernel, by decide +kernel⟩⟩

end Laboratorio.Xv6.Mp
