import Concordium.Afgjort.PartySet

/-!
Contract: the tallies of `Concordium.Afgjort.Freeze`, its proposals and its votes: a map from what
is proposed or voted for to whether it is justified and the parties that made it, beside the set
of the parties of the justified entries.

Owns:
- `Recorded w parties`: the map weighs the sum of `w` over its parties, each of which weighs
  something (`Recorded.empty`, `Recorded.singleton`, `Recorded.insert`), so that a map of no
  weight has no parties;
- `JustifiedParty`, `JustifiedAtLeast` and `justifiedCount`: a party of a justified entry, an
  entry justified and made by parties of at least a weight, and the number of justified entries
  made by some weight, which counts two distinct keys once it reaches two
  (`exists_ne_of_two_le_justifiedCount`);
- `Tallied w entries justified`: every entry is recorded, and `justified` is weighted and holds
  exactly the parties of the justified entries, from `Tallied.empty`; one lemma for each way the
  handlers change a tally (`Tallied.setUnjustified`, `Tallied.justifyEmpty`, `Tallied.justify`, `Tallied.add`),
  and the count after a change (`justifiedCount_insert_of_lookup_eq_none`,
  `justifiedCount_insert_of_lookup`, `justifiedCount_insert_of_not_counted`);
- `Kept entries entries'`: the justified entries stay justified, with at least their parties and
  their weight, with `Kept.refl`, `Kept.trans`, the two changes that keep them
  (`kept_insert_of_not_justified`, `kept_insert_add`), and what they keep
  (`JustifiedParty.kept`, `JustifiedAtLeast.kept`);
- `Listed entries key party` and `Extends entries entries'`: every party of every entry, justified
  or not, stays one, with the changes that keep them (`extends_insert`,
  `extends_insert_of_lookup_eq_none`, `extends_insert_same`, `extends_insert_add`), and what a
  change can list (`listed_insert`, `listed_or_of_member_insert`).

Does not own: the handlers that make these changes (`Concordium.Afgjort.Freeze`).
-/

set_option autoImplicit false

namespace Concordium.Afgjort

variable {κ sig : Type} [LinearOrder κ] {w : Nat → Nat}

/-- A party map of the protocol: its weight is its parties' by `w`, each of positive weight. -/
structure Recorded (w : Nat → Nat) (parties : PartyMap sig) : Prop where
  weighted : parties.WeightedBy w
  positive : ∀ party, parties.member party = true → 0 < w party

namespace Recorded

theorem empty : Recorded w (PartyMap.empty : PartyMap sig) where
  weighted := PartyMap.weightedBy_empty
  positive := fun party listed => absurd listed (by rw [PartyMap.member_empty]; decide)

theorem singleton {party : Nat} (positive : 0 < w party) (signature : sig) :
    Recorded w (PartyMap.singleton party (w party) signature) where
  weighted := PartyMap.weightedBy_singleton party signature
  positive := fun other listed => by
    rw [PartyMap.member_singleton, decide_eq_true_iff] at listed
    exact listed ▸ positive

theorem insert {parties : PartyMap sig} (recorded : Recorded w parties) (fits : WeightsFit w)
    {party : Nat} (positive : 0 < w party) (signature : sig) :
    Recorded w (parties.insert party (w party) signature) where
  weighted := recorded.weighted.insert fits party signature
  positive := fun other listed => by
    rw [PartyMap.member_insert, Bool.or_eq_true, decide_eq_true_iff] at listed
    rcases listed with old | same
    · exact recorded.positive other old
    · exact same ▸ positive

/-- A recorded map of no weight has no parties. -/
theorem not_member_of_weight_eq_zero {parties : PartyMap sig} (recorded : Recorded w parties)
    (zero : parties.weight = 0) (party : Nat) : parties.member party = false := by
  rw [← Bool.not_eq_true]
  intro listed
  have within : party ∈ parties.members := PartyMap.mem_members.mpr listed
  have counted : w party ≤ parties.weight := by
    rw [recorded.weighted]
    exact Finset.single_le_sum (fun _ _ => Nat.zero_le _) within
  have positive := recorded.positive party listed
  omega

end Recorded

/-! ## Justified entries -/

/-- The party made a justified entry. -/
def JustifiedParty (entries : AscMap κ (Bool × PartyMap sig)) (party : Nat) : Prop :=
  ∃ key parties, entries.lookup key = some (true, parties) ∧ parties.member party = true

/-- The party made a justified entry at another key than `key`. -/
def JustifiedElsewhere (entries : AscMap κ (Bool × PartyMap sig)) (key : κ) (party : Nat) :
    Prop :=
  ∃ other parties, other ≠ key ∧ entries.lookup other = some (true, parties) ∧
    parties.member party = true

/-- The entry at the key is justified, and made by parties of weight at least `least`. -/
def JustifiedAtLeast (entries : AscMap κ (Bool × PartyMap sig)) (key : κ) (least : Nat) : Prop :=
  ∃ parties, entries.lookup key = some (true, parties) ∧ least ≤ parties.weight

/-- The entry is justified and made by some weight. -/
def countsJustified (entry : κ × Bool × PartyMap sig) : Bool :=
  entry.2.1 && decide (0 < entry.2.2.weight)

/-- The number of justified entries made by some weight. -/
def justifiedCount (entries : AscMap κ (Bool × PartyMap sig)) : Nat :=
  entries.toAscList.countP countsJustified

theorem justifiedParty_iff (entries : AscMap κ (Bool × PartyMap sig)) (key : κ) (party : Nat) :
    JustifiedParty entries party ↔
      (∃ parties, entries.lookup key = some (true, parties) ∧ parties.member party = true) ∨
        JustifiedElsewhere entries key party := by
  constructor
  · rintro ⟨other, parties, found, listed⟩
    by_cases same : other = key
    · subst same
      exact .inl ⟨parties, found, listed⟩
    · exact .inr ⟨other, parties, same, found, listed⟩
  · rintro (⟨parties, found, listed⟩ | ⟨other, parties, -, found, listed⟩)
    · exact ⟨key, parties, found, listed⟩
    · exact ⟨other, parties, found, listed⟩

theorem justifiedParty_iff_elsewhere {entries : AscMap κ (Bool × PartyMap sig)} {key : κ}
    (notJustified : ∀ parties, entries.lookup key ≠ some (true, parties)) (party : Nat) :
    JustifiedParty entries party ↔ JustifiedElsewhere entries key party := by
  rw [justifiedParty_iff _ key]
  exact or_iff_right fun ⟨parties, found, _⟩ => notJustified parties found

theorem justifiedElsewhere_insert (entries : AscMap κ (Bool × PartyMap sig)) (key : κ)
    (entry : Bool × PartyMap sig) (party : Nat) :
    JustifiedElsewhere (entries.insert key entry) key party ↔
      JustifiedElsewhere entries key party := by
  constructor
  all_goals
    rintro ⟨other, parties, differs, found, listed⟩
    refine ⟨other, parties, differs, ?_, listed⟩
    simpa [AscMap.lookup_insert, differs] using found

theorem justifiedParty_insert (entries : AscMap κ (Bool × PartyMap sig)) (key : κ) (flag : Bool)
    (parties : PartyMap sig) (party : Nat) :
    JustifiedParty (entries.insert key (flag, parties)) party ↔
      (flag = true ∧ parties.member party = true) ∨ JustifiedElsewhere entries key party := by
  rw [justifiedParty_iff _ key, justifiedElsewhere_insert, AscMap.lookup_insert, if_pos rfl]
  simp

/-- A counted entry is justified by some weight. -/
theorem justifiedAtLeast_of_counted {entries : AscMap κ (Bool × PartyMap sig)}
    {entry : κ × Bool × PartyMap sig} (listed : entry ∈ entries.toAscList)
    (counted : countsJustified entry = true) : JustifiedAtLeast entries entry.1 1 := by
  rw [countsJustified, Bool.and_eq_true, decide_eq_true_iff] at counted
  refine ⟨entry.2.2, ?_, counted.2⟩
  rw [← AscMap.mem_iff_lookup, ← counted.1]
  exact listed

/-- Two counted entries are at two keys. -/
theorem exists_ne_of_two_le_justifiedCount {entries : AscMap κ (Bool × PartyMap sig)}
    (two : 2 ≤ justifiedCount entries) :
    ∃ key key', key ≠ key' ∧ JustifiedAtLeast entries key 1 ∧ JustifiedAtLeast entries key' 1 := by
  have ascending := entries.ascending_entries.filter countsJustified
  have counted : ∀ entry ∈ entries.toAscList.filter countsJustified,
      JustifiedAtLeast entries entry.1 1 := fun entry listed =>
    justifiedAtLeast_of_counted (List.mem_filter.mp listed).1 (List.mem_filter.mp listed).2
  rw [justifiedCount, List.countP_eq_length_filter] at two
  match chosen : entries.toAscList.filter countsJustified, two with
  | first :: second :: _, _ =>
    rw [chosen] at ascending counted
    have below : first.1 < second.1 := List.rel_of_pairwise_cons ascending List.mem_cons_self
    exact ⟨first.1, second.1, ne_of_lt below, counted first List.mem_cons_self,
      counted second (List.mem_cons_of_mem first List.mem_cons_self)⟩

theorem justifiedCount_insert_of_lookup_eq_none {entries : AscMap κ (Bool × PartyMap sig)}
    {key : κ} (absent : entries.lookup key = none) (entry : Bool × PartyMap sig) :
    justifiedCount (entries.insert key entry) =
      justifiedCount entries + if countsJustified (key, entry) then 1 else 0 := by
  rw [justifiedCount, (AscMap.insert_perm key entry entries).countP_eq, List.countP_cons,
    AscMap.filter_eq_self_of_lookup_eq_none absent, justifiedCount]

/-- The count after an entry replaces another: the one entry's share for the other's. -/
theorem justifiedCount_insert_of_lookup {entries : AscMap κ (Bool × PartyMap sig)} {key : κ}
    {old : Bool × PartyMap sig} (found : entries.lookup key = some old)
    (entry : Bool × PartyMap sig) :
    justifiedCount (entries.insert key entry) + (if countsJustified (key, old) then 1 else 0) =
      justifiedCount entries + if countsJustified (key, entry) then 1 else 0 := by
  rw [justifiedCount, (AscMap.insert_perm key entry entries).countP_eq, List.countP_cons,
    justifiedCount, (AscMap.perm_of_lookup found).countP_eq, List.countP_cons]
  omega

/-- An entry that was not justified does not count. -/
theorem not_counted_of_not_justified {entries : AscMap κ (Bool × PartyMap sig)} {key : κ}
    (notJustified : ∀ parties, entries.lookup key ≠ some (true, parties)) :
    ∀ old, entries.lookup key = some old → countsJustified (key, old) = false := by
  rintro ⟨flag, parties⟩ found
  cases flag with
  | false => rfl
  | true => exact absurd found (notJustified parties)

/-- An entry that does not count, in place of one that did not, leaves the count. -/
theorem justifiedCount_insert_of_not_counted {entries : AscMap κ (Bool × PartyMap sig)}
    {key : κ} (before : ∀ old, entries.lookup key = some old → countsJustified (key, old) = false)
    {entry : Bool × PartyMap sig} (after : countsJustified (key, entry) = false) :
    justifiedCount (entries.insert key entry) = justifiedCount entries := by
  cases found : entries.lookup key with
  | none =>
    rw [justifiedCount_insert_of_lookup_eq_none found, after]
    simp
  | some old =>
    have recount := justifiedCount_insert_of_lookup found entry
    rw [before old found, after] at recount
    simpa using recount

/-! ## Tallies -/

/-- A tally: every entry is recorded, and `justified` holds exactly the parties of the justified
entries, with their weight. -/
structure Tallied (w : Nat → Nat) (entries : AscMap κ (Bool × PartyMap sig))
    (justified : PartySet) : Prop where
  recorded : ∀ key entry, entries.lookup key = some entry → Recorded w entry.2
  weighted : justified.WeightedBy w
  justifiedParties : ∀ party, justified.member party = true ↔ JustifiedParty entries party

namespace Tallied

variable {entries : AscMap κ (Bool × PartyMap sig)} {justified : PartySet}

/-- The empty tally. -/
theorem empty : Tallied w (AscMap.empty : AscMap κ (Bool × PartyMap sig)) PartySet.empty where
  recorded := fun _ _ found => by cases found
  weighted := PartySet.weightedBy_empty
  justifiedParties := fun party =>
    iff_of_false (by rw [PartySet.member, PartySet.empty, CSS.BitSet.member_empty]; decide)
      fun ⟨_, _, found, _⟩ => by cases found

theorem recorded_insert (tallied : Tallied w entries justified) {key : κ}
    {entry : Bool × PartyMap sig} (recorded : Recorded w entry.2) :
    ∀ other found, (entries.insert key entry).lookup other = some found → Recorded w found.2 := by
  intro other found looked
  rw [AscMap.lookup_insert] at looked
  split at looked
  · cases looked
    exact recorded
  · exact tallied.recorded other found looked

/-- An entry that was not justified is replaced by another that is not. -/
theorem setUnjustified (tallied : Tallied w entries justified) {key : κ}
    (notJustified : ∀ parties, entries.lookup key ≠ some (true, parties))
    {parties : PartyMap sig} (recorded : Recorded w parties) :
    Tallied w (entries.insert key (false, parties)) justified where
  recorded := tallied.recorded_insert recorded
  weighted := tallied.weighted
  justifiedParties party := by
    rw [tallied.justifiedParties, justifiedParty_insert, justifiedParty_iff_elsewhere notJustified]
    simp

/-- An entry that was not justified is justified with no parties. -/
theorem justifyEmpty (tallied : Tallied w entries justified) {key : κ}
    (notJustified : ∀ parties, entries.lookup key ≠ some (true, parties))
    {parties : PartyMap sig} (recorded : Recorded w parties)
    (noParties : ∀ party, parties.member party = false) :
    Tallied w (entries.insert key (true, parties)) justified where
  recorded := tallied.recorded_insert recorded
  weighted := tallied.weighted
  justifiedParties party := by
    rw [tallied.justifiedParties, justifiedParty_insert, justifiedParty_iff_elsewhere notJustified,
      noParties]
    simp

/-- An entry is justified, and its parties join the justified ones. -/
theorem justify (tallied : Tallied w entries justified) (fits : WeightsFit w) {key : κ}
    {parties : PartyMap sig} (found : entries.lookup key = some (false, parties)) :
    Tallied w (entries.insert key (true, parties)) (PartySet.union w parties.keysSet justified) where
  recorded := tallied.recorded_insert (show Recorded w parties from tallied.recorded key _ found)
  weighted :=
    (PartyMap.keysSet_weightedBy (tallied.recorded key _ found).weighted).union tallied.weighted
      fits
  justifiedParties party := by
    have notJustified : ∀ others, entries.lookup key ≠ some (true, others) := fun others => by
      rw [found]
      simp
    rw [PartySet.member_union, PartyMap.member_keysSet, Bool.or_eq_true, tallied.justifiedParties,
      justifiedParty_insert, justifiedParty_iff_elsewhere notJustified]
    simp

/-- A party is added to a justified entry, and to the justified parties. -/
theorem add (tallied : Tallied w entries justified) (fits : WeightsFit w) {key : κ}
    {parties : PartyMap sig} (found : entries.lookup key = some (true, parties)) {party : Nat}
    (positive : 0 < w party) (signature : sig) :
    Tallied w (entries.insert key (true, parties.insert party (w party) signature))
      (justified.insert party (w party)) where
  recorded :=
    tallied.recorded_insert ((tallied.recorded key _ found).insert fits positive signature)
  weighted := tallied.weighted.insert fits party
  justifiedParties other := by
    rw [PartySet.member_insert, Bool.or_eq_true, decide_eq_true_iff, tallied.justifiedParties,
      justifiedParty_insert, justifiedParty_iff _ key, found, PartyMap.member_insert,
      Bool.or_eq_true, decide_eq_true_iff]
    simp only [Option.some_inj, Prod.mk.injEq, true_and, exists_eq_left', true_and]
    tauto

end Tallied

/-! ## Justified entries are kept -/

/-- The justified entries stay justified, with at least their parties and weight. -/
def Kept (entries entries' : AscMap κ (Bool × PartyMap sig)) : Prop :=
  ∀ key parties, entries.lookup key = some (true, parties) →
    ∃ parties', entries'.lookup key = some (true, parties') ∧ parties.weight ≤ parties'.weight ∧
      ∀ party, parties.member party = true → parties'.member party = true

theorem Kept.refl (entries : AscMap κ (Bool × PartyMap sig)) : Kept entries entries :=
  fun _ parties found => ⟨parties, found, le_rfl, fun _ listed => listed⟩

theorem Kept.trans {first second third : AscMap κ (Bool × PartyMap sig)}
    (kept : Kept first second) (kept' : Kept second third) : Kept first third := by
  intro key parties found
  obtain ⟨parties', found', heavier, more⟩ := kept key parties found
  obtain ⟨parties'', found'', heavier', more'⟩ := kept' key parties' found'
  exact ⟨parties'', found'', heavier.trans heavier', fun party listed => more' party (more party listed)⟩

/-- A change at a key whose entry was not justified keeps the justified entries. -/
theorem kept_insert_of_not_justified {entries : AscMap κ (Bool × PartyMap sig)} {key : κ}
    (notJustified : ∀ parties, entries.lookup key ≠ some (true, parties))
    (entry : Bool × PartyMap sig) : Kept entries (entries.insert key entry) := by
  intro other parties found
  rw [AscMap.lookup_insert]
  split
  · rename_i same
    subst same
    exact absurd found (notJustified parties)
  · exact ⟨parties, found, le_rfl, fun _ listed => listed⟩

/-- A party added to a justified entry of exact weight keeps the justified entries. -/
theorem kept_insert_add {entries : AscMap κ (Bool × PartyMap sig)} {key : κ}
    {parties : PartyMap sig} (found : entries.lookup key = some (true, parties))
    (weighted : parties.WeightedBy w) (fits : WeightsFit w) (party : Nat) (signature : sig) :
    Kept entries (entries.insert key (true, parties.insert party (w party) signature)) := by
  intro other others foundOther
  rw [AscMap.lookup_insert]
  split
  · rename_i same
    subst same
    rw [found, Option.some_inj, Prod.mk.injEq] at foundOther
    rw [← foundOther.2]
    refine ⟨_, rfl, weighted.le_insert fits party signature, fun member listed => ?_⟩
    rw [PartyMap.member_insert, listed, Bool.true_or]
  · exact ⟨others, foundOther, le_rfl, fun _ listed => listed⟩

theorem JustifiedParty.kept {entries entries' : AscMap κ (Bool × PartyMap sig)}
    (kept : Kept entries entries') {party : Nat} (justified : JustifiedParty entries party) :
    JustifiedParty entries' party := by
  obtain ⟨key, parties, found, listed⟩ := justified
  obtain ⟨parties', found', -, more⟩ := kept key parties found
  exact ⟨key, parties', found', more party listed⟩

theorem JustifiedAtLeast.kept {entries entries' : AscMap κ (Bool × PartyMap sig)}
    (kept : Kept entries entries') {key : κ} {least : Nat}
    (justified : JustifiedAtLeast entries key least) : JustifiedAtLeast entries' key least := by
  obtain ⟨parties, found, enough⟩ := justified
  obtain ⟨parties', found', heavier, -⟩ := kept key parties found
  exact ⟨parties', found', enough.trans heavier⟩

/-! ## Every party is kept -/

/-- The entry at `key` has `party` among its parties, justified or not. -/
def Listed (entries : AscMap κ (Bool × PartyMap sig)) (key : κ) (party : Nat) : Prop :=
  ∃ entry, entries.lookup key = some entry ∧ entry.2.member party = true

/-- Every party of an entry stays a party of its entry. -/
def Extends (entries entries' : AscMap κ (Bool × PartyMap sig)) : Prop :=
  ∀ key party, Listed entries key party → Listed entries' key party

theorem Extends.refl (entries : AscMap κ (Bool × PartyMap sig)) : Extends entries entries :=
  fun _ _ listed => listed

theorem Extends.trans {first second third : AscMap κ (Bool × PartyMap sig)}
    (extended : Extends first second) (extended' : Extends second third) : Extends first third :=
  fun key party listed => extended' key party (extended key party listed)

theorem listed_insert_self {entries : AscMap κ (Bool × PartyMap sig)} {key : κ}
    {entry : Bool × PartyMap sig} {party : Nat} (member : entry.2.member party = true) :
    Listed (entries.insert key entry) key party :=
  ⟨entry, AscMap.lookup_insert_self _ _ _, member⟩

/-- A party listed after a change of one entry is a party of the new entry, or was listed at
another key. -/
theorem listed_insert {entries : AscMap κ (Bool × PartyMap sig)} {key : κ}
    {entry : Bool × PartyMap sig} {other : κ} {party : Nat} :
    Listed (entries.insert key entry) other party ↔
      (other = key ∧ entry.2.member party = true) ∨ (other ≠ key ∧ Listed entries other party) := by
  unfold Listed
  rw [AscMap.lookup_insert]
  by_cases same : other = key
  · rw [if_pos same]
    simp [same]
  · rw [if_neg same]
    simp [same]

/-- A party of an entry with one party added is that party, or a party of the entry. -/
theorem listed_or_of_member_insert {entries : AscMap κ (Bool × PartyMap sig)} {key : κ}
    {flag : Bool} {parties : PartyMap sig} (found : entries.lookup key = some (flag, parties))
    {party vp : Nat} {signature : sig} {other : Nat}
    (member : (parties.insert party vp signature).member other = true) :
    Listed entries key other ∨ other = party := by
  rw [PartyMap.member_insert, Bool.or_eq_true, decide_eq_true_iff] at member
  rcases member with old | same
  · exact .inl ⟨_, found, old⟩
  · exact .inr same.symm

/-- An entry replaced by one with at least its parties keeps every party. -/
theorem extends_insert {entries : AscMap κ (Bool × PartyMap sig)} {key : κ}
    {entry : Bool × PartyMap sig}
    (more : ∀ old, entries.lookup key = some old →
      ∀ party, old.2.member party = true → entry.2.member party = true) :
    Extends entries (entries.insert key entry) := by
  rintro other party ⟨old, found, member⟩
  rw [Listed, AscMap.lookup_insert]
  split
  · rename_i same
    subst same
    exact ⟨entry, rfl, more old found party member⟩
  · exact ⟨old, found, member⟩

theorem extends_insert_of_lookup_eq_none {entries : AscMap κ (Bool × PartyMap sig)} {key : κ}
    (absent : entries.lookup key = none) (entry : Bool × PartyMap sig) :
    Extends entries (entries.insert key entry) :=
  extends_insert fun old found => absurd (absent.symm.trans found) (Option.some_ne_none old).symm

/-- An entry whose flag changes keeps its parties. -/
theorem extends_insert_same {entries : AscMap κ (Bool × PartyMap sig)} {key : κ} {flag : Bool}
    {parties : PartyMap sig} (found : entries.lookup key = some (flag, parties)) (flag' : Bool) :
    Extends entries (entries.insert key (flag', parties)) :=
  extends_insert fun old listed party member => by
    rw [found, Option.some_inj] at listed
    rw [← listed] at member
    exact member

theorem extends_insert_add {entries : AscMap κ (Bool × PartyMap sig)} {key : κ} {flag : Bool}
    {parties : PartyMap sig} (found : entries.lookup key = some (flag, parties)) (flag' : Bool)
    (party vp : Nat) (signature : sig) :
    Extends entries (entries.insert key (flag', parties.insert party vp signature)) :=
  extends_insert fun old listed other member => by
    rw [found, Option.some_inj] at listed
    rw [← listed] at member
    rw [PartyMap.member_insert, member, Bool.true_or]

end Concordium.Afgjort
