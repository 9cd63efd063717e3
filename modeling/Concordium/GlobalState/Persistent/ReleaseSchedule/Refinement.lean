import Concordium.GlobalState.Persistent.ReleaseSchedule

/-!
Contract: along every sequence of operations that keeps the callers' preconditions, both
release schedules answer as the schedule of first releases does and hold that schedule:
`processReleasesUntil ts` releases exactly the accounts due by `ts`, earliest first, and removes
them, the first timestamp is the earliest release time (`maxBound` when there is none), and the
legacy count is the number of accounts. The two list the accounts released at one time in the
order of their own references, so under a map from addresses to indices their answers agree up
to that order.

Owns:
- `LegacyRefines` and `NewRefines`, what each implementation keeps of the schedule, and one
  lemma per operation that it keeps it (`addAccountRelease_refines`,
  `updateAccountRelease_refines`, `processReleasesUntil_refines` in each namespace);
- the steps of both loops of `processReleasesUntil` (`deleteFindMin_step`, `findMin_step`),
  which read the earliest release time off the least key of the map or of the trie;
- `legacy_simulates` and `new_simulates`, and the run theorems built on them.

Does not own: the schedule's own laws (`TimedSet`), or the trie's (`Trie.FiniteMap`).
-/

set_option autoImplicit false

namespace Concordium.GlobalState.Persistent.ReleaseSchedule

open Timestamp (maxBound)

variable {α β : Type}

/-! ## The legacy schedule -/

section Legacy

variable [LinearOrder α]

/-- A legacy schedule holds the schedule: its map has each release time's accounts, its first
timestamp is the earliest release time, and it counts the accounts, modulo `2^64` as a `Word64`
counts. -/
structure LegacyRefines (schedule : TimedSet α Timestamp) (rs : LegacyReleaseSchedule α) :
    Prop where
  lookup : ∀ ts, rs.lrsMap.lookup ts = schedule.groupAt id ts
  firstTimestamp : rs.lrsFirstTimestamp = schedule.first
  entryCount : rs.lrsEntryCount = UInt64.ofNat schedule.members.card

namespace LegacyReleaseSchedule

theorem addAcc_eq (addr : α) (accs : Option (Finset α)) :
    addAccountRelease.addAcc addr accs = some (insert addr (accs.getD ∅)) := by
  cases accs with
  | none => exact congrArg some (LawfulSingleton.insert_empty_eq addr).symm
  | some accs => rfl

theorem remAcc_some (addr : α) (accs : Finset α) :
    updateAccountRelease.remAcc addr (some accs) =
      .ok (if (accs.erase addr).Nonempty then some (accs.erase addr) else none) := by
  show Except.ok (if accs.erase addr = ∅ then none else some (accs.erase addr)) = _
  by_cases empty : accs.erase addr = ∅
  · rw [if_pos empty, if_neg (Finset.not_nonempty_iff_eq_empty.mpr empty)]
  · rw [if_neg empty, if_pos (Finset.nonempty_iff_ne_empty.mpr empty)]

/-- Adding an account that has no release yet to a map that holds the schedule. -/
theorem alter_addAcc_lookup {map : AscMap Timestamp (Finset α)} {schedule : TimedSet α Timestamp}
    (lookups : ∀ ts, map.lookup ts = schedule.groupAt id ts) {addr : α}
    (absent : addr ∉ schedule.members) (ts query : Timestamp) :
    (map.alter (addAccountRelease.addAcc addr) ts).lookup query =
      (schedule.set ts addr).groupAt id query := by
  rw [AscMap.lookup_alter, TimedSet.groupAt_set_of_notMem id absent, lookups, lookups, addAcc_eq,
    TimedSet.getD_groupAt]
  rfl

theorem addAccountRelease_refines {schedule : TimedSet α Timestamp} {rs : LegacyReleaseSchedule α}
    (refines : LegacyRefines schedule rs) (ts : Timestamp) {addr : α}
    (absent : addr ∉ schedule.members) :
    LegacyRefines (schedule.set ts addr) (addAccountRelease ts addr rs) where
  lookup := alter_addAcc_lookup refines.lookup absent ts
  firstTimestamp := by
    rw [TimedSet.first_set ts fun present => absurd present absent, ← refines.firstTimestamp]
    rfl
  entryCount := by
    show 1 + rs.lrsEntryCount = UInt64.ofNat (insert addr schedule.members).card
    rw [Finset.card_insert_of_notMem absent, UInt64.ofNat_add, refines.entryCount,
      UInt64.add_comm]
    rfl

theorem updateAccountRelease_refines {schedule : TimedSet α Timestamp}
    {rs : LegacyReleaseSchedule α} (refines : LegacyRefines schedule rs) {oldts ts : Timestamp}
    {addr : α} (present : addr ∈ schedule.members) (atOld : schedule.time addr = oldts)
    (earlier : ts ≤ oldts) :
    ∃ next, updateAccountRelease oldts ts addr rs = .ok next ∧
      LegacyRefines (schedule.set ts addr) next := by
  have atGroup : rs.lrsMap.lookup oldts = some ((schedule.membersAt oldts).image id) := by
    rw [refines.lookup, TimedSet.groupAt,
      if_pos ⟨addr, TimedSet.mem_membersAt.mpr ⟨present, atOld⟩⟩]
  -- the account leaves its old time first, as the schedule without it
  let remMap := AscMap.setEntry oldts
    (if (((schedule.membersAt oldts).image id).erase addr).Nonempty then
      some (((schedule.membersAt oldts).image id).erase addr) else none) rs.lrsMap
  have removed : ∀ query, remMap.lookup query = (schedule.erase addr).groupAt id query := by
    intro query
    rw [AscMap.lookup_setEntry, TimedSet.groupAt_erase Function.injective_id, atOld,
      ← refines.lookup]
    by_cases same : query = oldts
    · rw [if_pos same, if_pos same, same]
      rfl
    · rw [if_neg same, if_neg same]
  have absent : addr ∉ (schedule.erase addr).members := Finset.notMem_erase addr _
  refine ⟨⟨min rs.lrsFirstTimestamp ts, remMap.alter (addAccountRelease.addAcc addr) ts,
    rs.lrsEntryCount⟩, ?_, ?_⟩
  · show (AscMap.alterF _ oldts rs.lrsMap >>= _) = _
    rw [AscMap.alterF, atGroup, remAcc_some]
    rfl
  rw [TimedSet.set_eq_set_erase present]
  refine ⟨alter_addAcc_lookup removed absent ts, ?_, ?_⟩
  · rw [← TimedSet.set_eq_set_erase present, TimedSet.first_set ts fun _ => atOld ▸ earlier,
      refines.firstTimestamp]
  · rw [← TimedSet.set_eq_set_erase present, refines.entryCount]
    show _ = UInt64.ofNat (insert addr schedule.members).card
    rw [Finset.insert_eq_of_mem present]

/-- One step of the loop: the least key of the map is the earliest release time, its accounts
are the accounts due then, and the rest of the map holds the schedule without them. -/
theorem deleteFindMin_step {map newMap : AscMap Timestamp (Finset α)}
    {schedule : TimedSet α Timestamp} {minTS : Timestamp} {accs : Finset α}
    (lookups : ∀ ts, map.lookup ts = schedule.groupAt id ts)
    (found : map.deleteFindMin = some ((minTS, accs), newMap)) :
    IsLeast (schedule.times : Set Timestamp) minTS ∧ accs = schedule.membersAt minTS ∧
      ∀ ts, newMap.lookup ts = (schedule.dropUntil minTS).groupAt id ts := by
  obtain ⟨atMin, lowest, rest, _⟩ := AscMap.deleteFindMin_spec found
  have atGroup : schedule.groupAt id minTS = some accs := (lookups minTS).symm.trans atMin
  have least : IsLeast (schedule.times : Set Timestamp) minTS := by
    refine TimedSet.isLeast_of_groupAt id (by rw [atGroup]; rfl) fun ts listed => ?_
    obtain ⟨group, atTs⟩ := Option.isSome_iff_exists.mp listed
    exact lowest ts group ((lookups ts).trans atTs)
  refine ⟨least, ?_, fun ts => ?_⟩
  · have group := TimedSet.getD_groupAt (s := schedule) id minTS
    rw [atGroup, Option.getD_some, Finset.image_id] at group
    exact group
  · rw [rest ts, TimedSet.groupAt_dropUntil_isLeast id least, lookups]

theorem go_spec (ts : Timestamp) (rs : LegacyReleaseSchedule α) (accum : List α)
    (schedule : TimedSet α Timestamp) (lookups : ∀ ts, rs.lrsMap.lookup ts = schedule.groupAt id ts)
    (count : rs.lrsEntryCount = UInt64.ofNat schedule.members.card) :
    (processReleasesUntil.go ts rs accum).2 = accum ++ schedule.listUntil id ts ∧
      LegacyRefines (schedule.dropUntil ts) (processReleasesUntil.go ts rs accum).1 := by
  fun_induction processReleasesUntil.go ts rs accum generalizing schedule with
  | case1 rs accum found =>
      have absent : ∀ query, schedule.groupAt id query = none := fun query =>
        (lookups query).symm.trans ((AscMap.deleteFindMin_eq_none_iff _).mp found query)
      have empty := TimedSet.members_eq_empty_of_groupAt id absent
      have droppedEmpty : (schedule.dropUntil ts).members = ∅ := by
        show schedule.members.filter _ = ∅
        rw [empty, Finset.filter_empty]
      refine ⟨?_, ⟨fun query => ?_, ?_, ?_⟩⟩
      · rw [TimedSet.listUntil_eq_nil id (by simp [empty]), List.append_nil]
      · rw [AscMap.lookup_empty, TimedSet.groupAt_dropUntil, absent, ite_self]
      · exact (TimedSet.first_of_members_eq_empty droppedEmpty).symm
      · rw [droppedEmpty]
        rfl
  | case2 rs accum minTS accs newMap found due inductionHypothesis =>
      obtain ⟨least, atMin, rest⟩ := deleteFindMin_step lookups found
      have counted : rs.lrsEntryCount - UInt64.ofNat accs.card =
          UInt64.ofNat (schedule.dropUntil minTS).members.card := by
        rw [count, atMin, ← TimedSet.card_dropUntil_isLeast least,
          ← UInt64.ofNat_sub (Nat.le_add_left _ _), Nat.add_sub_cancel]
      obtain ⟨output, final⟩ := inductionHypothesis (schedule.dropUntil minTS) rest counted
      refine ⟨?_, ?_⟩
      · rw [output, TimedSet.listUntil_of_isLeast_le id least due, atMin, Finset.image_id,
          List.append_assoc]
      · rw [← TimedSet.dropUntil_dropUntil due]
        exact final
  | case3 rs accum minTS accs newMap found notDue =>
      obtain ⟨least, -, -⟩ := deleteFindMin_step lookups found
      have later : ∀ member ∈ schedule.members, ts < schedule.time member := fun _ present =>
        TimedSet.lt_time_of_isLeast least (not_le.mp notDue) present
      rw [TimedSet.listUntil_eq_nil id later, TimedSet.dropUntil_eq_self later, List.append_nil]
      exact ⟨rfl, lookups, (TimedSet.first_of_isLeast least).symm, count⟩

theorem processReleasesUntil_refines {schedule : TimedSet α Timestamp}
    {rs : LegacyReleaseSchedule α} (refines : LegacyRefines schedule rs) (ts : Timestamp) :
    (processReleasesUntil ts rs).1 = schedule.listUntil id ts ∧
      LegacyRefines (schedule.dropUntil ts) (processReleasesUntil ts rs).2 := by
  unfold processReleasesUntil
  split_ifs with early
  · -- nothing is due before the first timestamp, which is the earliest release time
    have later : ∀ member ∈ schedule.members, ts < schedule.time member := fun _ present =>
      TimedSet.lt_time_of_lt_first (refines.firstTimestamp ▸ early) present
    rw [TimedSet.listUntil_eq_nil id later, TimedSet.dropUntil_eq_self later]
    exact ⟨rfl, refines⟩
  · obtain ⟨output, final⟩ := go_spec ts rs [] schedule refines.lookup refines.entryCount
    exact ⟨output.trans (List.nil_append _), final⟩

end LegacyReleaseSchedule

theorem legacy_simulates :
    Machine.SimulatesWhen LegacyRefines Schedule.Admissible (Schedule.apply id)
      (LegacyReleaseSchedule.apply (α := α)) where
  step operation schedule rs refines admissible := by
    cases operation with
    | addAccountRelease ts addr =>
        exact ⟨rfl, LegacyReleaseSchedule.addAccountRelease_refines refines ts admissible⟩
    | updateAccountRelease oldts ts addr =>
        obtain ⟨present, atOld, earlier⟩ := admissible
        obtain ⟨next, updated, nextRefines⟩ :=
          LegacyReleaseSchedule.updateAccountRelease_refines refines present atOld earlier
        have stepped : LegacyReleaseSchedule.apply (.updateAccountRelease oldts ts addr) rs =
            (.updated, next) := by
          rw [LegacyReleaseSchedule.apply, updated]
          rfl
        rw [stepped]
        exact ⟨rfl, nextRefines⟩
    | processReleasesUntil ts =>
        obtain ⟨output, final⟩ := LegacyReleaseSchedule.processReleasesUntil_refines refines ts
        exact ⟨congrArg Response.released output, final⟩

theorem legacy_empty : LegacyRefines (TimedSet.empty : TimedSet α Timestamp)
    emptyReleaseSchedule.rsP0 where
  lookup ts := (AscMap.lookup_empty ts).trans (TimedSet.groupAt_empty id ts).symm
  firstTimestamp := (TimedSet.first_of_members_eq_empty rfl).symm
  entryCount := rfl

end Legacy

/-! ## The new schedule -/

section Trie

variable {m : Trie.TrieN Timestamp (AccountSet β)}

/-- `Trie.adjust` on a trie that keeps its invariant, read through the lookups. -/
theorem NewReleaseSchedule.adjust_lookup (invariant : Trie.TrieN.Invariant 8 m) {γ : Type}
    (adj : Option (AccountSet β) → γ × Trie.Alteration (AccountSet β)) (key : Timestamp) :
    ∃ next, Trie.adjust adj key m = .ok ((adj (Trie.lookup key m)).1, next) ∧
      Trie.TrieN.Invariant 8 next ∧
      ∀ query, Trie.lookup query next =
        if query = key then (adj (Trie.lookup key m)).2.apply (Trie.lookup key m)
        else Trie.lookup query m := by
  obtain ⟨next, adjusted, nextInvariant, nextMap⟩ :=
    Trie.adjust_spec Timestamp.fixedWidth invariant adj key
  refine ⟨next, adjusted, nextInvariant, fun query => ?_⟩
  rw [← Trie.lookup_toMap Timestamp.fixedWidth nextInvariant.stored, nextMap,
    Trie.lookup_alterEntry, Trie.lookup_toMap Timestamp.fixedWidth invariant.stored,
    Trie.lookup_toMap Timestamp.fixedWidth invariant.stored]

/-- `Trie.delete` on a trie that keeps its invariant, read through the lookups. -/
theorem NewReleaseSchedule.delete_lookup (invariant : Trie.TrieN.Invariant 8 m)
    (key : Timestamp) :
    ∃ next, Trie.delete key m = .ok next ∧ Trie.TrieN.Invariant 8 next ∧
      (∀ query, Trie.lookup query next = if query = key then none else Trie.lookup query m) ∧
      Trie.toMap next = (Trie.toMap m).erase key := by
  obtain ⟨next, deleted, nextInvariant, nextMap⟩ :=
    Trie.delete_spec Timestamp.fixedWidth invariant key
  refine ⟨next, deleted, nextInvariant, fun query => ?_, nextMap⟩
  rw [← Trie.lookup_toMap Timestamp.fixedWidth nextInvariant.stored, nextMap,
    ← Trie.lookup_toMap Timestamp.fixedWidth invariant.stored]
  split_ifs with same
  · rw [same, Finmap.lookup_erase]
  · exact Finmap.lookup_erase_ne same

end Trie

variable [LinearOrder β]

/-- A new schedule holds the schedule under `f`, the accounts' indices: a trie that keeps its
invariant, whose entry at each release time holds the indices of the accounts due then, and the
earliest release time as its first timestamp. -/
structure NewRefines (f : α → β) (schedule : TimedSet α Timestamp) (rs : NewReleaseSchedule β) :
    Prop where
  invariant : Trie.TrieN.Invariant 8 rs.nrsMap
  lookup : ∀ ts, Trie.lookup ts rs.nrsMap = (schedule.groupAt f ts).map AccountSet.mk
  firstTimestamp : rs.nrsFirstTimestamp = schedule.first

namespace NewReleaseSchedule

section Step

variable {m : Trie.TrieN Timestamp (AccountSet β)} {f : α → β} {schedule : TimedSet α Timestamp}

/-- One step of the loop: `findMin` finds nothing exactly where no account is scheduled, and
otherwise the earliest release time, with the indices of the accounts due then. -/
theorem findMin_step (invariant : Trie.TrieN.Invariant 8 m)
    (lookups : ∀ ts, Trie.lookup ts m = (schedule.groupAt f ts).map AccountSet.mk) :
    (Trie.findMin m = .ok none ∧ ∀ ts, schedule.groupAt f ts = none) ∨
      ∃ minTS accs, Trie.findMin m = .ok (some (minTS, accs)) ∧
        IsLeast (schedule.times : Set Timestamp) minTS ∧
        accs.theAccountSet = (schedule.membersAt minTS).image f ∧ minTS ∈ Trie.toMap m := by
  obtain ⟨found, findMin_eq, lookupMin⟩ :=
    Trie.findMin_isLookupMin Timestamp.fixedWidth Timestamp.ordered invariant.stored
  rcases found with _ | ⟨minTS, accs⟩
  · refine .inl ⟨findMin_eq, fun ts => ?_⟩
    have absent : Trie.lookup ts m = none := by
      rw [← Trie.lookup_toMap Timestamp.fixedWidth invariant.stored,
        (lookupMin : Trie.toMap m = ∅)]
      rfl
    rw [lookups] at absent
    exact Option.map_eq_none_iff.mp absent
  · obtain ⟨atMin, others⟩ := lookupMin
    have present : minTS ∈ Trie.toMap m := Finmap.mem_iff.mpr ⟨accs, atMin⟩
    rw [Trie.lookup_toMap Timestamp.fixedWidth invariant.stored, lookups] at atMin
    obtain ⟨group, atGroup, rfl⟩ := Option.map_eq_some_iff.mp atMin
    have least : IsLeast (schedule.times : Set Timestamp) minTS := by
      refine TimedSet.isLeast_of_groupAt f (by rw [atGroup]; rfl) fun ts listed => ?_
      obtain ⟨group', atTs⟩ := Option.isSome_iff_exists.mp listed
      have stored : ts ∈ Trie.toMap m := by
        refine Finmap.mem_iff.mpr ⟨⟨group'⟩, ?_⟩
        rw [Trie.lookup_toMap Timestamp.fixedWidth invariant.stored, lookups, atTs]
        rfl
      rcases others ts stored with same | later
      · exact le_of_eq same.symm
      · exact le_of_lt later
    refine .inr ⟨minTS, ⟨group⟩, findMin_eq, least, ?_, present⟩
    have atMembers := TimedSet.getD_groupAt (s := schedule) f minTS
    rw [atGroup, Option.getD_some] at atMembers
    exact atMembers

end Step

theorem addAcc_eq (ai : β) (accs : Option (AccountSet β)) :
    addAccountRelease.addAcc ai accs =
      ((), .insert ⟨insert ai ((accs.map AccountSet.theAccountSet).getD ∅)⟩) := by
  cases accs with
  | none =>
      exact congrArg (fun accs => ((), Trie.Alteration.insert (AccountSet.mk accs)))
        (LawfulSingleton.insert_empty_eq ai).symm
  | some accs => rfl

theorem remAcc_some (ai : β) (accs : Finset β) :
    updateAccountRelease.remAcc ai (some ⟨accs⟩) =
      (.ok (), if (accs.erase ai).Nonempty then .insert ⟨accs.erase ai⟩ else .remove) := by
  show (if accs.erase ai = ∅ then (Except.ok (), Trie.Alteration.remove)
    else (Except.ok (), Trie.Alteration.insert (AccountSet.mk (accs.erase ai)))) = _
  by_cases empty : accs.erase ai = ∅
  · rw [if_pos empty, if_neg (Finset.not_nonempty_iff_eq_empty.mpr empty)]
  · rw [if_neg empty, if_pos (Finset.nonempty_iff_ne_empty.mpr empty)]

variable {f : α → β} {schedule : TimedSet α Timestamp}

section Updates

variable [DecidableEq α]

/-- Adding an account that has no release yet to a trie that holds the schedule. -/
theorem adjust_addAcc {m : Trie.TrieN Timestamp (AccountSet β)}
    (invariant : Trie.TrieN.Invariant 8 m)
    (lookups : ∀ ts, Trie.lookup ts m = (schedule.groupAt f ts).map AccountSet.mk) {addr : α}
    (absent : addr ∉ schedule.members) (ts : Timestamp) :
    ∃ next, Trie.adjust (addAccountRelease.addAcc (f addr)) ts m = .ok ((), next) ∧
      Trie.TrieN.Invariant 8 next ∧
      ∀ query, Trie.lookup query next = ((schedule.set ts addr).groupAt f query).map AccountSet.mk := by
  obtain ⟨next, adjusted, nextInvariant, nextLookup⟩ :=
    adjust_lookup invariant (addAccountRelease.addAcc (f addr)) ts
  refine ⟨next, adjusted, nextInvariant, fun query => ?_⟩
  rw [nextLookup, TimedSet.groupAt_set_of_notMem f absent]
  by_cases same : query = ts
  · rw [if_pos same, if_pos same, addAcc_eq, lookups, Option.map_map]
    simp [Function.comp_def, TimedSet.getD_groupAt, Trie.Alteration.apply]
  · rw [if_neg same, if_neg same, lookups]

theorem addAccountRelease_refines {rs : NewReleaseSchedule β} (refines : NewRefines f schedule rs)
    (ts : Timestamp) {addr : α} (absent : addr ∉ schedule.members) :
    ∃ next, addAccountRelease ts (f addr) rs = .ok next ∧
      NewRefines f (schedule.set ts addr) next := by
  obtain ⟨next, adjusted, nextInvariant, nextLookups⟩ :=
    adjust_addAcc refines.invariant refines.lookup absent ts
  refine ⟨⟨min ts rs.nrsFirstTimestamp, next⟩, ?_, nextInvariant, nextLookups, ?_⟩
  · rw [addAccountRelease, adjusted]
    rfl
  · rw [TimedSet.first_set ts fun present => absurd present absent, refines.firstTimestamp,
      min_comm]

theorem updateAccountRelease_refines (injective : Function.Injective f)
    {rs : NewReleaseSchedule β} (refines : NewRefines f schedule rs) {oldts ts : Timestamp}
    {addr : α} (present : addr ∈ schedule.members) (atOld : schedule.time addr = oldts)
    (earlier : ts ≤ oldts) :
    ∃ next, updateAccountRelease oldts ts (f addr) rs = .ok next ∧
      NewRefines f (schedule.set ts addr) next := by
  have atGroup : Trie.lookup oldts rs.nrsMap = some ⟨(schedule.membersAt oldts).image f⟩ := by
    rw [refines.lookup, TimedSet.groupAt,
      if_pos ⟨addr, TimedSet.mem_membersAt.mpr ⟨present, atOld⟩⟩]
    rfl
  -- the account leaves its old time first, as the schedule without it
  obtain ⟨rsRem, removed, remInvariant, remLookup⟩ :=
    adjust_lookup refines.invariant (updateAccountRelease.remAcc (f addr)) oldts
  have remLookups : ∀ query, Trie.lookup query rsRem =
      ((schedule.erase addr).groupAt f query).map AccountSet.mk := by
    intro query
    rw [remLookup, atGroup, remAcc_some, TimedSet.groupAt_erase injective, atOld,
      refines.lookup]
    by_cases same : query = oldts
    · rw [if_pos same, if_pos same, same]
      split_ifs <;> rfl
    · rw [if_neg same, if_neg same]
  obtain ⟨next, added, nextInvariant, nextLookups⟩ :=
    adjust_addAcc remInvariant remLookups (Finset.notMem_erase addr _) ts
  refine ⟨⟨min ts rs.nrsFirstTimestamp, next⟩, ?_, ?_⟩
  · rw [updateAccountRelease, removed, atGroup, remAcc_some]
    simp only [bind, Except.bind, added]
    rfl
  rw [TimedSet.set_eq_set_erase present]
  refine ⟨nextInvariant, nextLookups, ?_⟩
  rw [← TimedSet.set_eq_set_erase present, TimedSet.first_set ts fun _ => atOld ▸ earlier,
    refines.firstTimestamp, min_comm]

end Updates

/-- The trie loop, from a trie that holds the schedule and has at most `fuel` entries: it
releases the accounts due by `ts` and leaves a schedule that holds the rest. -/
theorem go_spec (ts : Timestamp) :
    ∀ (fuel : Nat) (accum : List β) (m : Trie.TrieN Timestamp (AccountSet β))
      (schedule : TimedSet α Timestamp), Trie.TrieN.Invariant 8 m →
      (∀ ts, Trie.lookup ts m = (schedule.groupAt f ts).map AccountSet.mk) →
      (Trie.toMap m).keys.card ≤ fuel →
      ∃ next, processReleasesUntil.go ts fuel accum m =
          .ok (accum ++ schedule.listUntil f ts, next) ∧
        NewRefines f (schedule.dropUntil ts) next
  | fuel, accum, m, schedule, invariant, lookups, bound => by
      rcases findMin_step invariant lookups with
        ⟨found, absent⟩ | ⟨minTS, accs, found, least, atMin, present⟩
      · -- nothing is scheduled
        have empty := TimedSet.members_eq_empty_of_groupAt f absent
        have droppedEmpty : (schedule.dropUntil ts).members = ∅ := by
          show schedule.members.filter _ = ∅
          rw [empty, Finset.filter_empty]
        refine ⟨⟨maxBound, m⟩, ?_, invariant, fun query => ?_, ?_⟩
        · rw [processReleasesUntil.go, found, TimedSet.listUntil_eq_nil f (by simp [empty]),
            List.append_nil]
          rfl
        · rw [lookups, TimedSet.groupAt_dropUntil, absent, ite_self]
        · exact (TimedSet.first_of_members_eq_empty droppedEmpty).symm
      by_cases later : ts < minTS
      · -- the earliest release is still to come
        have notDue : ∀ member ∈ schedule.members, ts < schedule.time member := fun _ present =>
          TimedSet.lt_time_of_isLeast least later present
        refine ⟨⟨minTS, m⟩, ?_, ?_⟩
        · rw [processReleasesUntil.go, found, TimedSet.listUntil_eq_nil f notDue, List.append_nil]
          show (if ts < minTS then _ else _) = _
          rw [if_pos later]
          rfl
        · rw [TimedSet.dropUntil_eq_self notDue]
          exact ⟨invariant, lookups, (TimedSet.first_of_isLeast least).symm⟩
      cases fuel with
      | zero =>
          have positive : 0 < (Trie.toMap m).keys.card :=
            Finset.card_pos.mpr ⟨minTS, Finmap.mem_keys.mpr present⟩
          omega
      | succ fuel =>
          obtain ⟨newMap, deleted, newInvariant, newLookup, newMapEq⟩ := delete_lookup invariant minTS
          have newLookups : ∀ query, Trie.lookup query newMap =
              ((schedule.dropUntil minTS).groupAt f query).map AccountSet.mk := by
            intro query
            rw [newLookup, TimedSet.groupAt_dropUntil_isLeast f least, lookups]
            split_ifs <;> rfl
          have newBound : (Trie.toMap newMap).keys.card ≤ fuel := by
            rw [newMapEq, FiniteMap.card_keys_erase, if_pos present]
            omega
          obtain ⟨next, ran, final⟩ := go_spec ts fuel (accum ++ accs.theAccountSet.sort (· ≤ ·))
            newMap (schedule.dropUntil minTS) newInvariant newLookups newBound
          refine ⟨next, ?_, ?_⟩
          · rw [processReleasesUntil.go, found]
            show (if ts < minTS then _ else _) = _
            rw [if_neg later]
            show (Trie.delete minTS m >>= _) = _
            rw [deleted]
            show processReleasesUntil.go ts fuel _ newMap = _
            rw [ran, TimedSet.listUntil_of_isLeast_le f least (not_lt.mp later), atMin,
              List.append_assoc]
          · rw [← TimedSet.dropUntil_dropUntil (not_lt.mp later)]
            exact final

theorem processReleasesUntil_refines {rs : NewReleaseSchedule β}
    (refines : NewRefines f schedule rs) (ts : Timestamp) :
    ∃ next, processReleasesUntil ts rs = .ok (schedule.listUntil f ts, next) ∧
      NewRefines f (schedule.dropUntil ts) next := by
  unfold processReleasesUntil
  split_ifs with early
  · -- nothing is due before the first timestamp, which is the earliest release time
    have later : ∀ member ∈ schedule.members, ts < schedule.time member := fun _ present =>
      TimedSet.lt_time_of_lt_first (refines.firstTimestamp ▸ early) present
    rw [TimedSet.listUntil_eq_nil f later, TimedSet.dropUntil_eq_self later]
    exact ⟨rs, rfl, refines⟩
  · -- the trie counts its entries, so the loop has enough of them to delete
    have bound : (Trie.toMap rs.nrsMap).keys.card ≤ (Trie.storedSize rs.nrsMap).toNat := by
      rw [refines.invariant.size, Int.toNat_natCast]
    obtain ⟨next, ran, final⟩ :=
      go_spec ts _ [] rs.nrsMap schedule refines.invariant refines.lookup bound
    rw [List.nil_append] at ran
    exact ⟨next, ran, final⟩

end NewReleaseSchedule

theorem new_simulates [LinearOrder α] {f : α → β} (injective : Function.Injective f) :
    Machine.SimulatesWhen (NewRefines f) Schedule.Admissible (Schedule.apply f)
      (fun operation rs => NewReleaseSchedule.apply (operation.map f) rs) where
  step operation schedule rs refines admissible := by
    cases operation with
    | addAccountRelease ts addr =>
        obtain ⟨next, added, nextRefines⟩ :=
          NewReleaseSchedule.addAccountRelease_refines refines ts admissible
        rw [Operation.map, NewReleaseSchedule.apply, added]
        exact ⟨rfl, nextRefines⟩
    | updateAccountRelease oldts ts addr =>
        obtain ⟨present, atOld, earlier⟩ := admissible
        obtain ⟨next, updated, nextRefines⟩ :=
          NewReleaseSchedule.updateAccountRelease_refines injective refines present atOld earlier
        rw [Operation.map, NewReleaseSchedule.apply, updated]
        exact ⟨rfl, nextRefines⟩
    | processReleasesUntil ts =>
        obtain ⟨next, processed, nextRefines⟩ :=
          NewReleaseSchedule.processReleasesUntil_refines refines ts
        rw [Operation.map, NewReleaseSchedule.apply, processed]
        exact ⟨rfl, nextRefines⟩

theorem new_empty [DecidableEq α] (f : α → β) :
    NewRefines f (TimedSet.empty : TimedSet α Timestamp) emptyReleaseSchedule.rsP1 where
  invariant := Trie.emptyTrieN_invariant
  lookup ts := by rw [TimedSet.groupAt_empty]; rfl
  firstTimestamp := (TimedSet.first_of_members_eq_empty rfl).symm

/-! ## Both schedules -/

/-- Two answers agree up to the order of the accounts released at one time, read through `f`:
the same kind of answer, the same error, or the same accounts in some order. -/
def Response.Agree (f : α → β) : Response α → Response β → Prop
  | .updated, .updated => True
  | .released accounts, .released accounts' => (accounts.map f).Perm accounts'
  | .failed message, .failed message' => message = message'
  | _, _ => False

variable [LinearOrder α]

/-- The schedule answers alike under two references, up to the order at one time. -/
theorem answer_agree {f : α → β} (injective : Function.Injective f) (operation : Operation α)
    (schedule : TimedSet α Timestamp) :
    Response.Agree f (Schedule.apply id operation schedule).1
      (Schedule.apply f operation schedule).1 := by
  cases operation with
  | addAccountRelease => trivial
  | updateAccountRelease => trivial
  | processReleasesUntil ts => exact TimedSet.listUntil_map_perm id injective ts

/-- The legacy schedule along an admissible run. -/
theorem legacy_run (operations : List (Operation α))
    (admissible :
      Machine.AdmissibleRun Schedule.step Schedule.Admissible operations TimedSet.empty) :
    (Machine.run LegacyReleaseSchedule.apply operations emptyReleaseSchedule.rsP0).1 =
        (Machine.run (Schedule.apply id) operations TimedSet.empty).1 ∧
      LegacyRefines (Machine.run (Schedule.apply id) operations TimedSet.empty).2
        (Machine.run LegacyReleaseSchedule.apply operations emptyReleaseSchedule.rsP0).2 :=
  legacy_simulates.run operations TimedSet.empty emptyReleaseSchedule.rsP0 legacy_empty admissible

/-- The trie schedule along an admissible run, fed the accounts' indices. -/
theorem new_run {f : α → β} (injective : Function.Injective f) (operations : List (Operation α))
    (admissible :
      Machine.AdmissibleRun Schedule.step Schedule.Admissible operations TimedSet.empty) :
    (Machine.run NewReleaseSchedule.apply (operations.map (Operation.map f))
        emptyReleaseSchedule.rsP1).1 = (Machine.run (Schedule.apply f) operations TimedSet.empty).1 ∧
      NewRefines f (Machine.run (Schedule.apply id) operations TimedSet.empty).2
        (Machine.run NewReleaseSchedule.apply (operations.map (Operation.map f))
          emptyReleaseSchedule.rsP1).2 := by
  obtain ⟨outputs, refines⟩ := (new_simulates injective).run operations TimedSet.empty
    emptyReleaseSchedule.rsP1 (new_empty f) admissible
  -- the schedule moves alike under both references
  have sameSchedule : (Machine.run (Schedule.apply f) operations TimedSet.empty).2 =
      (Machine.run (Schedule.apply id) operations TimedSet.empty).2 :=
    Machine.run_snd_congr (Schedule.apply f) (Schedule.apply id) (fun _ _ => rfl) operations
      TimedSet.empty
  rw [sameSchedule] at refines
  rw [Machine.run_map]
  exact ⟨outputs, refines⟩

theorem release_schedules_implement_schedule (f : α → β) (injective : Function.Injective f)
    (operations : List (Operation α))
    (admissible :
      Machine.AdmissibleRun Schedule.step Schedule.Admissible operations TimedSet.empty) :
    let schedule := Machine.run (Schedule.apply id) operations TimedSet.empty
    let legacy := Machine.run LegacyReleaseSchedule.apply operations emptyReleaseSchedule.rsP0
    let new := Machine.run NewReleaseSchedule.apply (operations.map (Operation.map f))
      emptyReleaseSchedule.rsP1
    legacy.1 = schedule.1 ∧ LegacyRefines schedule.2 legacy.2 ∧
      new.1 = (Machine.run (Schedule.apply f) operations TimedSet.empty).1 ∧
      NewRefines f schedule.2 new.2 ∧ List.Forall₂ (Response.Agree f) legacy.1 new.1 := by
  intro schedule legacy new
  obtain ⟨legacyOutputs, legacyRefines⟩ := legacy_run operations admissible
  obtain ⟨newOutputs, newRefines⟩ := new_run injective operations admissible
  refine ⟨legacyOutputs, legacyRefines, newOutputs, newRefines, ?_⟩
  show List.Forall₂ _ legacy.1 new.1
  rw [legacyOutputs, newOutputs]
  exact Machine.forall₂_run_outputs (Schedule.apply id) (Schedule.apply f) (fun _ _ => rfl)
    (answer_agree injective) operations TimedSet.empty

theorem release_schedules_implement_schedule_on_ties :
    let operations : List (Operation Bool) :=
      [.addAccountRelease ⟨5⟩ false, .addAccountRelease ⟨5⟩ true, .processReleasesUntil ⟨5⟩]
    Function.Injective not ∧
      Machine.AdmissibleRun Schedule.step Schedule.Admissible operations TimedSet.empty ∧
      let schedule := Machine.run (Schedule.apply id) operations TimedSet.empty
      let legacy := Machine.run LegacyReleaseSchedule.apply operations emptyReleaseSchedule.rsP0
      let new := Machine.run NewReleaseSchedule.apply (operations.map (Operation.map not))
        emptyReleaseSchedule.rsP1
      legacy.1 = schedule.1 ∧ LegacyRefines schedule.2 legacy.2 ∧
        new.1 = (Machine.run (Schedule.apply not) operations TimedSet.empty).1 ∧
        NewRefines not schedule.2 new.2 ∧ List.Forall₂ (Response.Agree not) legacy.1 new.1 :=
  have admissible : Machine.AdmissibleRun Schedule.step Schedule.Admissible
      [.addAccountRelease ⟨5⟩ false, .addAccountRelease ⟨5⟩ true, .processReleasesUntil ⟨5⟩]
      TimedSet.empty :=
    ⟨by decide, by decide, trivial, trivial⟩
  ⟨by decide, admissible, release_schedules_implement_schedule not (by decide) _ admissible⟩

theorem release_schedules_order_ties_apart :
    let operations : List (Operation Bool) :=
      [.addAccountRelease ⟨5⟩ false, .addAccountRelease ⟨5⟩ true, .processReleasesUntil ⟨5⟩]
    (Machine.run LegacyReleaseSchedule.apply operations emptyReleaseSchedule.rsP0).1.map
        (Response.map not) ≠
      (Machine.run NewReleaseSchedule.apply (operations.map (Operation.map not))
        emptyReleaseSchedule.rsP1).1 := by
  intro operations
  have admissible :
      Machine.AdmissibleRun Schedule.step Schedule.Admissible operations TimedSet.empty :=
    ⟨by decide, by decide, trivial, trivial⟩
  rw [(legacy_run operations admissible).1, (new_run (by decide) operations admissible).1]
  -- both accounts are due at the one release time, and each schedule lists them by its own key
  let schedule : TimedSet Bool Timestamp :=
    ((TimedSet.empty : TimedSet Bool Timestamp).set ⟨5⟩ false).set ⟨5⟩ true
  have times : (schedule.times.filter fun due => due ≤ ⟨5⟩) = {⟨5⟩} := by decide
  have members : schedule.membersAt ⟨5⟩ = {false, true} := by decide
  have sorted : ({false, true} : Finset Bool).sort (· ≤ ·) = [false, true] := by
    rw [Finset.sort_insert _ (by decide) (by decide), Finset.sort_singleton]
  have byAddress : schedule.listUntil id ⟨5⟩ = [false, true] := by
    rw [TimedSet.listUntil, times, Finset.sort_singleton, List.flatMap_singleton, members,
      Finset.image_id, sorted]
  have byIndex : schedule.listUntil not ⟨5⟩ = [false, true] := by
    rw [TimedSet.listUntil, times, Finset.sort_singleton, List.flatMap_singleton, members,
      show ({false, true} : Finset Bool).image not = {false, true} by decide, sorted]
  show [Response.updated, .updated, .released (schedule.listUntil id ⟨5⟩)].map (Response.map not) ≠
    [.updated, .updated, .released (schedule.listUntil not ⟨5⟩)]
  rw [byAddress, byIndex]
  decide

end Concordium.GlobalState.Persistent.ReleaseSchedule
