import Concordium.GlobalState.Basic.BlockState.AccountReleaseScheduleV1

/-!
Contract: what a release schedule of `Concordium.GlobalState.Basic.BlockState.AccountReleaseScheduleV1`
keeps over any run of `addReleases` and `unlockAmountsUntil` from the empty schedule, and what one
unlocking does to the releases it holds.

Owns:
- `entryReleases` and `scheduleReleases`, the releases an entry and a schedule hold, and `Lapsed`,
  a release due by a time;
- `unlockEntryUntil_eq`: on releases in ascending order of time, one entry's unlocking is the
  sum of its due releases and the entry of the others (`remainderEntry`);
- `ScheduleInvariant`: the total locked amount is `sumOfReleases`, the entries are ordered by
  `rseSortKey`, each entry's hash is that of its releases and its releases are in ascending
  order of time; kept by both operations (`ScheduleInvariant.of_addReleases`,
  `ScheduleInvariant.of_unlockAmountsUntil`, `ScheduleInvariant.of_applySchedule`);
- `unlockAmountsUntil_amount` and `unlockAmountsUntil_remaining`: an unlocking releases exactly
  the amounts due and keeps exactly the releases not due;
- the ledger of a run, `lockedReleases`: the releases given to `addReleases` and not yet due at an
  unlocking; every admissible run keeps the schedule's releases a permutation of it
  (`ledger_of_run`), so that what an unlocking releases is what the ledger says is due.

Does not own: the operations themselves, or the schedule's hash.
-/

set_option autoImplicit false

namespace Concordium.GlobalState.Basic.BlockState.AccountReleaseScheduleV1

open SortedKey (Sorted)

variable (hash : List UInt8 → Nat)

/-! ## The releases of an entry -/

/-- The releases of an entry, in the order it holds them. -/
def entryReleases (entry : ReleaseScheduleEntry) : List (Nat × Nat) :=
  entry.rseReleases.relReleases.toList

/-- The releases of all entries of a schedule. -/
def scheduleReleases (schedule : AccountReleaseSchedule) : List (Nat × Nat) :=
  schedule.arsReleases.flatMap entryReleases

/-- A release due by `ts`. -/
def Lapsed (ts : Nat) (release : Nat × Nat) : Bool :=
  !decide (ts < release.1)

theorem lapsed_closed (ts : Nat) (first second : Nat × Nat) (earlier : first.1 ≤ second.1)
    (due : Lapsed ts second = true) : Lapsed ts first = true := by
  simp only [Lapsed, Bool.not_eq_eq_eq_not, Bool.not_true, decide_eq_false_iff_not,
    not_lt] at due ⊢
  exact le_trans earlier due

/-- The entry of the releases that remain, as `unlockEntryUntil` builds it: none if none
remain. -/
def remainderEntry (entry : ReleaseScheduleEntry) : List (Nat × Nat) → Option ReleaseScheduleEntry
  | [] => none
  | h :: t => some { entry with rseReleases := ⟨⟨h, t⟩⟩, rseReleasesHash := hashReleases hash ⟨⟨h, t⟩⟩ }

theorem entryReleases_remainderEntry (entry : ReleaseScheduleEntry) :
    ∀ (remain : List (Nat × Nat)),
      ((remainderEntry hash entry remain).map entryReleases).getD [] = remain
  | [] => rfl
  | _ :: _ => rfl

theorem remainderEntry_hashed {entry remainder : ReleaseScheduleEntry} :
    ∀ {remain : List (Nat × Nat)}, remainderEntry hash entry remain = some remainder →
      remainder.rseReleasesHash = hashReleases hash remainder.rseReleases
  | [], found => by cases found
  | _ :: _, found => by
      cases found
      rfl

/-- On releases in ascending order of time, unlocking an entry up to `ts` releases the amounts of
its due releases and keeps the entry of the others. -/
theorem unlockEntryUntil_eq (ts : Nat) (entry : ReleaseScheduleEntry)
    (ascending : Sorted Prod.fst (entryReleases entry)) :
    unlockEntryUntil hash ts entry =
      ((((entryReleases entry).filter (Lapsed ts)).map Prod.snd).sum,
        remainderEntry hash entry ((entryReleases entry).filter fun release => !Lapsed ts release)) := by
  have taken := SortedKey.takeWhile_eq_filter (Lapsed ts) (lapsed_closed ts) ascending
  have dropped := SortedKey.dropWhile_eq_filter (Lapsed ts) (lapsed_closed ts) ascending
  unfold unlockEntryUntil
  rw [List.span_eq_takeWhile_dropWhile]
  change (_, _) = _
  rw [show (fun release : Nat × Nat => !decide (ts < release.1)) = Lapsed ts from rfl]
  rw [entryReleases] at taken dropped
  rw [taken, dropped]
  -- the remaining releases are matched on exactly as `remainderEntry` does
  congr 1

/-- The amounts of the releases of several entries, added entry by entry. -/
theorem sum_snd_flatMap {α : Type} (releases : α → List (Nat × Nat)) :
    ∀ items : List α, ((items.flatMap releases).map Prod.snd).sum =
      (items.map fun item => ((releases item).map Prod.snd).sum).sum
  | [] => rfl
  | item :: rest => by
      rw [List.flatMap_cons, List.map_append, List.sum_append, sum_snd_flatMap releases rest,
        List.map_cons, List.sum_cons]

theorem sumOfReleases_eq (schedule : AccountReleaseSchedule) :
    sumOfReleases schedule = ((scheduleReleases schedule).map Prod.snd).sum := by
  rw [sumOfReleases, scheduleReleases, sum_snd_flatMap]
  rfl

/-- Splitting releases into those due and those not due splits their amounts. -/
theorem sum_snd_lapsed_add (ts : Nat) (releases : List (Nat × Nat)) :
    ((releases.filter (Lapsed ts)).map Prod.snd).sum +
        ((releases.filter fun release => !Lapsed ts release).map Prod.snd).sum =
      (releases.map Prod.snd).sum := by
  rw [← List.sum_append, ← List.map_append]
  exact ((List.filter_append_perm (Lapsed ts) releases).map Prod.snd).sum_eq

/-- The entries that remain of several, as their releases: what `filterMap` keeps and the
releases of each. -/
theorem flatMap_filterMap {α : Type} (remainder : α → Option ReleaseScheduleEntry) :
    ∀ items : List α, (items.filterMap remainder).flatMap entryReleases =
      items.flatMap fun item => ((remainder item).map entryReleases).getD []
  | [] => rfl
  | item :: rest => by
      rw [List.filterMap_cons, List.flatMap_cons, ← flatMap_filterMap remainder rest]
      cases remainder item <;> rfl

/-! ## The invariant -/

/-- What every schedule a run reaches satisfies. -/
structure ScheduleInvariant (schedule : AccountReleaseSchedule) : Prop where
  total : schedule.arsTotalLockedAmount = sumOfReleases schedule
  sorted : Sorted rseSortKey schedule.arsReleases
  hashed : ∀ entry ∈ schedule.arsReleases,
    entry.rseReleasesHash = hashReleases hash entry.rseReleases
  ascending : ∀ entry ∈ schedule.arsReleases, Sorted Prod.fst (entryReleases entry)

theorem ScheduleInvariant.empty : ScheduleInvariant hash emptyAccountReleaseSchedule where
  total := rfl
  sorted := SortedKey.sorted_nil
  hashed := fun _ listed => absurd listed List.not_mem_nil
  ascending := fun _ listed => absurd listed List.not_mem_nil

/-- What the caller of `addReleases` promises: the releases are not empty and in ascending order
of time. -/
def Admissible : AccountReleaseSchedule → Operation → Prop
  | _, .addReleases releases _ => releases ≠ [] ∧ Sorted Prod.fst releases
  | _, .unlockAmountsUntil _ => True

theorem ScheduleInvariant.of_addReleases {schedule : AccountReleaseSchedule}
    (invariant : ScheduleInvariant hash schedule) {head : Nat × Nat} {tail : List (Nat × Nat)}
    (transactionHash : Nat) (ascending : Sorted Prod.fst (head :: tail)) :
    ScheduleInvariant hash
      ⟨insertEntry ⟨⟨⟨head, tail⟩⟩, hashReleases hash ⟨⟨head, tail⟩⟩, transactionHash⟩
        schedule.arsReleases,
        schedule.arsTotalLockedAmount + ((head :: tail).map Prod.snd).sum⟩ := by
  have perm := insertEntry_perm ⟨⟨⟨head, tail⟩⟩, hashReleases hash ⟨⟨head, tail⟩⟩, transactionHash⟩
    schedule.arsReleases
  refine ⟨?_, insertEntry_sorted _ invariant.sorted, ?_, ?_⟩
  · -- the new entry's amounts join the sum of the others
    rw [invariant.total, sumOfReleases, sumOfReleases, (perm.map _).sum_eq, List.map_cons,
      List.sum_cons, Nat.add_comm]
    rfl
  · intro entry listed
    rcases List.mem_cons.mp (perm.subset listed) with rfl | old
    · rfl
    · exact invariant.hashed entry old
  · intro entry listed
    rcases List.mem_cons.mp (perm.subset listed) with rfl | old
    · exact ascending
    · exact invariant.ascending entry old

/-! ## One unlocking -/

/-- The earliest release of an entry in ascending order is its first. -/
theorem rseNextTimestamp_le {entry : ReleaseScheduleEntry}
    (ascending : Sorted Prod.fst (entryReleases entry)) {release : Nat × Nat}
    (listed : release ∈ entryReleases entry) : rseNextTimestamp entry ≤ release.1 := by
  rcases List.mem_cons.mp listed with rfl | later
  · exact le_refl _
  · exact (List.pairwise_cons.mp ascending).1 release later

/-- An entry not yet due holds no release due. -/
theorem lapsed_eq_false {ts : Nat} {entry : ReleaseScheduleEntry}
    (ascending : Sorted Prod.fst (entryReleases entry)) (notDue : Elapsed ts entry = false)
    {release : Nat × Nat} (listed : release ∈ entryReleases entry) : Lapsed ts release = false := by
  have later : ts < rseNextTimestamp entry := by simpa [Elapsed] using notDue
  have notBefore := rseNextTimestamp_le ascending listed
  simp only [Lapsed, Bool.not_eq_false', decide_eq_true_eq]
  omega

/-- What remains of an entry is its releases not yet due. -/
theorem remainder_releases (ts : Nat) (entry : ReleaseScheduleEntry)
    (ascending : Sorted Prod.fst (entryReleases entry)) :
    (((unlockEntryUntil hash ts entry).2).map entryReleases).getD [] =
      (entryReleases entry).filter fun release => !Lapsed ts release := by
  rw [unlockEntryUntil_eq hash ts entry ascending, entryReleases_remainderEntry]

/-- A view of each entry that is empty on the entries not yet due collects, over all entries,
only the due entries' views. -/
theorem flatMap_perm_elapsed {β : Type} (ts : Nat) (entries : List ReleaseScheduleEntry)
    (view : ReleaseScheduleEntry → List β)
    (empty : ∀ entry ∈ entries, Elapsed ts entry = false → view entry = []) :
    (entries.flatMap view).Perm ((entries.filter (Elapsed ts)).flatMap view) := by
  have split := (List.filter_append_perm (Elapsed ts) entries).flatMap_right view
  rw [List.flatMap_append] at split
  have noStatic : (entries.filter fun entry => !Elapsed ts entry).flatMap view = [] := by
    rw [List.flatMap_eq_nil_iff]
    intro entry listed
    rw [List.mem_filter, Bool.not_eq_true'] at listed
    exact empty entry listed.1 listed.2
  rw [noStatic, List.append_nil] at split
  exact split.symm

section Unlock

variable {hash} {schedule : AccountReleaseSchedule} (invariant : ScheduleInvariant hash schedule)
  (ts : Nat)

include invariant

/-- The amount an unlocking releases is the sum of the releases due. -/
theorem unlockAmountsUntil_amount :
    (unlockAmountsUntil hash ts schedule).1 =
      (((scheduleReleases schedule).filter (Lapsed ts)).map Prod.snd).sum := by
  have due : ∀ entry ∈ schedule.arsReleases, Elapsed ts entry = false →
      (entryReleases entry).filter (Lapsed ts) = [] := fun entry listed notDue =>
    List.filter_eq_nil_iff.mpr fun release inEntry => by
      rw [lapsed_eq_false (invariant.ascending entry listed) notDue inEntry]
      decide
  rw [(unlockAmountsUntil_spec hash ts schedule invariant.sorted).1, scheduleReleases,
    List.filter_flatMap, ((flatMap_perm_elapsed ts schedule.arsReleases _ due).map Prod.snd).sum_eq,
    sum_snd_flatMap]
  apply congrArg List.sum
  apply List.map_congr_left
  intro entry listed
  rw [unlockEntryUntil_eq hash ts entry
    (invariant.ascending entry (List.mem_filter.mp listed).1)]

/-- An unlocking keeps exactly the releases not yet due. -/
theorem unlockAmountsUntil_remaining :
    (scheduleReleases (unlockAmountsUntil hash ts schedule).2.2).Perm
      ((scheduleReleases schedule).filter fun release => !Lapsed ts release) := by
  obtain ⟨-, -, -, perm⟩ := unlockAmountsUntil_spec hash ts schedule invariant.sorted
  have kept : ∀ entry ∈ schedule.arsReleases, Elapsed ts entry = false →
      (entryReleases entry).filter (fun release => !Lapsed ts release) = entryReleases entry :=
    fun entry listed notDue => List.filter_eq_self.mpr fun release inEntry => by
      rw [lapsed_eq_false (invariant.ascending entry listed) notDue inEntry]
      rfl
  -- the entries not due keep all their releases, the due ones what `remainder_releases` says
  have staticSame : (schedule.arsReleases.filter fun entry => !Elapsed ts entry).flatMap
      entryReleases = (schedule.arsReleases.filter fun entry => !Elapsed ts entry).flatMap
        fun entry => (entryReleases entry).filter fun release => !Lapsed ts release := by
    apply List.flatMap_congr
    intro entry listed
    rw [List.mem_filter, Bool.not_eq_true'] at listed
    exact (kept entry listed.1 listed.2).symm
  have dueSame : ((schedule.arsReleases.filter (Elapsed ts)).filterMap fun entry =>
      (unlockEntryUntil hash ts entry).2).flatMap entryReleases =
        (schedule.arsReleases.filter (Elapsed ts)).flatMap
          fun entry => (entryReleases entry).filter fun release => !Lapsed ts release := by
    rw [flatMap_filterMap]
    apply List.flatMap_congr
    intro entry listed
    exact remainder_releases hash ts entry (invariant.ascending entry (List.mem_filter.mp listed).1)
  have whole := (List.filter_append_perm (fun entry => !Elapsed ts entry)
    schedule.arsReleases).flatMap_right fun entry =>
      (entryReleases entry).filter fun release => !Lapsed ts release
  simp only [Bool.not_not] at whole
  rw [List.flatMap_append] at whole
  have reassembled := perm.flatMap_right entryReleases
  rw [List.flatMap_append, staticSame, dueSame] at reassembled
  rw [scheduleReleases, scheduleReleases, List.filter_flatMap]
  exact reassembled.trans whole

end Unlock

/-- In a schedule whose entries are in order and hold their releases in order, the first entry's
time is the earliest release time. -/
theorem head_nextTimestamp_eq_min (schedule : AccountReleaseSchedule)
    (sorted : Sorted rseSortKey schedule.arsReleases)
    (ascending : ∀ entry ∈ schedule.arsReleases, Sorted Prod.fst (entryReleases entry)) :
    schedule.arsReleases.head?.map rseNextTimestamp =
      ((scheduleReleases schedule).map Prod.fst).min? := by
  rw [scheduleReleases]
  cases entries : schedule.arsReleases with
  | nil => rfl
  | cons first rest =>
      rw [entries] at sorted ascending
      symm
      rw [List.head?_cons, Option.map_some, List.min?_eq_some_iff]
      constructor
      · -- the first entry's first release is listed
        exact List.mem_map.mpr ⟨first.rseReleases.relReleases.head,
          List.mem_flatMap.mpr ⟨first, List.mem_cons_self, List.mem_cons_self⟩, rfl⟩
      · intro time listed
        obtain ⟨release, inSchedule, rfl⟩ := List.mem_map.mp listed
        obtain ⟨entry, entryListed, inEntry⟩ := List.mem_flatMap.mp inSchedule
        have entryLater : rseNextTimestamp first ≤ rseNextTimestamp entry := by
          rcases List.mem_cons.mp entryListed with rfl | later
          · exact le_refl _
          · exact (Prod.Lex.toLex_le_toLex'.mp ((List.pairwise_cons.mp sorted).1 entry later)).1
        exact le_trans entryLater (rseNextTimestamp_le (ascending entry entryListed) inEntry)

section Unlock

variable {hash} {schedule : AccountReleaseSchedule} (invariant : ScheduleInvariant hash schedule)
  (ts : Nat)

include invariant

theorem ScheduleInvariant.of_unlockAmountsUntil :
    ScheduleInvariant hash (unlockAmountsUntil hash ts schedule).2.2 := by
  obtain ⟨-, -, sorted, perm⟩ := unlockAmountsUntil_spec hash ts schedule invariant.sorted
  -- an entry of the result is an entry not due, or what remains of a due one
  have origin : ∀ entry ∈ (unlockAmountsUntil hash ts schedule).2.2.arsReleases,
      entry ∈ schedule.arsReleases ∨ ∃ old ∈ schedule.arsReleases,
        (unlockEntryUntil hash ts old).2 = some entry := by
    intro entry listed
    rcases List.mem_append.mp (perm.subset listed) with static | remainder
    · exact Or.inl (List.mem_filter.mp static).1
    · obtain ⟨old, due, found⟩ := List.mem_filterMap.mp remainder
      exact Or.inr ⟨old, (List.mem_filter.mp due).1, found⟩
  refine ⟨?_, sorted, fun entry listed => ?_, fun entry listed => ?_⟩
  · -- what is released leaves the total, and what is kept is the rest
    have split := sum_snd_lapsed_add ts (scheduleReleases schedule)
    rw [← unlockAmountsUntil_amount invariant ts, ← sumOfReleases_eq, ← invariant.total,
      ← (unlockAmountsUntil_remaining invariant ts |>.map Prod.snd).sum_eq,
      ← sumOfReleases_eq] at split
    show schedule.arsTotalLockedAmount - (unlockAmountsUntil hash ts schedule).1 = _
    omega
  · rcases origin entry listed with old | ⟨old, oldListed, found⟩
    · exact invariant.hashed entry old
    · rw [unlockEntryUntil_eq hash ts old (invariant.ascending old oldListed)] at found
      exact remainderEntry_hashed hash found
  · rcases origin entry listed with old | ⟨old, oldListed, found⟩
    · exact invariant.ascending entry old
    · have remains := remainder_releases hash ts old (invariant.ascending old oldListed)
      rw [found, Option.map_some, Option.getD_some] at remains
      rw [remains]
      exact (invariant.ascending old oldListed).sublist List.filter_sublist

end Unlock

/-! ## Runs -/

/-- One operation keeps the invariant where its caller's promise holds. -/
theorem ScheduleInvariant.of_applySchedule {schedule : AccountReleaseSchedule}
    (invariant : ScheduleInvariant hash schedule) {operation : Operation}
    (admissible : Admissible schedule operation) :
    ScheduleInvariant hash (applySchedule hash operation schedule).2 := by
  cases operation with
  | addReleases releases transactionHash =>
      obtain ⟨nonEmpty, ascending⟩ := admissible
      cases releases with
      | nil => exact absurd rfl nonEmpty
      | cons head tail => exact invariant.of_addReleases hash transactionHash ascending
  | unlockAmountsUntil ts => exact invariant.of_unlockAmountsUntil ts

theorem lapsed_eq (ts : Nat) : Lapsed ts = fun release => decide (release.1 ≤ ts) := by
  funext release
  rw [Lapsed, ← decide_not]
  simp only [Nat.not_lt]

theorem not_lapsed_eq (ts : Nat) :
    (fun release => !Lapsed ts release) = fun release => decide (ts < release.1) := by
  funext release
  simp only [Lapsed, Bool.not_not]

/-! ## The ledger of a run -/

/-- The releases locked after one more operation, as the operation describes them: an insertion
adds the releases it is given, an unlocking up to `ts` takes off those due by `ts`. -/
def ledgerStep (locked : List (Nat × Nat)) : Operation → List (Nat × Nat)
  | .addReleases releases _ => locked ++ releases
  | .unlockAmountsUntil ts => locked.filter fun release => decide (ts < release.1)

/-- The releases a run of operations leaves locked, from none. -/
def lockedReleases (operations : List Operation) : List (Nat × Nat) :=
  operations.foldl ledgerStep []

theorem ledgerStep_perm {locked locked' : List (Nat × Nat)} (same : locked.Perm locked')
    (operation : Operation) : (ledgerStep locked operation).Perm (ledgerStep locked' operation) := by
  cases operation with
  | addReleases releases _ => exact same.append_right releases
  | unlockAmountsUntil ts => exact same.filter _

/-- One admissible operation moves the releases a schedule holds as the ledger moves them. -/
theorem scheduleReleases_applySchedule {schedule : AccountReleaseSchedule}
    (invariant : ScheduleInvariant hash schedule) {operation : Operation}
    (admissible : Admissible schedule operation) :
    (scheduleReleases (applySchedule hash operation schedule).2).Perm
      (ledgerStep (scheduleReleases schedule) operation) := by
  cases operation with
  | addReleases releases transactionHash =>
      obtain ⟨nonEmpty, -⟩ := admissible
      cases releases with
      | nil => exact absurd rfl nonEmpty
      | cons head tail =>
          -- the entry of the new releases joins the others
          let entry : ReleaseScheduleEntry :=
            ⟨⟨⟨head, tail⟩⟩, hashReleases hash ⟨⟨head, tail⟩⟩, transactionHash⟩
          have inserted := (insertEntry_perm entry schedule.arsReleases).flatMap_right entryReleases
          rw [List.flatMap_cons] at inserted
          show ((insertEntry entry schedule.arsReleases).flatMap entryReleases).Perm
            (scheduleReleases schedule ++ head :: tail)
          exact inserted.trans List.perm_append_comm
  | unlockAmountsUntil ts =>
      rw [ledgerStep, ← not_lapsed_eq]
      exact unlockAmountsUntil_remaining invariant ts

/-- The run lemma: along an admissible run, the invariant holds and the schedule holds exactly
the releases of the ledger. -/
theorem ledger_of_run :
    ∀ (operations : List Operation) (schedule : AccountReleaseSchedule) (locked : List (Nat × Nat)),
      ScheduleInvariant hash schedule → (scheduleReleases schedule).Perm locked →
      Machine.AdmissibleRun (fun operation schedule => (applySchedule hash operation schedule).2)
        Admissible operations schedule →
      ScheduleInvariant hash (operations.foldl
          (fun schedule operation => (applySchedule hash operation schedule).2) schedule) ∧
        (scheduleReleases (operations.foldl
          (fun schedule operation => (applySchedule hash operation schedule).2) schedule)).Perm
          (operations.foldl ledgerStep locked)
  | [], _, _, invariant, held, _ => ⟨invariant, held⟩
  | _ :: rest, _, _, invariant, held, ⟨admissible, later⟩ =>
      ledger_of_run rest _ _ (invariant.of_applySchedule hash admissible)
        ((scheduleReleases_applySchedule hash invariant admissible).trans
          (ledgerStep_perm held _)) later

/-- From the empty schedule, any run of `addReleases` on non-empty releases in ascending order of
time and of `unlockAmountsUntil` leaves the schedule holding exactly the releases given to
`addReleases` and not yet unlocked, its total locked amount their sum and `sumOfReleases`, the
entries in order and each entry's hash that of its releases; and unlocking up to `ts` then
releases exactly the amounts of those releases due by `ts`, keeps exactly those after `ts`, and
names the earliest time left. -/
theorem release_schedule_conserves_locked_amounts (operations : List Operation)
    (admissible : Machine.AdmissibleRun
      (fun operation schedule => (applySchedule hash operation schedule).2) Admissible operations
      emptyAccountReleaseSchedule) :
    let schedule := operations.foldl
      (fun schedule operation => (applySchedule hash operation schedule).2)
      emptyAccountReleaseSchedule
    (scheduleReleases schedule).Perm (lockedReleases operations) ∧
      schedule.arsTotalLockedAmount = ((lockedReleases operations).map Prod.snd).sum ∧
      schedule.arsTotalLockedAmount = sumOfReleases schedule ∧
      Sorted rseSortKey schedule.arsReleases ∧
      (∀ entry ∈ schedule.arsReleases,
        entry.rseReleasesHash = hashReleases hash entry.rseReleases) ∧
      ∀ ts, (unlockAmountsUntil hash ts schedule).1 =
          (((lockedReleases operations).filter fun release => decide (release.1 ≤ ts)).map
            Prod.snd).sum ∧
        (scheduleReleases (unlockAmountsUntil hash ts schedule).2.2).Perm
          ((lockedReleases operations).filter fun release => decide (ts < release.1)) ∧
        (unlockAmountsUntil hash ts schedule).2.1 =
          ((scheduleReleases (unlockAmountsUntil hash ts schedule).2.2).map Prod.fst).min? := by
  intro schedule
  obtain ⟨invariant, held⟩ := ledger_of_run hash operations emptyAccountReleaseSchedule []
    (ScheduleInvariant.empty hash) (List.Perm.refl _) admissible
  refine ⟨held, ?_, invariant.total, invariant.sorted, invariant.hashed, fun ts => ⟨?_, ?_, ?_⟩⟩
  · rw [invariant.total, sumOfReleases_eq]
    exact (held.map Prod.snd).sum_eq
  · rw [unlockAmountsUntil_amount invariant ts, lapsed_eq]
    exact ((held.filter _).map Prod.snd).sum_eq
  · rw [← not_lapsed_eq]
    exact (unlockAmountsUntil_remaining invariant ts).trans (held.filter _)
  · have after := invariant.of_unlockAmountsUntil ts
    rw [(unlockAmountsUntil_spec hash ts schedule invariant.sorted).2.1]
    exact head_nextTimestamp_eq_min _ after.sorted after.ascending

/-- A transfer of `10` at time `1` and `5` at time `2`, then an unlocking up to time `1`. -/
def transferThenUnlock : List Operation :=
  [.addReleases [(1, 10), (2, 5)] 0, .unlockAmountsUntil 1]

/-- After the transfer and the unlocking, the schedule holds the release of `5` at time `2`. -/
theorem release_schedule_conserves_locked_amounts_after_one_transfer :
    (scheduleReleases (transferThenUnlock.foldl
        (fun schedule operation => (applySchedule (fun _ => 0) operation schedule).2)
        emptyAccountReleaseSchedule)).Perm (lockedReleases transferThenUnlock) ∧
      lockedReleases transferThenUnlock = [(2, 5)] := by
  have admissible : Machine.AdmissibleRun
      (fun operation schedule => (applySchedule (fun _ => 0) operation schedule).2) Admissible
      transferThenUnlock emptyAccountReleaseSchedule :=
    ⟨⟨List.cons_ne_nil _ _, by unfold SortedKey.Sorted; decide⟩, trivial, trivial⟩
  exact ⟨(release_schedule_conserves_locked_amounts (fun _ => 0) transferThenUnlock
    admissible).1, rfl⟩

end Concordium.GlobalState.Basic.BlockState.AccountReleaseScheduleV1
