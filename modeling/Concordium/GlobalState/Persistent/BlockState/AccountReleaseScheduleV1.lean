import Concordium.GlobalState.Basic.BlockState.AccountReleaseScheduleV1

/-!
Contract: the persistent account release schedule of
`Concordium.GlobalState.Persistent.BlockState.AccountReleaseScheduleV1`, with references taken
as the values they refer to, answers every sequence of operations as the basic schedule of
`Concordium.GlobalState.Basic.BlockState.AccountReleaseScheduleV1` does.

Owns:
- `Releases`, `hashReleasesFrom`, `ReleaseScheduleEntry`, `rseSortKey`,
  `AccountReleaseSchedule`, `getHash`, `emptyAccountReleaseSchedule`, `insertEntry`,
  `addReleases`, `unlockAmountsUntil` with `updateEntry`, `insert`, `go` and `mergeOrdered`,
  and `getAccountReleaseSchedule`, as the source computes them when `refMake` and `refLoad`
  are `pure`;
- `PendingReleases`, what an entry of either schedule stands for: the releases still pending,
  their hash and the transaction's hash, with `PendingReleases.unlock`, what unlocking up to a
  time does to them, and the two views `basicView` and `view` that read it off an entry;
- `EntryInvariant`, that a persistent entry's next timestamp and hash are those of the release
  its index points at; `Refines`, the relation between the two schedules: both in order, the
  persistent entries invariant, and the same pending releases on both sides up to order;
- that both operations keep `Refines` and answer alike, and the run lemma
  `persistent_release_schedule_refines_basic`.

Where the source calls `error` the model returns `none`. The transient schedule's names are
opened with the prefix `transient`, as the source imports that module qualified.

Does not own: the blob store, `migrateAccountReleaseSchedule`,
`migrateAccountReleaseScheduleFromV0`, `makePersistentAccountReleaseSchedule`,
`toAccountReleaseSummary`, `nextReleaseTimestamp` and `isEmptyAccountReleaseSchedule`.
-/

set_option autoImplicit false

namespace Concordium.GlobalState.Persistent.BlockState.AccountReleaseScheduleV1

open SortedKey (Sorted)
open Concordium.GlobalState.Basic.BlockState.AccountReleaseScheduleV1 (NonEmpty Operation
  Response serRel putHash hashReleases unlockEntryUntil consAccountReleaseScheduleHashV1
  emptyAccountReleaseScheduleHashV1)
open Concordium.GlobalState.Basic.BlockState.AccountReleaseScheduleV1 renaming
  ReleaseScheduleEntry → TransientEntry, AccountReleaseSchedule → TransientSchedule,
  rseSortKey → transientSortKey, rseNextTimestamp → transientNextTimestamp

/-- Releases that belong to a single entry, in ascending order of timestamp. -/
structure Releases where
  relTransactionHash : Nat
  relReleases : List (Nat × Nat)
deriving DecidableEq, Repr

variable (hash : List UInt8 → Nat)

def hashReleasesFrom.hashStep (rel : Nat × Nat) (accum : Nat) : Nat :=
  hash (serRel rel ++ putHash accum)

/-- Hash the releases from index `dropCount` on: a right fold over all but the last, from the
hash of the last; `none` where the source calls `error`, no release being left. -/
def hashReleasesFrom (dropCount : Nat) (releases : Releases) : Option Nat :=
  let remaining := releases.relReleases.drop dropCount
  match remaining.getLast? with
  | none => none
  | some lastRel =>
      some (remaining.dropLast.foldr (hashReleasesFrom.hashStep hash) (hash (serRel lastRel)))

structure ReleaseScheduleEntry where
  /-- Timestamp of the next release. -/
  rseNextTimestamp : Nat
  /-- Hash derived from the releases, given the next release index. -/
  rseReleasesHash : Nat
  /-- The releases, stored once and never updated. -/
  rseReleasesRef : Releases
  /-- Index of the next release. -/
  rseNextReleaseIndex : Nat
deriving DecidableEq, Repr

def rseSortKey (entry : ReleaseScheduleEntry) : Lex (Nat × Nat) :=
  toLex (entry.rseNextTimestamp, entry.rseReleasesHash)

structure AccountReleaseSchedule where
  /-- The release entries ordered on `rseSortKey`. -/
  arsReleases : List ReleaseScheduleEntry
deriving DecidableEq, Repr

def getHash (schedule : AccountReleaseSchedule) : Nat :=
  schedule.arsReleases.foldr
    (fun entry => consAccountReleaseScheduleHashV1 hash entry.rseReleasesHash)
    (emptyAccountReleaseScheduleHashV1 hash)

def emptyAccountReleaseSchedule : AccountReleaseSchedule := ⟨[]⟩

/-- Insert an entry before the first entry of at least its key, so before the entries of equal
key. -/
def insertEntry (entry : ReleaseScheduleEntry) (schedule : AccountReleaseSchedule) :
    AccountReleaseSchedule :=
  let (front, back) := schedule.arsReleases.span fun x =>
    !decide (rseSortKey entry ≤ rseSortKey x)
  ⟨front ++ entry :: back⟩

/-- Insert the schedule of one transfer, from its first release on; `none` on an empty list of
releases, where the source calls `error`. -/
def addReleases :
    List (Nat × Nat) × Nat → AccountReleaseSchedule → Option AccountReleaseSchedule
  | (rels@((rseNextTimestamp, _) :: _), th), ars => do
      let newReleases : Releases := ⟨th, rels⟩
      let rseNextReleaseIndex := 0
      let rseReleasesHash ← hashReleasesFrom hash rseNextReleaseIndex newReleases
      pure (insertEntry
        ⟨rseNextTimestamp, rseReleasesHash, newReleases, rseNextReleaseIndex⟩ ars)
  | ([], _), _ => none

/-- `insert` of `updateEntry`: after the entries of equal key. -/
def unlockAmountsUntil.insert :
    List ReleaseScheduleEntry → ReleaseScheduleEntry → List ReleaseScheduleEntry
  | [], e => [e]
  | h :: t, e =>
      if rseSortKey e < rseSortKey h then e :: h :: t else h :: unlockAmountsUntil.insert t e

/-- `go` of `updateEntry`: walk the releases from index `n`, adding the amounts due by `ts`;
at the first release not yet due, insert the entry advanced to it. -/
def unlockAmountsUntil.go (ts relAmtAcc : Nat) (upds : List ReleaseScheduleEntry)
    (entry : ReleaseScheduleEntry) (n accum : Nat) : Option (Nat × List ReleaseScheduleEntry) :=
  if bound : n < entry.rseReleasesRef.relReleases.length then
    let relts := entry.rseReleasesRef.relReleases[n].1
    let amt := entry.rseReleasesRef.relReleases[n].2
    if relts ≤ ts then unlockAmountsUntil.go ts relAmtAcc upds entry (n + 1) (accum + amt)
    else do
      let rseReleasesHash ← hashReleasesFrom hash n entry.rseReleasesRef
      pure (accum + relAmtAcc, unlockAmountsUntil.insert upds
        { entry with rseNextReleaseIndex := n, rseNextTimestamp := relts,
                     rseReleasesHash := rseReleasesHash })
  else pure (accum + relAmtAcc, upds)
termination_by entry.rseReleasesRef.relReleases.length - n

def unlockAmountsUntil.updateEntry (ts : Nat) (accumulated : Nat × List ReleaseScheduleEntry)
    (entry : ReleaseScheduleEntry) : Option (Nat × List ReleaseScheduleEntry) :=
  unlockAmountsUntil.go hash ts accumulated.1 accumulated.2 entry entry.rseNextReleaseIndex 0

/-- Merge two lists ordered by `rseSortKey`, the left one's entry first on a tie. Core's
`List.merge` has exactly the source's three equations. -/
def unlockAmountsUntil.mergeOrdered (xs ys : List ReleaseScheduleEntry) :
    List ReleaseScheduleEntry :=
  List.merge xs ys fun x y => decide (rseSortKey x ≤ rseSortKey y)

/-- Unlock everything up to and including `ts`: the unlocked amount, the next release time and
the new schedule. The advanced entries are gathered apart and merged into the static ones. -/
def unlockAmountsUntil (ts : Nat) (ars : AccountReleaseSchedule) :
    Option (Nat × Option Nat × AccountReleaseSchedule) := do
  let (elapsedReleases, staticReleases) := ars.arsReleases.span fun r =>
    !decide (ts < r.rseNextTimestamp)
  let (relAmt, newRelsList) ←
    elapsedReleases.foldlM (unlockAmountsUntil.updateEntry hash ts) (0, [])
  let newRels := unlockAmountsUntil.mergeOrdered newRelsList staticReleases
  let nextTS := newRels.head?.map ReleaseScheduleEntry.rseNextTimestamp
  pure (relAmt, nextTS, ⟨newRels⟩)

/-- One entry as a transient entry, of the releases from its index on; `none` where
`NE.fromList` calls `error`, no release being left. -/
def getAccountReleaseSchedule.processEntry (entry : ReleaseScheduleEntry)
    (entries : List TransientEntry) : Option (List TransientEntry) :=
  match entry.rseReleasesRef.relReleases.drop entry.rseNextReleaseIndex with
  | [] => none
  | h :: t =>
      let transient : TransientEntry :=
        ⟨⟨⟨h, t⟩⟩, entry.rseReleasesHash, entry.rseReleasesRef.relTransactionHash⟩
      some (transient :: entries)

/-- The transient schedule of a persistent one, given the total locked amount on the account. -/
def getAccountReleaseSchedule (arsTotalLockedAmount : Nat) (schedule : AccountReleaseSchedule) :
    Option TransientSchedule := do
  let releases ← schedule.arsReleases.foldrM getAccountReleaseSchedule.processEntry []
  pure ⟨releases, arsTotalLockedAmount⟩

def applySchedule : Operation → AccountReleaseSchedule → Response × AccountReleaseSchedule
  | .addReleases releases transactionHash, schedule =>
      match addReleases hash (releases, transactionHash) schedule with
      | some schedule' => (.added, schedule')
      | none => (.failed, schedule)
  | .unlockAmountsUntil ts, schedule =>
      match unlockAmountsUntil hash ts schedule with
      | some (amount, next, schedule') => (.unlocked amount next, schedule')
      | none => (.failed, schedule)

theorem applySchedule_addReleases {releases : List (Nat × Nat)} {transactionHash : Nat}
    {schedule schedule' : AccountReleaseSchedule}
    (added : addReleases hash (releases, transactionHash) schedule = some schedule') :
    applySchedule hash (.addReleases releases transactionHash) schedule = (.added, schedule') := by
  rw [applySchedule, added]

theorem applySchedule_unlockAmountsUntil {ts amount : Nat} {next : Option Nat}
    {schedule schedule' : AccountReleaseSchedule}
    (unlocked : unlockAmountsUntil hash ts schedule = some (amount, next, schedule')) :
    applySchedule hash (.unlockAmountsUntil ts) schedule = (.unlocked amount next, schedule') := by
  rw [applySchedule, unlocked]

/-! ## Hashes and order of entries -/

open Concordium.GlobalState.Basic.BlockState.AccountReleaseScheduleV1.hashReleases (hshRels)

/-- The right fold of `hashReleasesFrom` is the right recursion `hshRels` of the transient
schedule. -/
theorem foldr_hashStep (first : Nat × Nat) :
    ∀ rest : List (Nat × Nat),
      (first :: rest).dropLast.foldr (hashReleasesFrom.hashStep hash)
          (hash (serRel ((first :: rest).getLast (List.cons_ne_nil first rest)))) =
        hshRels hash first rest
  | [] => rfl
  | next :: more => by
      rw [List.dropLast_cons_cons, List.foldr_cons, List.getLast_cons_cons,
        foldr_hashStep next more]
      rfl

theorem hashReleasesFrom_eq (dropCount : Nat) (releases : Releases) :
    hashReleasesFrom hash dropCount releases =
      match releases.relReleases.drop dropCount with
      | [] => none
      | first :: rest => some (hshRels hash first rest) := by
  unfold hashReleasesFrom
  dsimp only
  cases releases.relReleases.drop dropCount with
  | nil => rfl
  | cons first rest =>
      rw [List.getLast?_eq_some_getLast (List.cons_ne_nil first rest)]
      exact congrArg some (foldr_hashStep hash first rest)

theorem insert_eq_orderedInsert :
    ∀ (entries : List ReleaseScheduleEntry) (entry : ReleaseScheduleEntry),
      unlockAmountsUntil.insert entries entry =
        entries.orderedInsert (fun first second => rseSortKey first < rseSortKey second) entry
  | [], _ => rfl
  | head :: tail, entry => by
      rw [unlockAmountsUntil.insert, List.orderedInsert_cons, insert_eq_orderedInsert tail entry]

theorem insert_sorted {entries : List ReleaseScheduleEntry} (entry : ReleaseScheduleEntry)
    (sorted : Sorted rseSortKey entries) :
    Sorted rseSortKey (unlockAmountsUntil.insert entries entry) := by
  rw [insert_eq_orderedInsert]
  exact SortedKey.sorted_orderedInsert _ (fun _ _ below => below.le)
    (fun _ _ notBelow => not_lt.mp notBelow) entry sorted

theorem insertEntry_arsReleases (entry : ReleaseScheduleEntry) (schedule : AccountReleaseSchedule) :
    (insertEntry entry schedule).arsReleases =
      schedule.arsReleases.orderedInsert
        (fun first second => rseSortKey first ≤ rseSortKey second) entry := by
  rw [List.orderedInsert_eq_take_drop, insertEntry, List.span_eq_takeWhile_dropWhile]
  simp only [decide_not]

theorem insertEntry_sorted (entry : ReleaseScheduleEntry) {schedule : AccountReleaseSchedule}
    (sorted : Sorted rseSortKey schedule.arsReleases) :
    Sorted rseSortKey (insertEntry entry schedule).arsReleases := by
  rw [insertEntry_arsReleases]
  exact SortedKey.sorted_orderedInsert _ (fun _ _ below => below)
    (fun _ _ notBelow => (not_le.mp notBelow).le) entry sorted

/-! ## What an entry stands for -/

/-- What an entry of either schedule stands for: the releases still pending, their hash and
the hash of the transaction that scheduled them. -/
structure PendingReleases where
  releases : List (Nat × Nat)
  releasesHash : Nat
  transactionHash : Nat
deriving DecidableEq, Repr

namespace PendingReleases

def nextTimestamp (pending : PendingReleases) : Nat := (pending.releases.headD (0, 0)).1

def sortKey (pending : PendingReleases) : Lex (Nat × Nat) :=
  toLex (pending.nextTimestamp, pending.releasesHash)

/-- Due by `ts`: the next release is at or before `ts`. -/
def due (ts : Nat) (pending : PendingReleases) : Bool := !decide (ts < pending.nextTimestamp)

/-- Unlocking up to and including `ts`: the sum of the releases due, and the releases that
remain, with their hash, if any remain. -/
def unlock (ts : Nat) (pending : PendingReleases) : Nat × Option PendingReleases :=
  (((pending.releases.takeWhile fun release => !decide (ts < release.1)).map Prod.snd).sum,
    match pending.releases.dropWhile fun release => !decide (ts < release.1) with
    | [] => none
    | first :: rest => some ⟨first :: rest, hshRels hash first rest, pending.transactionHash⟩)

@[simp] theorem unlock_nil (ts releasesHash transactionHash : Nat) :
    unlock hash ts ⟨[], releasesHash, transactionHash⟩ = (0, none) := rfl

theorem unlock_cons_of_le {ts : Nat} {release : Nat × Nat} (due : release.1 ≤ ts)
    (rest : List (Nat × Nat)) (releasesHash transactionHash : Nat) :
    unlock hash ts ⟨release :: rest, releasesHash, transactionHash⟩ =
      (release.2 + (unlock hash ts ⟨rest, releasesHash, transactionHash⟩).1,
        (unlock hash ts ⟨rest, releasesHash, transactionHash⟩).2) := by
  have stillDue : (!decide (ts < release.1)) = true := by simpa using due
  simp only [unlock, List.takeWhile_cons, List.dropWhile_cons, stillDue, if_true, List.map_cons,
    List.sum_cons]

theorem unlock_cons_of_lt {ts : Nat} {release : Nat × Nat} (notDue : ts < release.1)
    (rest : List (Nat × Nat)) (releasesHash transactionHash : Nat) :
    unlock hash ts ⟨release :: rest, releasesHash, transactionHash⟩ =
      (0, some ⟨release :: rest, hshRels hash release rest, transactionHash⟩) := by
  have notStillDue : (!decide (ts < release.1)) = false := by simpa using notDue
  simp only [unlock, List.takeWhile_cons, List.dropWhile_cons, notStillDue, Bool.false_eq_true,
    if_false, List.map_nil, List.sum_nil]

end PendingReleases

/-- A transient entry stands for its releases, its hash and its transaction's hash. -/
def basicView (entry : TransientEntry) : PendingReleases :=
  ⟨entry.rseReleases.relReleases.toList, entry.rseReleasesHash, entry.rseTransactionHash⟩

/-- The releases of a persistent entry from index `n` on. -/
def pendingFrom (entry : ReleaseScheduleEntry) (n : Nat) : PendingReleases :=
  ⟨entry.rseReleasesRef.relReleases.drop n, entry.rseReleasesHash,
    entry.rseReleasesRef.relTransactionHash⟩

/-- A persistent entry stands for its releases from its next release index on. -/
def view (entry : ReleaseScheduleEntry) : PendingReleases :=
  pendingFrom entry entry.rseNextReleaseIndex

@[simp] theorem basicView_sortKey (entry : TransientEntry) :
    (basicView entry).sortKey = transientSortKey entry := rfl

@[simp] theorem basicView_due (ts : Nat) (entry : TransientEntry) :
    (basicView entry).due ts =
      Basic.BlockState.AccountReleaseScheduleV1.Elapsed ts entry := rfl

theorem basicView_injective : Function.Injective basicView := by
  rintro ⟨⟨⟨head, tail⟩⟩, releasesHash, transactionHash⟩
    ⟨⟨⟨head', tail'⟩⟩, releasesHash', transactionHash'⟩ same
  simp only [basicView, NonEmpty.toList, PendingReleases.mk.injEq, List.cons.injEq] at same
  obtain ⟨⟨rfl, rfl⟩, rfl, rfl⟩ := same
  rfl

/-- What the transient `unlockEntryUntil` computes is the unlocking of what the entry stands
for. -/
theorem unlockEntryUntil_basicView (ts : Nat) (entry : TransientEntry) :
    (unlockEntryUntil hash ts entry).1 = ((basicView entry).unlock hash ts).1 ∧
      (unlockEntryUntil hash ts entry).2.map basicView = ((basicView entry).unlock hash ts).2 := by
  unfold unlockEntryUntil PendingReleases.unlock basicView
  rw [List.span_eq_takeWhile_dropWhile]
  dsimp only
  refine ⟨rfl, ?_⟩
  cases entry.rseReleases.relReleases.toList.dropWhile fun release => !decide (ts < release.1) with
  | nil => rfl
  | cons first rest => rfl

/-- A persistent entry's next timestamp is the timestamp of the release its index points at,
and its hash is `hashReleasesFrom` that index. -/
structure EntryInvariant (entry : ReleaseScheduleEntry) : Prop where
  nextTimestamp : (entry.rseReleasesRef.relReleases[entry.rseNextReleaseIndex]?).map Prod.fst =
    some entry.rseNextTimestamp
  releasesHash : hashReleasesFrom hash entry.rseNextReleaseIndex entry.rseReleasesRef =
    some entry.rseReleasesHash

/-- The invariant, read on the releases from the index on: they start with a release at the
entry's next timestamp, and the entry's hash is theirs. -/
theorem entryInvariant_iff (entry : ReleaseScheduleEntry) :
    EntryInvariant hash entry ↔
      ∃ amount rest, entry.rseReleasesRef.relReleases.drop entry.rseNextReleaseIndex =
          (entry.rseNextTimestamp, amount) :: rest ∧
        entry.rseReleasesHash = hshRels hash (entry.rseNextTimestamp, amount) rest := by
  constructor
  · rintro ⟨nextTimestamp, releasesHash⟩
    obtain ⟨⟨timestamp, amount⟩, atIndex, sameTimestamp⟩ :=
      Option.map_eq_some_iff.mp nextTimestamp
    obtain ⟨bound, atBound⟩ := List.getElem?_eq_some_iff.mp atIndex
    have dropped := List.drop_eq_getElem_cons bound
    rw [atBound, show timestamp = entry.rseNextTimestamp from sameTimestamp] at dropped
    rw [hashReleasesFrom_eq, dropped] at releasesHash
    exact ⟨amount, _, dropped, (Option.some.inj releasesHash).symm⟩
  · rintro ⟨amount, rest, dropped, hashed⟩
    have bound : entry.rseNextReleaseIndex < entry.rseReleasesRef.relReleases.length := by
      by_contra beyond
      rw [List.drop_eq_nil_of_le (Nat.le_of_not_lt beyond)] at dropped
      exact List.cons_ne_nil _ _ dropped.symm
    rw [List.drop_eq_getElem_cons bound, List.cons.injEq] at dropped
    refine ⟨?_, ?_⟩
    · rw [List.getElem?_eq_getElem bound, dropped.1]
      rfl
    · rw [hashReleasesFrom_eq, List.drop_eq_getElem_cons bound, dropped.1, dropped.2, hashed]

theorem EntryInvariant.view_sortKey {entry : ReleaseScheduleEntry}
    (invariant : EntryInvariant hash entry) : (view entry).sortKey = rseSortKey entry := by
  obtain ⟨amount, rest, dropped, -⟩ := (entryInvariant_iff hash entry).mp invariant
  simp only [PendingReleases.sortKey, PendingReleases.nextTimestamp, view, pendingFrom, dropped,
    List.headD_cons, rseSortKey]

theorem EntryInvariant.view_due {entry : ReleaseScheduleEntry}
    (invariant : EntryInvariant hash entry) (ts : Nat) :
    (view entry).due ts = !decide (ts < entry.rseNextTimestamp) := by
  obtain ⟨amount, rest, dropped, -⟩ := (entryInvariant_iff hash entry).mp invariant
  simp only [PendingReleases.due, PendingReleases.nextTimestamp, view, pendingFrom, dropped,
    List.headD_cons]

/-! ## Unlocking in the persistent schedule -/

theorem pendingFrom_eq_cons {entry : ReleaseScheduleEntry} {n : Nat}
    (bound : n < entry.rseReleasesRef.relReleases.length) :
    pendingFrom entry n =
      ⟨entry.rseReleasesRef.relReleases[n] :: entry.rseReleasesRef.relReleases.drop (n + 1),
        entry.rseReleasesHash, entry.rseReleasesRef.relTransactionHash⟩ := by
  rw [pendingFrom, List.drop_eq_getElem_cons bound]

/-- `go` from index `n` does to the entry what unlocking does to its releases from `n` on: it
adds the amount they unlock, and inserts the entry advanced to the first release not yet due,
which keeps the invariant and stands for what remains. -/
theorem go_spec (ts relAmtAcc : Nat) (upds : List ReleaseScheduleEntry)
    (entry : ReleaseScheduleEntry) (n accum : Nat) :
    ∃ remaining : Option ReleaseScheduleEntry,
      unlockAmountsUntil.go hash ts relAmtAcc upds entry n accum =
          some (accum + ((pendingFrom entry n).unlock hash ts).1 + relAmtAcc,
            remaining.elim upds (unlockAmountsUntil.insert upds)) ∧
        remaining.map view = ((pendingFrom entry n).unlock hash ts).2 ∧
        ∀ advanced ∈ remaining, EntryInvariant hash advanced := by
  fun_induction unlockAmountsUntil.go hash ts relAmtAcc upds entry n accum with
  | case1 n accum bound relts amt due inductionHypothesis =>
      -- the release at `n` is due: its amount is added and the walk goes on
      obtain ⟨remaining, goEq, viewEq, invariant⟩ := inductionHypothesis
      have unlocked := PendingReleases.unlock_cons_of_le hash due
        (entry.rseReleasesRef.relReleases.drop (n + 1)) entry.rseReleasesHash
        entry.rseReleasesRef.relTransactionHash
      refine ⟨remaining, ?_, ?_, invariant⟩
      · rw [goEq, pendingFrom_eq_cons bound, unlocked, ← Nat.add_assoc]
        rfl
      · rw [viewEq, pendingFrom_eq_cons bound, unlocked]
        rfl
  | case2 n accum bound relts notDue =>
      -- the release at `n` is not due: the entry advances to it
      have notDue : ts < entry.rseReleasesRef.relReleases[n].1 := Nat.lt_of_not_le notDue
      have hashed : hashReleasesFrom hash n entry.rseReleasesRef =
          some (hshRels hash entry.rseReleasesRef.relReleases[n]
            (entry.rseReleasesRef.relReleases.drop (n + 1))) := by
        rw [hashReleasesFrom_eq, List.drop_eq_getElem_cons bound]
      have unlocked := PendingReleases.unlock_cons_of_lt hash notDue
        (entry.rseReleasesRef.relReleases.drop (n + 1)) entry.rseReleasesHash
        entry.rseReleasesRef.relTransactionHash
      refine ⟨some ⟨entry.rseReleasesRef.relReleases[n].1,
        hshRels hash entry.rseReleasesRef.relReleases[n]
          (entry.rseReleasesRef.relReleases.drop (n + 1)), entry.rseReleasesRef, n⟩, ?_, ?_, ?_⟩
      · rw [hashed, pendingFrom_eq_cons bound, unlocked]
        rfl
      · rw [pendingFrom_eq_cons bound, unlocked, Option.map_some]
        simp only [view, pendingFrom]
        rw [List.drop_eq_getElem_cons bound]
      · intro advanced listed
        obtain rfl := Option.mem_some_iff.mp listed
        exact (entryInvariant_iff hash _).mpr
          ⟨entry.rseReleasesRef.relReleases[n].2, _, List.drop_eq_getElem_cons bound, rfl⟩
  | case3 n accum beyond =>
      -- no release is left from `n` on
      have nothingLeft : pendingFrom entry n =
          ⟨[], entry.rseReleasesHash, entry.rseReleasesRef.relTransactionHash⟩ := by
        rw [pendingFrom, List.drop_eq_nil_of_le (Nat.le_of_not_lt beyond)]
      refine ⟨none, ?_, ?_, fun _ absent => absurd absent (Option.not_mem_none _)⟩
      · rw [nothingLeft, PendingReleases.unlock_nil, Nat.add_zero]
        rfl
      · rw [nothingLeft, PendingReleases.unlock_nil]
        rfl

theorem updateEntry_spec (ts : Nat) (accumulated : Nat × List ReleaseScheduleEntry)
    (entry : ReleaseScheduleEntry) :
    ∃ remaining : Option ReleaseScheduleEntry,
      unlockAmountsUntil.updateEntry hash ts accumulated entry =
          some (accumulated.1 + ((view entry).unlock hash ts).1,
            remaining.elim accumulated.2 (unlockAmountsUntil.insert accumulated.2)) ∧
        remaining.map view = ((view entry).unlock hash ts).2 ∧
        ∀ advanced ∈ remaining, EntryInvariant hash advanced := by
  obtain ⟨remaining, goEq, viewEq, invariant⟩ :=
    go_spec hash ts accumulated.1 accumulated.2 entry entry.rseNextReleaseIndex 0
  refine ⟨remaining, ?_, viewEq, invariant⟩
  rw [unlockAmountsUntil.updateEntry, goEq, Nat.zero_add, Nat.add_comm]
  rfl

theorem insert_perm (entries : List ReleaseScheduleEntry) (entry : ReleaseScheduleEntry) :
    (unlockAmountsUntil.insert entries entry).Perm (entry :: entries) := by
  rw [insert_eq_orderedInsert]
  exact List.perm_orderedInsert _ entry entries

/-- The accumulator after one entry, in order and invariant, standing for the entries before
and what remains of this one. -/
theorem elim_insert_spec {upds : List ReleaseScheduleEntry} (sorted : Sorted rseSortKey upds)
    (invariant : ∀ entry ∈ upds, EntryInvariant hash entry)
    (remaining : Option ReleaseScheduleEntry)
    (advancedInvariant : ∀ advanced ∈ remaining, EntryInvariant hash advanced) :
    let upds' := remaining.elim upds (unlockAmountsUntil.insert upds)
    Sorted rseSortKey upds' ∧ (∀ entry ∈ upds', EntryInvariant hash entry) ∧
      (upds'.map view).Perm (upds.map view ++ (remaining.map view).toList) := by
  cases remaining with
  | none =>
      refine ⟨sorted, invariant, ?_⟩
      rw [Option.map_none, Option.toList_none, List.append_nil]
      exact List.Perm.refl _
  | some advanced =>
      refine ⟨insert_sorted advanced sorted, fun entry listed => ?_,
        ((insert_perm upds advanced).map view).trans (List.perm_append_singleton _ _).symm⟩
      rcases List.mem_cons.mp ((insert_perm upds advanced).subset listed) with rfl | old
      · exact advancedInvariant entry rfl
      · exact invariant entry old

/-- The fold of `unlockAmountsUntil` over the elapsed entries: the amount grows by what each
unlocks, and the advanced entries are gathered in order, each invariant, standing for what
remains of the elapsed ones. -/
theorem foldlM_updateEntry (ts : Nat) :
    ∀ (elapsed : List ReleaseScheduleEntry) (relAmtAcc : Nat) (upds : List ReleaseScheduleEntry),
      Sorted rseSortKey upds → (∀ entry ∈ upds, EntryInvariant hash entry) →
      ∃ newRels, elapsed.foldlM (unlockAmountsUntil.updateEntry hash ts) (relAmtAcc, upds) =
          some (relAmtAcc + (elapsed.map fun entry => ((view entry).unlock hash ts).1).sum,
            newRels) ∧
        Sorted rseSortKey newRels ∧ (∀ entry ∈ newRels, EntryInvariant hash entry) ∧
        (newRels.map view).Perm
          (upds.map view ++ elapsed.filterMap fun entry => ((view entry).unlock hash ts).2)
  | [], relAmtAcc, upds, sorted, invariant =>
      ⟨upds, by rw [List.foldlM_nil, List.map_nil, List.sum_nil, Nat.add_zero]; rfl, sorted,
        invariant, by rw [List.filterMap_nil, List.append_nil]⟩
  | entry :: rest, relAmtAcc, upds, sorted, invariant => by
      obtain ⟨remaining, stepEq, viewEq, advancedInvariant⟩ :=
        updateEntry_spec hash ts (relAmtAcc, upds) entry
      obtain ⟨stepSorted, stepInvariant, stepPerm⟩ :=
        elim_insert_spec hash sorted invariant remaining advancedInvariant
      obtain ⟨newRels, restEq, restSorted, restInvariant, restPerm⟩ :=
        foldlM_updateEntry ts rest _ _ stepSorted stepInvariant
      have remainders : (entry :: rest).filterMap (fun entry => ((view entry).unlock hash ts).2) =
          (remaining.map view).toList ++
            rest.filterMap fun entry => ((view entry).unlock hash ts).2 := by
        rw [List.filterMap_cons, ← viewEq]
        cases remaining <;> rfl
      refine ⟨newRels, ?_, restSorted, restInvariant, ?_⟩
      · rw [List.foldlM_cons, stepEq]
        change rest.foldlM _ _ = _
        rw [restEq, List.map_cons, List.sum_cons, Nat.add_assoc]
      · rw [remainders, ← List.append_assoc]
        exact restPerm.trans (stepPerm.append_right _)

/-- Due by `ts`, as the source's `break` reads it. -/
def Elapsed (ts : Nat) (entry : ReleaseScheduleEntry) : Bool :=
  !decide (ts < entry.rseNextTimestamp)

theorem elapsed_closed (ts : Nat) (first second : ReleaseScheduleEntry)
    (below : rseSortKey first ≤ rseSortKey second) (due : Elapsed ts second = true) :
    Elapsed ts first = true :=
  @Basic.BlockState.AccountReleaseScheduleV1.due_of_key_le ts (rseSortKey first)
    (rseSortKey second) below due

/-- What `unlockAmountsUntil` does to a schedule in order whose entries keep the invariant: it
succeeds; the amount is the sum of what the entries due by `ts` unlock; the next release time is
the first entry's; and the new entries are in order, invariant, and stand for what remains of
the due entries and for the entries not yet due. -/
theorem unlockAmountsUntil_spec (ts : Nat) (schedule : AccountReleaseSchedule)
    (sorted : Sorted rseSortKey schedule.arsReleases)
    (invariant : ∀ entry ∈ schedule.arsReleases, EntryInvariant hash entry) :
    let elapsed := schedule.arsReleases.filter (Elapsed ts)
    ∃ newRels, unlockAmountsUntil hash ts schedule =
        some ((elapsed.map fun entry => ((view entry).unlock hash ts).1).sum,
          newRels.head?.map ReleaseScheduleEntry.rseNextTimestamp, ⟨newRels⟩) ∧
      Sorted rseSortKey newRels ∧ (∀ entry ∈ newRels, EntryInvariant hash entry) ∧
      (newRels.map view).Perm
        (elapsed.filterMap (fun entry => ((view entry).unlock hash ts).2) ++
          (schedule.arsReleases.filter fun entry => !Elapsed ts entry).map view) := by
  dsimp only
  have takeElapsed := SortedKey.takeWhile_eq_filter (Elapsed ts) (elapsed_closed ts) sorted
  have dropElapsed := SortedKey.dropWhile_eq_filter (Elapsed ts) (elapsed_closed ts) sorted
  have staticSorted :
      Sorted rseSortKey (schedule.arsReleases.filter fun entry => !Elapsed ts entry) :=
    sorted.sublist List.filter_sublist
  obtain ⟨advanced, foldEq, advancedSorted, advancedInvariant, advancedPerm⟩ :=
    foldlM_updateEntry hash ts (schedule.arsReleases.filter (Elapsed ts)) 0 [] SortedKey.sorted_nil
      (fun _ absent => absurd absent List.not_mem_nil)
  rw [List.map_nil, List.nil_append, Nat.zero_add] at *
  refine ⟨unlockAmountsUntil.mergeOrdered advanced
      (schedule.arsReleases.filter fun entry => !Elapsed ts entry), ?_,
    SortedKey.sorted_merge advancedSorted staticSorted, fun entry listed => ?_, ?_⟩
  · unfold unlockAmountsUntil
    rw [List.span_eq_takeWhile_dropWhile,
      show (fun entry : ReleaseScheduleEntry => !decide (ts < entry.rseNextTimestamp)) =
        Elapsed ts from rfl, takeElapsed, dropElapsed]
    dsimp only
    rw [foldEq]
    rfl
  · rcases List.mem_merge.mp listed with fromAdvanced | fromStatic
    · exact advancedInvariant entry fromAdvanced
    · exact invariant entry (List.mem_of_mem_filter fromStatic)
  · rw [unlockAmountsUntil.mergeOrdered]
    refine ((List.merge_perm_append _).map view).trans ?_
    rw [List.map_append]
    exact advancedPerm.append_right _

theorem insertEntry_perm (entry : ReleaseScheduleEntry) (schedule : AccountReleaseSchedule) :
    (insertEntry entry schedule).arsReleases.Perm (entry :: schedule.arsReleases) := by
  rw [insertEntry_arsReleases]
  exact List.perm_orderedInsert _ entry schedule.arsReleases

/-! ## Refinement -/

/-- The persistent schedule refines the transient one: both keep their entries in order, the
persistent entries keep their invariant, and the two stand for the same pending releases, in
orders that may differ among entries of equal key. -/
structure Refines (basic : TransientSchedule) (persistent : AccountReleaseSchedule) : Prop where
  entries : ∀ entry ∈ persistent.arsReleases, EntryInvariant hash entry
  basicSorted : Sorted transientSortKey basic.arsReleases
  persistentSorted : Sorted rseSortKey persistent.arsReleases
  views : (basic.arsReleases.map basicView).Perm (persistent.arsReleases.map view)

section Refines

variable {hash} {basic : TransientSchedule} {persistent : AccountReleaseSchedule}

theorem Refines.persistent_sortKeys (refines : Refines hash basic persistent) :
    (persistent.arsReleases.map view).map PendingReleases.sortKey =
      persistent.arsReleases.map rseSortKey := by
  rw [List.map_map]
  exact List.map_congr_left fun entry listed =>
    EntryInvariant.view_sortKey hash (refines.entries entry listed)

/-- Entries standing for the same pending releases, in order, have the same keys in the same
order. -/
theorem Refines.keys_eq (refines : Refines hash basic persistent) :
    basic.arsReleases.map transientSortKey = persistent.arsReleases.map rseSortKey := by
  have basicKeys : basic.arsReleases.map transientSortKey =
      (basic.arsReleases.map basicView).map PendingReleases.sortKey := by
    rw [List.map_map]
    rfl
  rw [basicKeys, ← refines.persistent_sortKeys]
  exact SortedKey.map_eq_of_perm (refines.basicSorted.map basicView fun _ _ => rfl)
    (refines.persistentSorted.map view fun entry listed =>
      EntryInvariant.view_sortKey hash (refines.entries entry listed))
    refines.views

theorem Refines.getHash_eq (refines : Refines hash basic persistent) :
    getHash hash persistent = Basic.BlockState.AccountReleaseScheduleV1.getHash hash basic := by
  -- the hashes are the second halves of the keys
  have hashes := congrArg (List.map fun key => (ofLex key).2) refines.keys_eq
  rw [List.map_map, List.map_map] at hashes
  have basicHash : Basic.BlockState.AccountReleaseScheduleV1.getHash hash basic =
      (basic.arsReleases.map TransientEntry.rseReleasesHash).foldr
        (consAccountReleaseScheduleHashV1 hash) (emptyAccountReleaseScheduleHashV1 hash) := by
    rw [List.foldr_map]
    rfl
  have persistentHash : getHash hash persistent =
      (persistent.arsReleases.map ReleaseScheduleEntry.rseReleasesHash).foldr
        (consAccountReleaseScheduleHashV1 hash) (emptyAccountReleaseScheduleHashV1 hash) := by
    rw [List.foldr_map]
    rfl
  rw [basicHash, persistentHash]
  exact congrArg (List.foldr _ _) hashes.symm

theorem Refines.nextTimestamp_eq (refines : Refines hash basic persistent) :
    basic.arsReleases.head?.map transientNextTimestamp =
      persistent.arsReleases.head?.map ReleaseScheduleEntry.rseNextTimestamp := by
  -- the timestamps are the first halves of the keys
  have timestamps := congrArg (fun keys => keys.head?.map fun key => (ofLex key).1)
    refines.keys_eq
  simp only [List.head?_map, Option.map_map] at timestamps
  exact timestamps

/-- Filtering both schedules by the same test on what the entries stand for keeps them standing
for the same releases. -/
theorem Refines.filter_perm (refines : Refines hash basic persistent)
    (test : PendingReleases → Bool) {basicTest : TransientEntry → Bool}
    {persistentTest : ReleaseScheduleEntry → Bool}
    (basicAgrees : ∀ entry, test (basicView entry) = basicTest entry)
    (persistentAgrees :
      ∀ entry ∈ persistent.arsReleases, test (view entry) = persistentTest entry) :
    ((basic.arsReleases.filter basicTest).map basicView).Perm
      ((persistent.arsReleases.filter persistentTest).map view) := by
  have basicFiltered : (basic.arsReleases.filter basicTest).map basicView =
      (basic.arsReleases.map basicView).filter test := by
    rw [List.filter_map]
    exact congrArg _ (List.filter_congr fun entry _ => (basicAgrees entry).symm)
  have persistentFiltered : (persistent.arsReleases.filter persistentTest).map view =
      (persistent.arsReleases.map view).filter test := by
    rw [List.filter_map]
    exact congrArg _ (List.filter_congr fun entry listed => (persistentAgrees entry listed).symm)
  rw [basicFiltered, persistentFiltered]
  exact refines.views.filter test

/-- An insertion: both schedules insert one entry standing for all the releases, or both fail
on an empty list. -/
theorem addReleases_step (refines : Refines hash basic persistent)
    (releases : List (Nat × Nat)) (transactionHash : Nat) :
    (applySchedule hash (.addReleases releases transactionHash) persistent).1 =
        (Basic.BlockState.AccountReleaseScheduleV1.applySchedule hash
          (.addReleases releases transactionHash) basic).1 ∧
      Refines hash
        (Basic.BlockState.AccountReleaseScheduleV1.applySchedule hash
          (.addReleases releases transactionHash) basic).2
        (applySchedule hash (.addReleases releases transactionHash) persistent).2 := by
  cases releases with
  | nil => exact ⟨rfl, refines⟩
  | cons first rest =>
      obtain ⟨timestamp, amount⟩ := first
      let entry : ReleaseScheduleEntry := ⟨timestamp, hshRels hash (timestamp, amount) rest,
        ⟨transactionHash, (timestamp, amount) :: rest⟩, 0⟩
      have hashed : hashReleasesFrom hash 0 ⟨transactionHash, (timestamp, amount) :: rest⟩ =
          some (hshRels hash (timestamp, amount) rest) := by
        rw [hashReleasesFrom_eq]
        rfl
      have added : addReleases hash ((timestamp, amount) :: rest, transactionHash) persistent =
          some (insertEntry entry persistent) := by
        show (do
          let rseReleasesHash ←
            hashReleasesFrom hash 0 ⟨transactionHash, (timestamp, amount) :: rest⟩
          pure (insertEntry ⟨timestamp, rseReleasesHash, _, 0⟩ persistent)) = _
        rw [hashed]
        rfl
      have entryInvariant : EntryInvariant hash entry :=
        (entryInvariant_iff hash entry).mpr ⟨amount, rest, rfl, rfl⟩
      rw [applySchedule_addReleases hash added]
      refine ⟨rfl, fun listed inserted => ?_,
        Basic.BlockState.AccountReleaseScheduleV1.insertEntry_sorted _ refines.basicSorted,
        insertEntry_sorted entry refines.persistentSorted, ?_⟩
      · rcases List.mem_cons.mp ((insertEntry_perm entry persistent).subset inserted) with
          rfl | old
        · exact entryInvariant
        · exact refines.entries listed old
      · -- the new transient entry stands for what the new persistent one does
        refine
          ((Basic.BlockState.AccountReleaseScheduleV1.insertEntry_perm _ _).map basicView).trans
            (List.Perm.trans ?_ ((insertEntry_perm entry persistent).map view).symm)
        exact refines.views.cons _

/-- An unlocking: both schedules unlock the same amount, report the same next release time and
keep standing for the same releases. -/
theorem unlockAmountsUntil_step (refines : Refines hash basic persistent) (ts : Nat) :
    (applySchedule hash (.unlockAmountsUntil ts) persistent).1 =
        (Basic.BlockState.AccountReleaseScheduleV1.applySchedule hash
          (.unlockAmountsUntil ts) basic).1 ∧
      Refines hash
        (Basic.BlockState.AccountReleaseScheduleV1.applySchedule hash
          (.unlockAmountsUntil ts) basic).2
        (applySchedule hash (.unlockAmountsUntil ts) persistent).2 := by
  obtain ⟨newRels, unlocked, newSorted, newInvariant, newPerm⟩ :=
    unlockAmountsUntil_spec hash ts persistent refines.persistentSorted refines.entries
  obtain ⟨amountEq, nextEq, basicSorted', basicPerm⟩ :=
    Basic.BlockState.AccountReleaseScheduleV1.unlockAmountsUntil_spec hash ts basic
      refines.basicSorted
  -- the entries due on both sides stand for the same releases, and so do the others
  have elapsedPerm := refines.filter_perm (PendingReleases.due ts) (basicView_due ts)
    fun entry listed => EntryInvariant.view_due hash (refines.entries entry listed) ts
  have staticPerm := refines.filter_perm (fun pending => !pending.due ts)
    (fun entry => congrArg (!·) (basicView_due ts entry))
    fun entry listed =>
      congrArg (!·) (EntryInvariant.view_due hash (refines.entries entry listed) ts)
  have remaindersEq :
      ((basic.arsReleases.filter (Basic.BlockState.AccountReleaseScheduleV1.Elapsed ts)).filterMap
        fun entry => (unlockEntryUntil hash ts entry).2).map basicView =
      ((basic.arsReleases.filter (Basic.BlockState.AccountReleaseScheduleV1.Elapsed ts)).map
        basicView).filterMap fun pending => (pending.unlock hash ts).2 := by
    rw [List.map_filterMap, List.filterMap_map]
    exact List.filterMap_congr fun entry _ => (unlockEntryUntil_basicView hash ts entry).2
  have newRefines : Refines hash (Basic.BlockState.AccountReleaseScheduleV1.unlockAmountsUntil
      hash ts basic).2.2 ⟨newRels⟩ := by
    refine ⟨newInvariant, basicSorted', newSorted, ?_⟩
    refine (basicPerm.map basicView).trans ?_
    rw [List.map_append, remaindersEq]
    refine ((staticPerm.append (elapsedPerm.filterMap _)).trans List.perm_append_comm).trans ?_
    rw [List.filterMap_map]
    exact newPerm.symm
  rw [applySchedule_unlockAmountsUntil hash unlocked]
  refine ⟨?_, newRefines⟩
  show Response.unlocked _ _ = Response.unlocked
    (Basic.BlockState.AccountReleaseScheduleV1.unlockAmountsUntil hash ts basic).1
    (Basic.BlockState.AccountReleaseScheduleV1.unlockAmountsUntil hash ts basic).2.1
  rw [amountEq, nextEq, newRefines.nextTimestamp_eq]
  have amounts := (elapsedPerm.map fun pending => (pending.unlock hash ts).1).sum_eq
  rw [List.map_map, List.map_map] at amounts
  rw [List.map_congr_left fun entry _ => (unlockEntryUntil_basicView hash ts entry).1]
  exact congrArg₂ Response.unlocked amounts.symm rfl

/-- Reading a schedule of invariant entries back as a transient one succeeds, each entry read
back as the transient entry that stands for the same releases. -/
theorem foldrM_processEntry :
    ∀ entries : List ReleaseScheduleEntry, (∀ entry ∈ entries, EntryInvariant hash entry) →
      ∃ converted, entries.foldrM getAccountReleaseSchedule.processEntry [] = some converted ∧
        converted.map basicView = entries.map view
  | [], _ => ⟨[], rfl, rfl⟩
  | entry :: rest, invariant => by
      obtain ⟨convertedRest, restEq, restViews⟩ :=
        foldrM_processEntry rest fun other listed => invariant other (List.mem_cons_of_mem _ listed)
      obtain ⟨amount, remaining, dropped, -⟩ :=
        (entryInvariant_iff hash entry).mp (invariant entry List.mem_cons_self)
      let transient : TransientEntry := ⟨⟨⟨(entry.rseNextTimestamp, amount), remaining⟩⟩,
        entry.rseReleasesHash, entry.rseReleasesRef.relTransactionHash⟩
      refine ⟨transient :: convertedRest, ?_, ?_⟩
      · rw [List.foldrM_cons, restEq]
        show getAccountReleaseSchedule.processEntry entry convertedRest = _
        rw [getAccountReleaseSchedule.processEntry, dropped]
      · rw [List.map_cons, List.map_cons, restViews]
        simp only [view, pendingFrom, dropped]
        rfl

/-- The transient schedule read back from a refining persistent one is the transient schedule
itself, up to the order of entries of equal key. -/
theorem Refines.getAccountReleaseSchedule_eq (refines : Refines hash basic persistent)
    (total : Nat) :
    ∃ converted, getAccountReleaseSchedule total persistent = some converted ∧
      converted.arsTotalLockedAmount = total ∧
      converted.arsReleases.Perm basic.arsReleases ∧
      converted.arsReleases.map transientSortKey = basic.arsReleases.map transientSortKey := by
  obtain ⟨converted, foldEq, views⟩ :=
    foldrM_processEntry persistent.arsReleases refines.entries
  refine ⟨⟨converted, total⟩, by rw [getAccountReleaseSchedule, foldEq]; rfl, rfl, ?_, ?_⟩
  · -- a transient entry is determined by what it stands for
    apply (List.map_perm_map_iff basicView_injective).mp
    rw [views]
    exact refines.views.symm
  · have convertedKeys : converted.map transientSortKey =
        (converted.map basicView).map PendingReleases.sortKey := by
      rw [List.map_map]
      rfl
    rw [convertedKeys, views, refines.persistent_sortKeys, refines.keys_eq]

end Refines

theorem refines_empty :
    Refines hash Basic.BlockState.AccountReleaseScheduleV1.emptyAccountReleaseSchedule
      emptyAccountReleaseSchedule :=
  ⟨fun _ absent => absurd absent List.not_mem_nil, SortedKey.sorted_nil, SortedKey.sorted_nil,
    List.Perm.nil⟩

/-- The persistent schedule simulates the transient one through `Refines`. -/
theorem applySchedule_simulates :
    Machine.SimulatesBy (Refines hash)
      (Basic.BlockState.AccountReleaseScheduleV1.applySchedule hash) (applySchedule hash) where
  step := by
    intro operation basic persistent refines
    cases operation with
    | addReleases releases transactionHash =>
        exact addReleases_step refines releases transactionHash
    | unlockAmountsUntil ts => exact unlockAmountsUntil_step refines ts

theorem persistent_release_schedule_refines_basic (hash : List UInt8 → Nat)
    (operations : List Operation) :
    let basic := Machine.run (Basic.BlockState.AccountReleaseScheduleV1.applySchedule hash)
      operations Basic.BlockState.AccountReleaseScheduleV1.emptyAccountReleaseSchedule
    let persistent := Machine.run (applySchedule hash) operations emptyAccountReleaseSchedule
    persistent.1 = basic.1 ∧
      (∃ converted,
        getAccountReleaseSchedule basic.2.arsTotalLockedAmount persistent.2 = some converted ∧
          converted.arsTotalLockedAmount = basic.2.arsTotalLockedAmount ∧
          converted.arsReleases.Perm basic.2.arsReleases ∧
          converted.arsReleases.map transientSortKey =
            basic.2.arsReleases.map transientSortKey) ∧
      getHash hash persistent.2 = Basic.BlockState.AccountReleaseScheduleV1.getHash hash basic.2 ∧
      ∀ entry ∈ persistent.2.arsReleases, EntryInvariant hash entry := by
  obtain ⟨sameOutputs, related⟩ :=
    (applySchedule_simulates hash).run operations _ _ (refines_empty hash)
  exact ⟨sameOutputs, related.getAccountReleaseSchedule_eq _, related.getHash_eq,
    related.entries⟩

end Concordium.GlobalState.Persistent.BlockState.AccountReleaseScheduleV1
