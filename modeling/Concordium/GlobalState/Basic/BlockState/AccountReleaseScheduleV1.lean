import Concordium.Library.Machine
import Concordium.Library.Serialize
import Concordium.Library.SortedKey
import Mathlib.Algebra.BigOperators.Group.List.Basic
import Mathlib.Data.Prod.Lex

/-!
Contract: the account release schedule of
`Concordium.GlobalState.Basic.BlockState.AccountReleaseScheduleV1`, which holds the releases
still locked on one account, one entry per scheduled transfer, in ascending order of
`rseSortKey`.

Owns:
- `Releases` over a non-empty list of (timestamp, amount) pairs, and `hashReleases` with its
  right recursion `hshRels`;
- `ReleaseScheduleEntry` with `rseNextTimestamp`, `rseSortKey` and `unlockEntryUntil`;
- `AccountReleaseSchedule` with its hash `getHash`, `emptyAccountReleaseSchedule`,
  `nextReleaseTimestamp`, `insertEntry`, `addReleases` and `unlockAmountsUntil` with its
  `updateEntry`, and `sumOfReleases`;
- `applySchedule`, the two operations as one machine, and the facts that both operations keep
  the entries in order and what `unlockAmountsUntil` does to them (`unlockAmountsUntil_spec`).

Timestamps, amounts and hashes are natural numbers. A hash is the number its 32 bytes spell
big-endian, so that comparing hashes as the source does is comparing numbers; `Hash.hash` is a
parameter `hash` from bytes to such numbers. Where the source calls `error`, the model returns
`none`.

Does not own: serialization of the schedule, `fromAccountReleaseScheduleV0`,
`toAccountReleaseSummary`.
-/

set_option autoImplicit false

namespace Concordium.GlobalState.Basic.BlockState.AccountReleaseScheduleV1

open SortedKey (Sorted)

/-- `NonEmpty`: a list with at least one element, `head :| tail`. -/
structure NonEmpty (α : Type) where
  head : α
  tail : List α
deriving DecidableEq, Repr

def NonEmpty.toList {α : Type} (list : NonEmpty α) : List α := list.head :: list.tail

/-- The releases of one scheduled transfer, as (timestamp, amount) pairs. -/
structure Releases where
  relReleases : NonEmpty (Nat × Nat)
deriving DecidableEq, Repr

/-- `serRel`: a release as its timestamp and its amount, each a `Word64`. -/
def serRel (release : Nat × Nat) : List UInt8 :=
  Serialize.putWord64be release.1 ++ Serialize.putWord64be release.2

/-- `put` of a `Hash.Hash`: its 32 bytes. -/
def putHash (value : Nat) : List UInt8 := Serialize.putWordBE 32 value

variable (hash : List UInt8 → Nat)

/-- `hshRels`: the hash of a release's bytes followed, when more releases follow, by the hash of
those. -/
def hashReleases.hshRels : Nat × Nat → List (Nat × Nat) → Nat
  | release, [] => hash (serRel release)
  | release, next :: rest => hash (serRel release ++ putHash (hashReleases.hshRels next rest))

def hashReleases (releases : Releases) : Nat :=
  hashReleases.hshRels hash releases.relReleases.head releases.relReleases.tail

/-- A release schedule produced by a single scheduled transfer. -/
structure ReleaseScheduleEntry where
  rseReleases : Releases
  rseReleasesHash : Nat
  rseTransactionHash : Nat
deriving DecidableEq, Repr

/-- Timestamp of the earliest release of the entry. -/
def rseNextTimestamp (entry : ReleaseScheduleEntry) : Nat :=
  entry.rseReleases.relReleases.head.1

/-- Entries are ordered first by timestamp, ties resolved by the hash of the releases. -/
def rseSortKey (entry : ReleaseScheduleEntry) : Lex (Nat × Nat) :=
  toLex (rseNextTimestamp entry, entry.rseReleasesHash)

/-- Unlock the releases of an entry up to and including `ts`: the unlocked amount, and the entry
of the releases that remain, if any. -/
def unlockEntryUntil (ts : Nat) (entry : ReleaseScheduleEntry) :
    Nat × Option ReleaseScheduleEntry :=
  let (lapsed, remain) := entry.rseReleases.relReleases.toList.span fun release =>
    !decide (ts < release.1)
  ((lapsed.map Prod.snd).sum,
    match remain with
    | [] => none
    | h :: t =>
        let newReleases : Releases := ⟨⟨h, t⟩⟩
        some { entry with rseReleases := newReleases,
                          rseReleasesHash := hashReleases hash newReleases })

structure AccountReleaseSchedule where
  /-- The release entries ordered on `rseSortKey`. -/
  arsReleases : List ReleaseScheduleEntry
  /-- The total locked amount of all releases. -/
  arsTotalLockedAmount : Nat
deriving DecidableEq, Repr

def emptyAccountReleaseScheduleHashV1 : Nat :=
  hash "EmptyAccountReleaseScheduleV1".toUTF8.toList

def consAccountReleaseScheduleHashV1 (releasesHash scheduleHash : Nat) : Nat :=
  hash (putHash releasesHash ++ putHash scheduleHash)

/-- The `AccountReleaseScheduleHashV1` of a schedule: its entries' release hashes, consed onto
the hash of the empty schedule from the right. -/
def getHash (schedule : AccountReleaseSchedule) : Nat :=
  schedule.arsReleases.foldr
    (fun entry => consAccountReleaseScheduleHashV1 hash entry.rseReleasesHash)
    (emptyAccountReleaseScheduleHashV1 hash)

def emptyAccountReleaseSchedule : AccountReleaseSchedule := ⟨[], 0⟩

def nextReleaseTimestamp (schedule : AccountReleaseSchedule) : Option Nat :=
  match schedule.arsReleases with
  | [] => none
  | h :: _ => some (rseNextTimestamp h)

/-- Insert an entry at the first point that keeps the order, after the entries of equal key. -/
def insertEntry (entry : ReleaseScheduleEntry) :
    List ReleaseScheduleEntry → List ReleaseScheduleEntry
  | [] => [entry]
  | h :: t =>
      if rseSortKey entry < rseSortKey h then entry :: h :: t else h :: insertEntry entry t

/-- Insert the schedule of one transfer; `none` on an empty list of releases, where the source
calls `error`. -/
def addReleases :
    List (Nat × Nat) × Nat → AccountReleaseSchedule → Option AccountReleaseSchedule
  | (h :: t, rseTransactionHash), schedule =>
      let rseReleases : Releases := ⟨⟨h, t⟩⟩
      let entry : ReleaseScheduleEntry :=
        ⟨rseReleases, hashReleases hash rseReleases, rseTransactionHash⟩
      some ⟨insertEntry entry schedule.arsReleases,
        schedule.arsTotalLockedAmount + ((h :: t).map Prod.snd).sum⟩
  | ([], _), _ => none

/-- One elapsed entry of `unlockAmountsUntil`: add what it unlocks, and insert what remains of
it. -/
def unlockAmountsUntil.updateEntry (ts : Nat) (entry : ReleaseScheduleEntry)
    (accumulated : Nat × List ReleaseScheduleEntry) : Nat × List ReleaseScheduleEntry :=
  match unlockEntryUntil hash ts entry with
  | (am, some entry') => (am + accumulated.1, insertEntry entry' accumulated.2)
  | (am, none) => (am + accumulated.1, accumulated.2)

/-- Unlock everything up to and including `ts`: the unlocked amount, the next release time and
the new schedule. -/
def unlockAmountsUntil (ts : Nat) (ars0 : AccountReleaseSchedule) :
    Nat × Option Nat × AccountReleaseSchedule :=
  let (elapsedReleases, staticReleases) := ars0.arsReleases.span fun entry =>
    !decide (ts < rseNextTimestamp entry)
  let (relAmt, newEntries) :=
    elapsedReleases.foldr (unlockAmountsUntil.updateEntry hash ts) (0, staticReleases)
  let newArs : AccountReleaseSchedule := ⟨newEntries, ars0.arsTotalLockedAmount - relAmt⟩
  (relAmt, nextReleaseTimestamp newArs, newArs)

/-- The sum of the releases of all entries, which the total locked amount should equal. -/
def sumOfReleases (ars : AccountReleaseSchedule) : Nat :=
  (ars.arsReleases.map fun rse => (rse.rseReleases.relReleases.toList.map Prod.snd).sum).sum

/-! ## The schedule as a machine -/

/-- The operations the rest of the node performs on a release schedule. -/
inductive Operation
  | addReleases (releases : List (Nat × Nat)) (transactionHash : Nat)
  | unlockAmountsUntil (ts : Nat)
deriving DecidableEq, Repr

/-- What an operation answers: nothing for an insertion, the unlocked amount and the next
release time for an unlocking, and `failed` where the source calls `error`, the schedule then
being left as it was. -/
inductive Response
  | added
  | unlocked (amount : Nat) (nextTimestamp : Option Nat)
  | failed
deriving DecidableEq, Repr

def applySchedule : Operation → AccountReleaseSchedule → Response × AccountReleaseSchedule
  | .addReleases releases transactionHash, schedule =>
      match addReleases hash (releases, transactionHash) schedule with
      | some schedule' => (.added, schedule')
      | none => (.failed, schedule)
  | .unlockAmountsUntil ts, schedule =>
      let (amount, next, schedule') := unlockAmountsUntil hash ts schedule
      (.unlocked amount next, schedule')

/-! ## Order of the entries -/

theorem insertEntry_eq_orderedInsert (entry : ReleaseScheduleEntry) :
    ∀ entries, insertEntry entry entries =
      entries.orderedInsert (fun first second => rseSortKey first < rseSortKey second) entry
  | [] => rfl
  | head :: tail => by
      rw [insertEntry, List.orderedInsert_cons, insertEntry_eq_orderedInsert entry tail]

theorem insertEntry_perm (entry : ReleaseScheduleEntry) (entries : List ReleaseScheduleEntry) :
    (insertEntry entry entries).Perm (entry :: entries) := by
  rw [insertEntry_eq_orderedInsert]
  exact List.perm_orderedInsert _ entry entries

theorem insertEntry_sorted (entry : ReleaseScheduleEntry) {entries : List ReleaseScheduleEntry}
    (sorted : Sorted rseSortKey entries) : Sorted rseSortKey (insertEntry entry entries) := by
  rw [insertEntry_eq_orderedInsert]
  exact SortedKey.sorted_orderedInsert _ (fun _ _ below => below.le)
    (fun _ _ notBelow => not_lt.mp notBelow) entry sorted

/-- The elapsed entries, as the ones due by `ts`. -/
def Elapsed (ts : Nat) (entry : ReleaseScheduleEntry) : Bool :=
  !decide (ts < rseNextTimestamp entry)

/-- Being due by `ts` passes down along the key: an entry of smaller key is due no later. -/
theorem due_of_key_le (ts : Nat) {first second : Lex (Nat × Nat)} (below : first ≤ second)
    (due : (!decide (ts < (ofLex second).1)) = true) : (!decide (ts < (ofLex first).1)) = true := by
  have earlier : (ofLex first).1 ≤ (ofLex second).1 := (Prod.Lex.toLex_le_toLex'.mp below).1
  simp only [Bool.not_eq_eq_eq_not, Bool.not_true, decide_eq_false_iff_not, not_lt] at due ⊢
  exact le_trans earlier due

theorem elapsed_closed (ts : Nat) (first second : ReleaseScheduleEntry)
    (below : rseSortKey first ≤ rseSortKey second) (due : Elapsed ts second = true) :
    Elapsed ts first = true :=
  @due_of_key_le ts (rseSortKey first) (rseSortKey second) below due

theorem updateEntry_eq (ts : Nat) (entry : ReleaseScheduleEntry)
    (accumulated : Nat × List ReleaseScheduleEntry) :
    unlockAmountsUntil.updateEntry hash ts entry accumulated =
      ((unlockEntryUntil hash ts entry).1 + accumulated.1,
        match (unlockEntryUntil hash ts entry).2 with
        | some entry' => insertEntry entry' accumulated.2
        | none => accumulated.2) := by
  unfold unlockAmountsUntil.updateEntry
  cases unlockEntryUntil hash ts entry with
  | mk amount remaining => cases remaining <;> rfl

/-- The fold of `unlockAmountsUntil`: the amount is the sum of what each elapsed entry unlocks,
and the entries are the static ones with what remains of the elapsed ones inserted. -/
theorem foldr_updateEntry (ts : Nat) :
    ∀ (elapsed statics : List ReleaseScheduleEntry), Sorted rseSortKey statics →
      let result := elapsed.foldr (unlockAmountsUntil.updateEntry hash ts) (0, statics)
      result.1 = (elapsed.map fun entry => (unlockEntryUntil hash ts entry).1).sum ∧
        Sorted rseSortKey result.2 ∧
        result.2.Perm (statics ++ elapsed.filterMap fun entry => (unlockEntryUntil hash ts entry).2)
  | [], statics, sorted => ⟨rfl, sorted, by rw [List.filterMap_nil, List.append_nil]; rfl⟩
  | entry :: rest, statics, sorted => by
      obtain ⟨restAmount, restSorted, restPerm⟩ := foldr_updateEntry ts rest statics sorted
      simp only [List.foldr_cons, updateEntry_eq, List.map_cons, List.sum_cons,
        List.filterMap_cons]
      refine ⟨by rw [restAmount], ?_⟩
      cases (unlockEntryUntil hash ts entry).2 with
      | none => exact ⟨restSorted, restPerm⟩
      | some entry' =>
          refine ⟨insertEntry_sorted entry' restSorted, ?_⟩
          -- the remainder goes in front of the rest's entries; bring it to its place
          exact (insertEntry_perm entry' _).trans
            ((restPerm.cons entry').trans List.perm_middle.symm)

theorem nextReleaseTimestamp_eq (schedule : AccountReleaseSchedule) :
    nextReleaseTimestamp schedule = schedule.arsReleases.head?.map rseNextTimestamp := by
  unfold nextReleaseTimestamp
  cases schedule.arsReleases <;> rfl

/-- What `unlockAmountsUntil` does to a schedule in order: the amount is the sum of what the
entries due by `ts` unlock; the next release time is the first entry's; and the new entries
are in order, the entries not yet due with what remains of the due ones. -/
theorem unlockAmountsUntil_spec (ts : Nat) (schedule : AccountReleaseSchedule)
    (sorted : Sorted rseSortKey schedule.arsReleases) :
    let result := unlockAmountsUntil hash ts schedule
    let elapsed := schedule.arsReleases.filter (Elapsed ts)
    result.1 = (elapsed.map fun entry => (unlockEntryUntil hash ts entry).1).sum ∧
      result.2.1 = result.2.2.arsReleases.head?.map rseNextTimestamp ∧
      Sorted rseSortKey result.2.2.arsReleases ∧
      result.2.2.arsReleases.Perm
        (schedule.arsReleases.filter (fun entry => !Elapsed ts entry) ++
          elapsed.filterMap fun entry => (unlockEntryUntil hash ts entry).2) := by
  have takeElapsed := SortedKey.takeWhile_eq_filter (Elapsed ts) (elapsed_closed ts) sorted
  have dropElapsed := SortedKey.dropWhile_eq_filter (Elapsed ts) (elapsed_closed ts) sorted
  have staticSorted :
      Sorted rseSortKey (schedule.arsReleases.filter fun entry => !Elapsed ts entry) :=
    sorted.sublist List.filter_sublist
  obtain ⟨amount, resultSorted, resultPerm⟩ :=
    foldr_updateEntry hash ts (schedule.arsReleases.filter (Elapsed ts)) _ staticSorted
  unfold unlockAmountsUntil
  rw [List.span_eq_takeWhile_dropWhile]
  change _ = _ ∧ nextReleaseTimestamp _ = _ ∧ _
  rw [show (fun entry => !decide (ts < rseNextTimestamp entry)) = Elapsed ts from rfl,
    takeElapsed, dropElapsed, nextReleaseTimestamp_eq]
  exact ⟨amount, rfl, resultSorted, resultPerm⟩

end Concordium.GlobalState.Basic.BlockState.AccountReleaseScheduleV1
