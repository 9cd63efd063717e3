import Concordium.GlobalState.TransactionTable
import Concordium.Library.AscMap
import Concordium.Library.KeyedPurge

/-!
Contract: `purgeTables` of `Concordium.GlobalState.PurgeTransactions`, which drops from the
transaction table and the pending transaction table the items that no live block holds and that
are too old, and what it does to the items at one nonce or sequence number and to all the items
of one account or update type.

Owns:
- the transaction table: `BlockItem`, `LiveTransactionStatus`, the hash table, the non-finalized
  transactions of an account by nonce and the non-finalized chain updates of a type by sequence
  number (ordered maps; the hash map of accounts is folded in the order of its key type);
- `tooOld`, `removable`, `purgeTxs` and `purgeUpds` (one body, `purgeNumber`), `updptt`,
  `purgeAccount`, `purgeDC` and `purgeDeployCredentials`, `purgeUpdates` and `purgeTables`;
- `purgeNumber_eq`: at one number the kept items are those not dropped given the table, which
  loses the entries of the dropped ones; `traverseMaybeWithKey_purgeNumber`: the same over all
  the numbers of an account or an update type, with the greatest number left;
- `foldl_purgeDC`: folding `purgeDC` over the pending credentials, in any order, is
  `purgeDeployCredentials`.

Does not own: the invariants the purge keeps (`Concordium.GlobalState.PurgeTransactions.Invariant`).
-/

set_option autoImplicit false

namespace Concordium.GlobalState.PurgeTransactions

open Concordium.GlobalState.TransactionTable (PendingTransactionTable)
open KeyedPurge

/-- `BIMetadata`: the hash and the arrival time of an item. -/
class BIMetadata (α : Type) (Hash : outParam Type) where
  biHash : α → Hash
  biArrivalTime : α → Nat

/-- `HasMessageExpiry`: the time after which an item is no longer valid. -/
class HasMessageExpiry (α : Type) where
  msgExpiry : α → Nat

open BIMetadata HasMessageExpiry

/-- A block item of the hash table: a normal transaction, a credential deployment or a chain
update, each with its metadata. -/
inductive BlockItem (Tx Cred Upd : Type) where
  | normalTransaction (tx : Tx)
  | credentialDeployment (cred : Cred)
  | chainUpdate (upd : Upd)
deriving DecidableEq

variable {Hash Tx Cred Upd V R : Type}

instance [BIMetadata Tx Hash] [BIMetadata Cred Hash] [BIMetadata Upd Hash] :
    BIMetadata (BlockItem Tx Cred Upd) Hash where
  biHash
    | .normalTransaction tx => biHash tx
    | .credentialDeployment cred => biHash cred
    | .chainUpdate upd => biHash upd
  biArrivalTime
    | .normalTransaction tx => biArrivalTime tx
    | .credentialDeployment cred => biArrivalTime cred
    | .chainUpdate upd => biArrivalTime upd

instance [HasMessageExpiry Tx] [HasMessageExpiry Cred] [HasMessageExpiry Upd] :
    HasMessageExpiry (BlockItem Tx Cred Upd) where
  msgExpiry
    | .normalTransaction tx => msgExpiry tx
    | .credentialDeployment cred => msgExpiry cred
    | .chainUpdate upd => msgExpiry upd

/-- `LiveTransactionStatus`: an item no block outcome is known for, or one committed in blocks;
both record the greatest commit point of a block holding it. -/
inductive LiveTransactionStatus (V R : Type) where
  | received (tsCommitPoint : Nat) (tsVerRes : V)
  | committed (tsCommitPoint : Nat) (tsVerRes : V) (tsResults : R)

def LiveTransactionStatus.tsCommitPoint : LiveTransactionStatus V R → Nat
  | .received tsCommitPoint _ => tsCommitPoint
  | .committed tsCommitPoint _ _ => tsCommitPoint

/-- `TransactionHashTable`: each hash with its item and status. -/
abbrev TransactionHashTable (Hash Tx Cred Upd V R : Type) :=
  Hash → Option (BlockItem Tx Cred Upd × LiveTransactionStatus V R)

/-- `AccountNonFinalizedTransactions`: an account's transactions, with their verification
results, by nonce. -/
structure AccountNonFinalizedTransactions (Tx V : Type) [LinearOrder Tx] where
  anftMap : AscMap Nat (AscMap Tx V)

/-- `NonFinalizedChainUpdates`: the chain updates of one type, with their verification results,
by sequence number. -/
structure NonFinalizedChainUpdates (Upd V : Type) [LinearOrder Upd] where
  nfcuMap : AscMap Nat (AscMap Upd V)
  nfcuNextSequenceNumber : Nat

/-- `TransactionTable`. -/
structure TransactionTable (Account Hash Update Tx Cred Upd V R : Type) [LinearOrder Account]
    [LinearOrder Update] [LinearOrder Tx] [LinearOrder Upd] where
  ttHashMap : TransactionHashTable Hash Tx Cred Upd V R
  ttNonFinalizedTransactions : AscMap Account (AccountNonFinalizedTransactions Tx V)
  ttNonFinalizedChainUpdates : AscMap Update (NonFinalizedChainUpdates Upd V)

/-! ## The tests of `purgeTables` -/

/-- `tooOld`: the item arrived before the oldest permitted arrival time, or has expired.
`transactionExpired` is the library's test of an expiry time against the current time. -/
def tooOld {α : Type} [BIMetadata α Hash] [HasMessageExpiry α]
    (transactionExpired : Nat → Nat → Bool) (oldestArrivalTime currentTime : Nat) (tx : α) :
    Bool :=
  decide (biArrivalTime tx < oldestArrivalTime) || transactionExpired (msgExpiry tx) currentTime

/-- `removable`: the hash table's entry shows no block after the last finalized one holds the
item; an item the table lacks is never removable. -/
def removable (lastFinCommitPoint : Nat) :
    Option (BlockItem Tx Cred Upd × LiveTransactionStatus V R) → Bool
  | some (_, .received tsCommitPoint _) => decide (tsCommitPoint ≤ lastFinCommitPoint)
  | some (_, .committed tsCommitPoint _ _) => decide (tsCommitPoint ≤ lastFinCommitPoint)
  | none => false

section Metadata

variable [BIMetadata Tx Hash] [BIMetadata Cred Hash] [BIMetadata Upd Hash]

@[simp]
theorem biHash_normalTransaction (tx : Tx) :
    biHash (BlockItem.normalTransaction tx : BlockItem Tx Cred Upd) = biHash tx :=
  rfl

@[simp]
theorem biHash_chainUpdate (upd : Upd) :
    biHash (BlockItem.chainUpdate upd : BlockItem Tx Cred Upd) = biHash upd :=
  rfl

variable [HasMessageExpiry Tx] [HasMessageExpiry Cred] [HasMessageExpiry Upd]

@[simp]
theorem tooOld_normalTransaction (transactionExpired : Nat → Nat → Bool)
    (oldestArrivalTime currentTime : Nat) (tx : Tx) :
    tooOld transactionExpired oldestArrivalTime currentTime
        (BlockItem.normalTransaction tx : BlockItem Tx Cred Upd) =
      tooOld transactionExpired oldestArrivalTime currentTime tx :=
  rfl

@[simp]
theorem tooOld_chainUpdate (transactionExpired : Nat → Nat → Bool)
    (oldestArrivalTime currentTime : Nat) (upd : Upd) :
    tooOld transactionExpired oldestArrivalTime currentTime
        (BlockItem.chainUpdate upd : BlockItem Tx Cred Upd) =
      tooOld transactionExpired oldestArrivalTime currentTime upd :=
  rfl

end Metadata

theorem removable_eq_true_iff (lastFinCommitPoint : Nat)
    (entry : Option (BlockItem Tx Cred Upd × LiveTransactionStatus V R)) :
    removable lastFinCommitPoint entry = true ↔
      ∃ item status, entry = some (item, status) ∧ status.tsCommitPoint ≤ lastFinCommitPoint := by
  match entry with
  | none => simp [removable]
  | some (item, .received tsCommitPoint tsVerRes) =>
      simp [removable, LiveTransactionStatus.tsCommitPoint]
  | some (item, .committed tsCommitPoint tsVerRes tsResults) =>
      simp [removable, LiveTransactionStatus.tsCommitPoint]

/-! ## What is kept -/

/-- The hash of an item with its verification result. -/
def itemHash {α : Type} [BIMetadata α Hash] (entry : α × V) : Hash :=
  biHash entry.1

@[simp]
theorem itemHash_mk {α : Type} [BIMetadata α Hash] (item : α) (verRes : V) :
    itemHash (item, verRes) = biHash item :=
  rfl

/-- The items at one number the purge keeps, given the table and the test that drops an item. -/
def keptItems {α : Type} [LinearOrder α] [BIMetadata α Hash]
    (drop : α × V → Option (BlockItem Tx Cred Upd × LiveTransactionStatus V R) → Bool)
    (table : TransactionHashTable Hash Tx Cred Upd V R) (ts : AscMap α V) : AscMap α V :=
  ts.filterWithKey fun tx verRes => !drop (tx, verRes) (table (biHash tx))

/-- What is left at one number, if anything is. -/
def keptAt {α : Type} [LinearOrder α] [BIMetadata α Hash]
    (drop : α × V → Option (BlockItem Tx Cred Upd × LiveTransactionStatus V R) → Bool)
    (table : TransactionHashTable Hash Tx Cred Upd V R) (ts : AscMap α V) : Option (AscMap α V) :=
  if (keptItems drop table ts).null then none else some (keptItems drop table ts)

/-- The numbers of an account or update type, each with what is left there; a number with
nothing left goes. -/
def keptNumbers {α : Type} [LinearOrder α] [BIMetadata α Hash]
    (drop : α × V → Option (BlockItem Tx Cred Upd × LiveTransactionStatus V R) → Bool)
    (table : TransactionHashTable Hash Tx Cred Upd V R) (numbered : AscMap Nat (AscMap α V)) :
    AscMap Nat (AscMap α V) :=
  numbered.mapMaybeWithKey fun _ ts => keptAt drop table ts

/-- The items of an account or update type, number by number. -/
def numberedItems {α : Type} [LinearOrder α] (numbered : AscMap Nat (AscMap α V)) : List (α × V) :=
  numbered.toAscList.flatMap fun entry => entry.2.toAscList

section Kept

variable {α : Type} [LinearOrder α] [BIMetadata α Hash]
  {drop : α × V → Option (BlockItem Tx Cred Upd × LiveTransactionStatus V R) → Bool}

/-- What is kept depends on the table only at the hashes of the items. -/
theorem keptAt_congr {first second : TransactionHashTable Hash Tx Cred Upd V R} {ts : AscMap α V}
    (agree : ∀ entry ∈ ts.toAscList, first (itemHash entry) = second (itemHash entry)) :
    keptAt drop first ts = keptAt drop second ts := by
  have kept : keptItems drop first ts = keptItems drop second ts :=
    AscMap.ext_toAscList (List.filter_congr fun entry listed => by
      show (!drop (entry.1, entry.2) (first (itemHash entry))) =
        !drop (entry.1, entry.2) (second (itemHash entry))
      rw [agree entry listed])
  rw [keptAt, keptAt, kept]

theorem lookup_keptItems (table : TransactionHashTable Hash Tx Cred Upd V R) (ts : AscMap α V)
    (tx : α) (verRes : V) :
    (keptItems drop table ts).lookup tx = some verRes ↔
      ts.lookup tx = some verRes ∧ drop (tx, verRes) (table (biHash tx)) = false := by
  rw [keptItems, AscMap.lookup_filterWithKey, Option.filter_eq_some_iff, Bool.not_eq_true']

theorem lookup_keptNumbers (table : TransactionHashTable Hash Tx Cred Upd V R)
    (numbered : AscMap Nat (AscMap α V)) (n : Nat) :
    (keptNumbers drop table numbered).lookup n =
      (numbered.lookup n).bind (keptAt drop table) :=
  AscMap.lookup_mapMaybeWithKey _ numbered n

theorem keptNumbers_congr {first second : TransactionHashTable Hash Tx Cred Upd V R}
    {numbered : AscMap Nat (AscMap α V)}
    (agree : ∀ entry ∈ numberedItems numbered, first (itemHash entry) = second (itemHash entry)) :
    keptNumbers drop first numbered = keptNumbers drop second numbered :=
  AscMap.ext_toAscList (List.filterMap_congr fun entry listed => by
    show (keptAt drop first entry.2).map (entry.1, ·) = (keptAt drop second entry.2).map (entry.1, ·)
    rw [keptAt_congr fun item itemListed =>
      agree item (List.mem_flatMap.mpr ⟨entry, listed, itemListed⟩)])

theorem keptAt_eq_some {table : TransactionHashTable Hash Tx Cred Upd V R} {ts kept : AscMap α V}
    (left : keptAt drop table ts = some kept) :
    kept = keptItems drop table ts ∧ kept.null = false := by
  rw [keptAt] at left
  split_ifs at left with empty
  cases left
  exact ⟨rfl, Bool.eq_false_iff.mpr empty⟩

/-- An item is kept at a number exactly when it was there and is not dropped. -/
theorem kept_iff (table : TransactionHashTable Hash Tx Cred Upd V R)
    (numbered : AscMap Nat (AscMap α V)) (n : Nat) (tx : α) (verRes : V) :
    (∃ items, (keptNumbers drop table numbered).lookup n = some items ∧
        items.lookup tx = some verRes) ↔
      (∃ items, numbered.lookup n = some items ∧ items.lookup tx = some verRes) ∧
        drop (tx, verRes) (table (biHash tx)) = false := by
  rw [lookup_keptNumbers]
  constructor
  · rintro ⟨kept, found, keptFound⟩
    obtain ⟨items, itemsFound, left⟩ := Option.bind_eq_some_iff.mp found
    obtain ⟨rfl, -⟩ := keptAt_eq_some left
    obtain ⟨itemFound, notDropped⟩ := (lookup_keptItems table items tx verRes).mp keptFound
    exact ⟨⟨items, itemsFound, itemFound⟩, notDropped⟩
  · rintro ⟨⟨items, itemsFound, itemFound⟩, notDropped⟩
    have keptFound := (lookup_keptItems table items tx verRes).mpr ⟨itemFound, notDropped⟩
    refine ⟨keptItems drop table items, ?_, keptFound⟩
    rw [itemsFound, Option.bind_some, keptAt, if_neg]
    rw [AscMap.null_eq_false_of_lookup keptFound]
    exact Bool.false_ne_true

end Kept

/-! ## The purge -/

section Purge

variable {Account Update : Type} [LinearOrder Account] [DecidableEq Hash] [LinearOrder Update]
  [LinearOrder Tx] [LinearOrder Upd]
  [BIMetadata Tx Hash] [BIMetadata Cred Hash] [BIMetadata Upd Hash]
  [HasMessageExpiry Tx] [HasMessageExpiry Cred] [HasMessageExpiry Upd]
  (transactionExpired : Nat → Nat → Bool) (lastFinCommitPoint oldestArrivalTime currentTime : Nat)

/-- The guard of `purgeTx` and `purgeUpd`: the item is too old and its entry removable. -/
def dropItem {α : Type} [BIMetadata α Hash] [HasMessageExpiry α] (entry : α × V)
    (found : Option (BlockItem Tx Cred Upd × LiveTransactionStatus V R)) : Bool :=
  tooOld transactionExpired oldestArrivalTime currentTime entry.1 &&
    removable lastFinCommitPoint found

/-- `purgeTx` and `purgeUpd`: an item is dropped, with its entry in the hash table, when it is
too old and its entry removable; otherwise it is kept. -/
def purgeItem {α : Type} [BIMetadata α Hash] [HasMessageExpiry α] :
    List (α × V) × TransactionHashTable Hash Tx Cred Upd V R → α × V →
      List (α × V) × TransactionHashTable Hash Tx Cred Upd V R :=
  purgeStep itemHash
    (dropItem transactionExpired lastFinCommitPoint oldestArrivalTime currentTime)

/-- The body of `purgeTxs` and `purgeUpds`: purge the items at number `n`, the greatest first,
and record `n` as the greatest number left when an item is left there. -/
def purgeNumber {α : Type} [LinearOrder α] [BIMetadata α Hash] [HasMessageExpiry α] (n : Nat)
    (ts : AscMap α V) (state : Option Nat × TransactionHashTable Hash Tx Cred Upd V R) :
    Option (AscMap α V) × (Option Nat × TransactionHashTable Hash Tx Cred Upd V R) :=
  -- `foldl'` over `Map.toDescList` conses, so what is left comes out ascending
  let purged := ts.toAscList.reverse.foldl
    (purgeItem transactionExpired lastFinCommitPoint oldestArrivalTime currentTime) ([], state.2)
  if purged.1.isEmpty then (none, (state.1, purged.2))
  else (some (AscMap.fromAscList purged.1), (Option.max state.1 (some n), purged.2))

/-- `purgeTxs`: the transactions of an account at nonce `n`. -/
def purgeTxs : Nat → AscMap Tx V → Option Nat × TransactionHashTable Hash Tx Cred Upd V R →
    Option (AscMap Tx V) × (Option Nat × TransactionHashTable Hash Tx Cred Upd V R) :=
  purgeNumber transactionExpired lastFinCommitPoint oldestArrivalTime currentTime

/-- `purgeUpds`: the chain updates of a type at sequence number `n` (`Map.fromDistinctAscList`
there is `AscMap.fromAscList` here, which agrees on the ascending list it is given). -/
def purgeUpds : Nat → AscMap Upd V → Option Nat × TransactionHashTable Hash Tx Cred Upd V R →
    Option (AscMap Upd V) × (Option Nat × TransactionHashTable Hash Tx Cred Upd V R) :=
  purgeNumber transactionExpired lastFinCommitPoint oldestArrivalTime currentTime

/-- `updptt`: a pending range keeps its low end and takes the greatest number left as its high
end; it goes when nothing at or above its low end is left. -/
def updptt : Option Nat → Option (Nat × Nat) → Option (Nat × Nat)
  | some newHigh, some (low, _) => if newHigh < low then none else some (low, newHigh)
  | _, _ => none

theorem updptt_eq_some {newHigh : Option Nat} {range : Option (Nat × Nat)} {low high : Nat}
    (updated : updptt newHigh range = some (low, high)) :
    newHigh = some high ∧ (∃ old, range = some (low, old)) ∧ low ≤ high := by
  match newHigh, range, updated with
  | some newHigh, some (low', old), updated =>
      simp only [updptt] at updated
      split_ifs at updated with below
      cases updated
      exact ⟨rfl, ⟨old, rfl⟩, Nat.le_of_not_lt below⟩

/-- `purgeAccount`: purge an account's transactions nonce by nonce, keep the account only if
some are left, and update its pending range. -/
def purgeAccount
    (acc : AscMap Account (AccountNonFinalizedTransactions Tx V) ×
      (PendingTransactionTable Account Hash Update × TransactionHashTable Hash Tx Cred Upd V R))
    (addr : Account) (anft : AccountNonFinalizedTransactions Tx V) :
    AscMap Account (AccountNonFinalizedTransactions Tx V) ×
      (PendingTransactionTable Account Hash Update × TransactionHashTable Hash Tx Cred Upd V R) :=
  let traversed := anft.anftMap.traverseMaybeWithKey
    (purgeTxs transactionExpired lastFinCommitPoint oldestArrivalTime currentTime) (none, acc.2.2)
  let ptt1 := { acc.2.1 with
    pttWithSender := Function.update acc.2.1.pttWithSender addr
      (updptt traversed.2.1 (acc.2.1.pttWithSender addr)) }
  (if traversed.1.null then acc.1 else acc.1.insert addr ⟨traversed.1⟩, (ptt1, traversed.2.2))

/-- `p` of `purgeDeployCredentials`: an entry goes when its item is too old and removable. -/
def purgeCredentialEntry :
    Option (BlockItem Tx Cred Upd × LiveTransactionStatus V R) →
      Option (BlockItem Tx Cred Upd × LiveTransactionStatus V R)
  | none => none
  | some (bi, status) =>
      if tooOld transactionExpired oldestArrivalTime currentTime bi &&
          removable lastFinCommitPoint (some (bi, status)) then none
      else some (bi, status)

/-- `purgeDC`: a pending credential whose entry is gone, or goes now, leaves the pending set. -/
def purgeDC (acc : (Hash → Bool) × TransactionHashTable Hash Tx Cred Upd V R) (cdihash : Hash) :
    (Hash → Bool) × TransactionHashTable Hash Tx Cred Upd V R :=
  match purgeCredentialEntry transactionExpired lastFinCommitPoint oldestArrivalTime currentTime
      (acc.2 cdihash) with
  | none => (Function.update acc.1 cdihash false, Function.update acc.2 cdihash none)
  | some _ => acc

/-- Whether `purgeDC` takes a pending credential out, given the table. -/
def credentialPurged (dc : Hash → Bool) (table : TransactionHashTable Hash Tx Cred Upd V R)
    (cdihash : Hash) : Bool :=
  dc cdihash && (purgeCredentialEntry transactionExpired lastFinCommitPoint oldestArrivalTime
    currentTime (table cdihash)).isNone

/-- `purgeDeployCredentials`, each pending credential at once. The source folds `purgeDC` over
the pending set in the order the set has; `foldl_purgeDC` shows every order gives this. -/
def purgeDeployCredentials
    (state : PendingTransactionTable Account Hash Update × TransactionHashTable Hash Tx Cred Upd V R) :
    PendingTransactionTable Account Hash Update × TransactionHashTable Hash Tx Cred Upd V R :=
  let purged := credentialPurged transactionExpired lastFinCommitPoint oldestArrivalTime currentTime
    state.1.pttDeployCredential state.2
  ({ state.1 with pttDeployCredential := fun cdihash =>
      state.1.pttDeployCredential cdihash && !purged cdihash },
    fun cdihash => if purged cdihash then none else state.2 cdihash)

/-- `purgeUpdates`: purge the chain updates of a type sequence number by sequence number, and
update its pending range; the type stays in the map. -/
def purgeUpdates (uty : Update) (nfcu : NonFinalizedChainUpdates Upd V)
    (state : PendingTransactionTable Account Hash Update × TransactionHashTable Hash Tx Cred Upd V R) :
    NonFinalizedChainUpdates Upd V ×
      (PendingTransactionTable Account Hash Update × TransactionHashTable Hash Tx Cred Upd V R) :=
  let traversed := nfcu.nfcuMap.traverseMaybeWithKey
    (purgeUpds transactionExpired lastFinCommitPoint oldestArrivalTime currentTime) (none, state.2)
  let ptt1 := { state.1 with
    pttUpdates := Function.update state.1.pttUpdates uty
      (updptt traversed.2.1 (state.1.pttUpdates uty)) }
  ({ nfcu with nfcuMap := traversed.1 }, (ptt1, traversed.2.2))

/-- `purgeTables`: purge the accounts, then the credential deployments, then the chain updates. -/
def purgeTables (tt : TransactionTable Account Hash Update Tx Cred Upd V R)
    (ptable : PendingTransactionTable Account Hash Update) :
    TransactionTable Account Hash Update Tx Cred Upd V R ×
      PendingTransactionTable Account Hash Update :=
  let accounts := tt.ttNonFinalizedTransactions.foldlWithKey
    (purgeAccount transactionExpired lastFinCommitPoint oldestArrivalTime currentTime)
    (AscMap.empty, (ptable, tt.ttHashMap))
  let credentials := purgeDeployCredentials transactionExpired lastFinCommitPoint
    oldestArrivalTime currentTime accounts.2
  let updates := tt.ttNonFinalizedChainUpdates.traverseWithKey
    (purgeUpdates transactionExpired lastFinCommitPoint oldestArrivalTime currentTime) credentials
  ({ ttHashMap := updates.2.2, ttNonFinalizedTransactions := accounts.1,
      ttNonFinalizedChainUpdates := updates.1 }, updates.2.1)

end Purge

/-! ## One number, then all the numbers of an account or update type -/

section Traversal

variable [DecidableEq Hash] (transactionExpired : Nat → Nat → Bool)
  (lastFinCommitPoint oldestArrivalTime currentTime : Nat)
  {α : Type} [LinearOrder α] [BIMetadata α Hash] [HasMessageExpiry α]

/-- At one number, with the hashes of its items distinct, the purge keeps the items not dropped
given the table and deletes the entries of the dropped ones. -/
theorem purgeNumber_eq (n : Nat) (ts : AscMap α V) (mm : Option Nat)
    (table : TransactionHashTable Hash Tx Cred Upd V R)
    (distinct : (ts.toAscList.map itemHash).Nodup) :
    purgeNumber transactionExpired lastFinCommitPoint oldestArrivalTime currentTime n ts
        (mm, table) =
      (keptAt (dropItem transactionExpired lastFinCommitPoint oldestArrivalTime currentTime)
          table ts,
        (if (keptItems (dropItem transactionExpired lastFinCommitPoint oldestArrivalTime
            currentTime) table ts).null then mm else Option.max mm (some n),
          purgedTable itemHash
            (dropItem transactionExpired lastFinCommitPoint oldestArrivalTime currentTime)
            ts.toAscList table)) := by
  have distinctReversed : (ts.toAscList.reverse.map itemHash).Nodup := by
    rwa [List.map_reverse, List.nodup_reverse]
  -- the fold runs over the items greatest first, which changes neither what is kept nor the table
  have sameTable : purgedTable itemHash
      (dropItem transactionExpired lastFinCommitPoint oldestArrivalTime currentTime)
      ts.toAscList.reverse table =
        purgedTable itemHash
          (dropItem transactionExpired lastFinCommitPoint oldestArrivalTime currentTime)
          ts.toAscList table :=
    purgedTable_congr (fun _ => List.mem_reverse) table
  have keptList : (ts.toAscList.filter fun element =>
      !dropItem transactionExpired lastFinCommitPoint oldestArrivalTime currentTime element
        (table (itemHash element))) =
        (keptItems (dropItem transactionExpired lastFinCommitPoint oldestArrivalTime currentTime)
          table ts).toAscList :=
    rfl
  simp only [purgeNumber, purgeItem, foldl_purgeStep _ distinctReversed, List.filter_reverse,
    List.reverse_reverse, List.append_nil, sameTable, keptList, keptAt, AscMap.null]
  by_cases empty : (keptItems (dropItem transactionExpired lastFinCommitPoint oldestArrivalTime
    currentTime) table ts).toAscList.isEmpty
  · simp only [empty, if_true]
  · simp only [empty, Bool.false_eq_true, if_false, AscMap.fromAscList_self]

/-- Over the numbers of an account or update type, with the hashes of all their items distinct,
the purge keeps at each number what `keptAt` keeps given the table it starts from, records the
greatest number with something left, and deletes the entries of all the dropped items. -/
theorem traverseMaybeEntries_purgeNumber :
    ∀ (entries : List (Nat × AscMap α V)) (mm : Option Nat)
      (table : TransactionHashTable Hash Tx Cred Upd V R),
      ((entries.flatMap fun entry => entry.2.toAscList).map itemHash).Nodup →
      AscMap.traverseMaybeEntries
          (purgeNumber transactionExpired lastFinCommitPoint oldestArrivalTime currentTime)
          entries (mm, table) =
        (entries.filterMap fun entry => (keptAt (dropItem transactionExpired lastFinCommitPoint
            oldestArrivalTime currentTime) table entry.2).map (entry.1, ·),
          (((entries.filterMap fun entry => (keptAt (dropItem transactionExpired
              lastFinCommitPoint oldestArrivalTime currentTime) table entry.2).map
                (entry.1, ·)).map Prod.fst).foldl (fun acc n => Option.max acc (some n)) mm,
            purgedTable itemHash
              (dropItem transactionExpired lastFinCommitPoint oldestArrivalTime currentTime)
              (entries.flatMap fun entry => entry.2.toAscList) table))
  | [], mm, table, _ => rfl
  | (n, ts) :: rest, mm, table, distinct => by
      rw [List.flatMap_cons, List.map_append, List.nodup_append] at distinct
      obtain ⟨distinctHere, distinctLater, apart⟩ := distinct
      have disjoint : ∀ earlier ∈ ts.toAscList,
          ∀ later ∈ rest.flatMap (fun entry => entry.2.toAscList),
            itemHash earlier ≠ itemHash later := fun earlier listed later laterListed =>
        apart _ (List.mem_map_of_mem listed) _ (List.mem_map_of_mem laterListed)
      -- the later numbers see the table this one leaves, which agrees with the first at their items
      have laterKept : (rest.filterMap fun entry => (keptAt (dropItem transactionExpired
          lastFinCommitPoint oldestArrivalTime currentTime) (purgedTable itemHash
            (dropItem transactionExpired lastFinCommitPoint oldestArrivalTime currentTime)
            ts.toAscList table) entry.2).map (entry.1, ·)) =
          rest.filterMap fun entry => (keptAt (dropItem transactionExpired lastFinCommitPoint
            oldestArrivalTime currentTime) table entry.2).map (entry.1, ·) :=
        List.filterMap_congr fun entry listed => by
          rw [keptAt_congr fun item itemListed => purgedTable_of_forall_ne fun earlier
            earlierListed => disjoint earlier earlierListed item
              (List.mem_flatMap.mpr ⟨entry, listed, itemListed⟩)]
      rw [AscMap.traverseMaybeEntries, purgeNumber_eq transactionExpired lastFinCommitPoint
        oldestArrivalTime currentTime n ts mm table distinctHere]
      simp only []
      rw [traverseMaybeEntries_purgeNumber rest _ _ distinctLater, laterKept,
        purgedTable_append _ _ table disjoint, List.filterMap_cons, List.flatMap_cons]
      by_cases empty : (keptItems (dropItem transactionExpired lastFinCommitPoint
        oldestArrivalTime currentTime) table ts).null
      · simp only [keptAt, if_pos empty, Option.map_none]
      · simp only [keptAt, if_neg empty, Option.map_some, List.map_cons, List.foldl_cons]

/-- `traverseMaybeEntries_purgeNumber` on the map of an account or update type. -/
theorem traverseMaybeWithKey_purgeNumber (numbered : AscMap Nat (AscMap α V)) (mm : Option Nat)
    (table : TransactionHashTable Hash Tx Cred Upd V R)
    (distinct : ((numberedItems numbered).map itemHash).Nodup) :
    numbered.traverseMaybeWithKey
        (purgeNumber transactionExpired lastFinCommitPoint oldestArrivalTime currentTime)
        (mm, table) =
      (keptNumbers (dropItem transactionExpired lastFinCommitPoint oldestArrivalTime currentTime)
          table numbered,
        ((keptNumbers (dropItem transactionExpired lastFinCommitPoint oldestArrivalTime
          currentTime) table numbered).keys.foldl (fun acc n => Option.max acc (some n)) mm,
          purgedTable itemHash
            (dropItem transactionExpired lastFinCommitPoint oldestArrivalTime currentTime)
            (numberedItems numbered) table)) := by
  have traversed := traverseMaybeEntries_purgeNumber transactionExpired lastFinCommitPoint
    oldestArrivalTime currentTime numbered.toAscList mm table distinct
  simp only [AscMap.traverseMaybeWithKey, traversed]
  rfl

end Traversal

/-! ## A dropped item -/

section Dropped

variable (transactionExpired : Nat → Nat → Bool)
  (lastFinCommitPoint oldestArrivalTime currentTime : Nat)

theorem dropItem_eq_true {α : Type} [BIMetadata α Hash] [HasMessageExpiry α] {entry : α × V}
    {item : BlockItem Tx Cred Upd} {status : LiveTransactionStatus V R}
    (dropped : dropItem transactionExpired lastFinCommitPoint oldestArrivalTime currentTime entry
      (some (item, status)) = true) :
    tooOld transactionExpired oldestArrivalTime currentTime entry.1 = true ∧
      status.tsCommitPoint ≤ lastFinCommitPoint := by
  rw [dropItem, Bool.and_eq_true] at dropped
  obtain ⟨old, removableHere⟩ := dropped
  obtain ⟨_, _, same, below⟩ := (removable_eq_true_iff _ _).mp removableHere
  cases same
  exact ⟨old, below⟩

end Dropped

/-! ## The greatest number left -/

theorem foldl_max_some :
    ∀ (numbers : List Nat) (first : Nat),
      numbers.foldl (fun acc n => Option.max acc (some n)) (some first) =
        some (numbers.foldl max first)
  | [], _ => rfl
  | next :: rest, first => foldl_max_some rest (max first next)

/-- The greatest number left, accumulated as `purgeNumber` does from nothing, is the greatest of
the numbers left. -/
theorem foldl_max_none (numbers : List Nat) :
    numbers.foldl (fun acc n => Option.max acc (some n)) none = numbers.max? := by
  cases numbers with
  | nil => rfl
  | cons first rest => exact foldl_max_some rest first

/-! ## The pending credentials -/

section Credentials

variable {Account Update : Type} [DecidableEq Hash]
  [BIMetadata Tx Hash] [BIMetadata Cred Hash] [BIMetadata Upd Hash]
  [HasMessageExpiry Tx] [HasMessageExpiry Cred] [HasMessageExpiry Upd]
  (transactionExpired : Nat → Nat → Bool) (lastFinCommitPoint oldestArrivalTime currentTime : Nat)

omit [DecidableEq Hash] in
/-- An entry the credential purge deletes was too old and removable. -/
theorem purgeCredentialEntry_eq_none {item : BlockItem Tx Cred Upd}
    {status : LiveTransactionStatus V R}
    (gone : purgeCredentialEntry transactionExpired lastFinCommitPoint oldestArrivalTime
      currentTime (some (item, status)) = none) :
    tooOld transactionExpired oldestArrivalTime currentTime item = true ∧
      status.tsCommitPoint ≤ lastFinCommitPoint := by
  rw [purgeCredentialEntry] at gone
  split_ifs at gone with stale
  rw [Bool.and_eq_true] at stale
  obtain ⟨old, removableHere⟩ := stale
  obtain ⟨_, _, same, below⟩ := (removable_eq_true_iff _ _).mp removableHere
  cases same
  exact ⟨old, below⟩

/-- Folding `purgeDC` over distinct hashes takes out of the pending set, and deletes from the
table, exactly those of them whose entry is gone or goes now. -/
theorem foldl_purgeDC_eq :
    ∀ (hashes : List Hash), hashes.Nodup →
      ∀ (dc : Hash → Bool) (table : TransactionHashTable Hash Tx Cred Upd V R),
        hashes.foldl (purgeDC transactionExpired lastFinCommitPoint oldestArrivalTime currentTime)
            (dc, table) =
          (fun cdihash => dc cdihash && !(decide (cdihash ∈ hashes) &&
              (purgeCredentialEntry transactionExpired lastFinCommitPoint oldestArrivalTime
                currentTime (table cdihash)).isNone),
            fun cdihash => if decide (cdihash ∈ hashes) &&
                (purgeCredentialEntry transactionExpired lastFinCommitPoint oldestArrivalTime
                  currentTime (table cdihash)).isNone then none
              else table cdihash)
  | [], _, dc, table => by simp
  | cdihash :: rest, distinct, dc, table => by
      rw [List.nodup_cons] at distinct
      rw [List.foldl_cons]
      simp only [purgeDC]
      split
      · -- the credential's entry is gone or goes: it leaves the set and the table
        rename_i gone
        rw [foldl_purgeDC_eq rest distinct.2]
        refine Prod.ext (funext fun other => ?_) (funext fun other => ?_)
        all_goals
          by_cases same : other = cdihash
          · subst same
            simp [distinct.1, gone]
          · simp [same]
      · -- the credential's entry stays: nothing changes
        rename_i entry stays
        rw [foldl_purgeDC_eq rest distinct.2]
        refine Prod.ext (funext fun other => ?_) (funext fun other => ?_)
        all_goals
          by_cases same : other = cdihash
          · subst same
            simp [distinct.1, stays]
          · simp [same]

/-- Folding `purgeDC` over the pending credentials, each listed once and in any order, is
`purgeDeployCredentials`. -/
theorem foldl_purgeDC (ptt : PendingTransactionTable Account Hash Update)
    (table : TransactionHashTable Hash Tx Cred Upd V R) (hashes : List Hash)
    (distinct : hashes.Nodup)
    (enumerates : ∀ cdihash, cdihash ∈ hashes ↔ ptt.pttDeployCredential cdihash = true) :
    hashes.foldl (purgeDC transactionExpired lastFinCommitPoint oldestArrivalTime currentTime)
        (ptt.pttDeployCredential, table) =
      ((purgeDeployCredentials transactionExpired lastFinCommitPoint oldestArrivalTime currentTime
          (ptt, table)).1.pttDeployCredential,
        (purgeDeployCredentials transactionExpired lastFinCommitPoint oldestArrivalTime currentTime
          (ptt, table)).2) := by
  have pending : ∀ cdihash, decide (cdihash ∈ hashes) = ptt.pttDeployCredential cdihash := by
    intro cdihash
    cases found : ptt.pttDeployCredential cdihash with
    | false =>
        refine decide_eq_false fun listed => ?_
        simp [(enumerates cdihash).mp listed] at found
    | true => exact decide_eq_true ((enumerates cdihash).mpr found)
  rw [foldl_purgeDC_eq transactionExpired lastFinCommitPoint oldestArrivalTime currentTime hashes
    distinct]
  simp only [pending, purgeDeployCredentials, credentialPurged]
  rfl

end Credentials

end Concordium.GlobalState.PurgeTransactions
