import Concordium.GlobalState.PurgeTransactions

/-!
Contract: the invariants of the transaction table that `purgeTables` keeps, what it removes and
what it leaves, and what becomes of each pending range.

Owns:
- `Recorded`, `recordedNumbers` and `indexItems`: what an index of the table (the transactions
  by account and nonce, or the chain updates by type and sequence number) records;
- `IndexInvariant` and `TableInvariant`: every recorded item is in the hash table and every
  transaction or chain update of the hash table is recorded under its hash, no number has an
  empty set, and a pending range ends at the greatest recorded number;
- the phases of `purgeTables` given the table each starts from (`foldl_purgeAccount`,
  `traverseEntries_purgeUpdates`, `purgeTables_eq`), which need the hashes of the recorded items
  to be distinct;
- that `purgeTables` keeps the invariants when, besides, no pending credential hash is the hash
  of a chain update; and an example where a chain update under a pending credential hash loses
  its entry while it stays recorded.

Does not own: the purge itself (`Concordium.GlobalState.PurgeTransactions`).
-/

set_option autoImplicit false

namespace Concordium.GlobalState.PurgeTransactions

open Concordium.GlobalState.TransactionTable (PendingTransactionTable)
open KeyedPurge BIMetadata

/-! ## What an index records -/

section Index

variable {κ β α V : Type} [LinearOrder κ] [LinearOrder α]

/-- `item` is recorded, with verification result `verRes`, under `key` at number `n`. -/
def Recorded (project : β → AscMap Nat (AscMap α V)) (index : AscMap κ β) (key : κ) (n : Nat)
    (item : α) (verRes : V) : Prop :=
  ∃ group items, index.lookup key = some group ∧ (project group).lookup n = some items ∧
    items.lookup item = some verRes

/-- The numbers recorded under `key`. -/
def recordedNumbers (project : β → AscMap Nat (AscMap α V)) (index : AscMap κ β) (key : κ) :
    List Nat :=
  match index.lookup key with
  | none => []
  | some group => (project group).keys

/-- The items of an index, group by group and number by number. -/
def indexItems (project : β → AscMap Nat (AscMap α V)) (index : AscMap κ β) : List (α × V) :=
  index.toAscList.flatMap fun entry => numberedItems (project entry.2)

theorem mem_indexItems {project : β → AscMap Nat (AscMap α V)} {index : AscMap κ β} {item : α}
    {verRes : V} :
    (item, verRes) ∈ indexItems project index ↔ ∃ key n, Recorded project index key n item verRes := by
  simp only [indexItems, numberedItems, List.mem_flatMap, Recorded]
  constructor
  · rintro ⟨⟨key, group⟩, groupListed, ⟨n, items⟩, itemsListed, itemListed⟩
    exact ⟨key, n, group, items, (AscMap.mem_iff_lookup _ _ _).mp groupListed,
      (AscMap.mem_iff_lookup _ _ _).mp itemsListed, (AscMap.mem_iff_lookup _ _ _).mp itemListed⟩
  · rintro ⟨key, n, group, items, groupFound, itemsFound, itemFound⟩
    exact ⟨(key, group), (AscMap.mem_iff_lookup _ _ _).mpr groupFound, (n, items),
      (AscMap.mem_iff_lookup _ _ _).mpr itemsFound, (AscMap.mem_iff_lookup _ _ _).mpr itemFound⟩

end Index

/-! ## The invariants -/

section Invariant

variable {Account Hash Update Tx Cred Upd V R : Type} [LinearOrder Account] [LinearOrder Update]
  [LinearOrder Tx] [LinearOrder Upd]

/-- The invariant that ties one index of the transaction table, the transactions by account or
the chain updates by type, to the hash table and to the pending table. -/
structure IndexInvariant {κ β α : Type} [LinearOrder κ] [LinearOrder α] [BIMetadata α Hash]
    (wrap : α → BlockItem Tx Cred Upd) (project : β → AscMap Nat (AscMap α V))
    (index : AscMap κ β) (table : TransactionHashTable Hash Tx Cred Upd V R)
    (pending : κ → Option (Nat × Nat)) : Prop where
  /-- every recorded item is in the hash table -/
  inTable : ∀ key n item verRes, Recorded project index key n item verRes →
    ∃ status, table (biHash item) = some (wrap item, status)
  /-- every item of this kind in the hash table is recorded, and is there under its hash -/
  indexed : ∀ hash item status, table hash = some (wrap item, status) →
    biHash item = hash ∧ ∃ key n verRes, Recorded project index key n item verRes
  /-- no number has an empty set of items -/
  nonEmpty : ∀ key group n items, index.lookup key = some group →
    (project group).lookup n = some items → items.null = false
  /-- a pending range ends at the greatest recorded number -/
  pendingHigh : ∀ key low high, pending key = some (low, high) →
    (recordedNumbers project index key).max? = some high

/-- The invariants of the transaction table and the pending table. -/
structure TableInvariant [BIMetadata Tx Hash] [BIMetadata Upd Hash]
    (tt : TransactionTable Account Hash Update Tx Cred Upd V R)
    (ptt : PendingTransactionTable Account Hash Update) : Prop where
  transactions : IndexInvariant BlockItem.normalTransaction AccountNonFinalizedTransactions.anftMap
    tt.ttNonFinalizedTransactions tt.ttHashMap ptt.pttWithSender
  updates : IndexInvariant BlockItem.chainUpdate NonFinalizedChainUpdates.nfcuMap
    tt.ttNonFinalizedChainUpdates tt.ttHashMap ptt.pttUpdates

/-- A pending range with low end `low`, after a purge that left the numbers `left`: gone when no
number at or above `low` is left, and otherwise ending at the greatest number left. -/
def PurgedRange (left : List Nat) (low : Nat) (range : Option (Nat × Nat)) : Prop :=
  (range = none ∧ ∀ n ∈ left, n < low) ∨
    ∃ high, left.max? = some high ∧ low ≤ high ∧ range = some (low, high)

/-- `updptt` given the greatest number left makes a purged range. -/
theorem purgedRange_updptt (left : List Nat) (low high : Nat) :
    PurgedRange left low (updptt left.max? (some (low, high))) := by
  cases greatest : left.max? with
  | none =>
      -- nothing is left
      refine Or.inl ⟨rfl, fun n listed => ?_⟩
      rw [List.max?_eq_none_iff.mp greatest] at listed
      cases listed
  | some newHigh =>
      by_cases below : newHigh < low
      · refine Or.inl ⟨by rw [updptt, if_pos below], fun n listed => ?_⟩
        exact lt_of_le_of_lt ((List.max?_eq_some_iff.mp greatest).2 n listed) below
      · exact Or.inr ⟨newHigh, greatest, Nat.le_of_not_lt below, by rw [updptt, if_neg below]⟩

end Invariant

/-! ## The accounts -/

section Accounts

variable {Account Hash Update Tx Cred Upd V R : Type} [LinearOrder Account] [DecidableEq Hash]
  [LinearOrder Tx] [BIMetadata Tx Hash] [HasMessageExpiry Tx]
  (transactionExpired : Nat → Nat → Bool) (lastFinCommitPoint oldestArrivalTime currentTime : Nat)

/-- What is left of an account, if anything is. -/
def keptAccount (drop : Tx × V → Option (BlockItem Tx Cred Upd × LiveTransactionStatus V R) → Bool)
    (table : TransactionHashTable Hash Tx Cred Upd V R)
    (anft : AccountNonFinalizedTransactions Tx V) : Option (AccountNonFinalizedTransactions Tx V) :=
  if (keptNumbers drop table anft.anftMap).null then none
  else some ⟨keptNumbers drop table anft.anftMap⟩

/-- One account, with the hashes of its transactions distinct. -/
theorem purgeAccount_eq (anfts : AscMap Account (AccountNonFinalizedTransactions Tx V))
    (ptt : PendingTransactionTable Account Hash Update)
    (table : TransactionHashTable Hash Tx Cred Upd V R) (addr : Account)
    (anft : AccountNonFinalizedTransactions Tx V)
    (distinct : ((numberedItems anft.anftMap).map itemHash).Nodup) :
    purgeAccount transactionExpired lastFinCommitPoint oldestArrivalTime currentTime
        (anfts, (ptt, table)) addr anft =
      ((keptAccount (dropItem transactionExpired lastFinCommitPoint oldestArrivalTime
          currentTime) table anft).elim anfts fun kept => anfts.insert addr kept,
        ({ ptt with
            pttWithSender := Function.update ptt.pttWithSender addr
              (updptt (keptNumbers (dropItem transactionExpired lastFinCommitPoint
                oldestArrivalTime currentTime) table anft.anftMap).keys.max?
                  (ptt.pttWithSender addr)) },
          purgedTable itemHash
            (dropItem transactionExpired lastFinCommitPoint oldestArrivalTime currentTime)
            (numberedItems anft.anftMap) table)) := by
  simp only [purgeAccount, purgeTxs, traverseMaybeWithKey_purgeNumber transactionExpired
    lastFinCommitPoint oldestArrivalTime currentTime anft.anftMap none table distinct,
    foldl_max_none, keptAccount]
  split_ifs <;> rfl

omit [DecidableEq Hash] [HasMessageExpiry Tx] in
theorem keptAccount_congr
    {drop : Tx × V → Option (BlockItem Tx Cred Upd × LiveTransactionStatus V R) → Bool}
    {first second : TransactionHashTable Hash Tx Cred Upd V R}
    {anft : AccountNonFinalizedTransactions Tx V}
    (agree : ∀ entry ∈ numberedItems anft.anftMap, first (itemHash entry) = second (itemHash entry)) :
    keptAccount drop first anft = keptAccount drop second anft := by
  rw [keptAccount, keptAccount, keptNumbers_congr agree]

omit [DecidableEq Hash] [HasMessageExpiry Tx] in
theorem keptAccount_eq_some
    {drop : Tx × V → Option (BlockItem Tx Cred Upd × LiveTransactionStatus V R) → Bool}
    {table : TransactionHashTable Hash Tx Cred Upd V R}
    {anft kept : AccountNonFinalizedTransactions Tx V} (left : keptAccount drop table anft = some kept) :
    kept = ⟨keptNumbers drop table anft.anftMap⟩ ∧ (keptNumbers drop table anft.anftMap).null = false := by
  rw [keptAccount] at left
  split_ifs at left with empty
  cases left
  exact ⟨rfl, Bool.eq_false_iff.mpr empty⟩

omit [DecidableEq Hash] [HasMessageExpiry Tx] in
/-- An account with a number left is kept. -/
theorem keptAccount_of_lookup
    {drop : Tx × V → Option (BlockItem Tx Cred Upd × LiveTransactionStatus V R) → Bool}
    {table : TransactionHashTable Hash Tx Cred Upd V R}
    {anft : AccountNonFinalizedTransactions Tx V} {n : Nat} {items : AscMap Tx V}
    (found : (keptNumbers drop table anft.anftMap).lookup n = some items) :
    keptAccount drop table anft = some ⟨keptNumbers drop table anft.anftMap⟩ := by
  rw [keptAccount, if_neg]
  rw [AscMap.null_eq_false_of_lookup found]
  exact Bool.false_ne_true

/-- Purging accounts one after another, with the hashes of all their transactions distinct, is
purging each given the table they all start from. -/
theorem foldl_purgeAccount :
    ∀ (entries : List (Account × AccountNonFinalizedTransactions Tx V)),
      ((entries.flatMap fun entry => numberedItems entry.2.anftMap).map itemHash).Nodup →
      ∀ (anfts : AscMap Account (AccountNonFinalizedTransactions Tx V))
        (ptt : PendingTransactionTable Account Hash Update)
        (table : TransactionHashTable Hash Tx Cred Upd V R),
        entries.foldl (fun acc entry => purgeAccount transactionExpired lastFinCommitPoint
            oldestArrivalTime currentTime acc entry.1 entry.2) (anfts, (ptt, table)) =
          (entries.foldl (fun acc entry => (keptAccount (dropItem transactionExpired
              lastFinCommitPoint oldestArrivalTime currentTime) table entry.2).elim acc
                fun kept => acc.insert entry.1 kept) anfts,
            ({ ptt with
                pttWithSender := entries.foldl (fun pending entry => Function.update pending entry.1
                  (updptt (keptNumbers (dropItem transactionExpired lastFinCommitPoint
                    oldestArrivalTime currentTime) table entry.2.anftMap).keys.max?
                      (pending entry.1))) ptt.pttWithSender },
              purgedTable itemHash
                (dropItem transactionExpired lastFinCommitPoint oldestArrivalTime currentTime)
                (entries.flatMap fun entry => numberedItems entry.2.anftMap) table))
  | [], _, anfts, ptt, table => rfl
  | (addr, anft) :: rest, distinct, anfts, ptt, table => by
      rw [List.flatMap_cons, List.map_append, List.nodup_append] at distinct
      obtain ⟨distinctHere, distinctLater, apart⟩ := distinct
      have disjoint : ∀ earlier ∈ numberedItems anft.anftMap,
          ∀ later ∈ rest.flatMap (fun entry => numberedItems entry.2.anftMap),
            itemHash earlier ≠ itemHash later := fun earlier listed later laterListed =>
        apart _ (List.mem_map_of_mem listed) _ (List.mem_map_of_mem laterListed)
      -- the later accounts see the table this one leaves, which agrees with the first at theirs
      have agree : ∀ entry ∈ rest, ∀ item ∈ numberedItems entry.2.anftMap,
          purgedTable itemHash
            (dropItem transactionExpired lastFinCommitPoint oldestArrivalTime currentTime)
            (numberedItems anft.anftMap) table (itemHash item) = table (itemHash item) :=
        fun entry listed item itemListed => purgedTable_of_forall_ne fun earlier earlierListed =>
          disjoint earlier earlierListed item (List.mem_flatMap.mpr ⟨entry, listed, itemListed⟩)
      rw [List.foldl_cons, purgeAccount_eq transactionExpired lastFinCommitPoint oldestArrivalTime
        currentTime anfts ptt table addr anft distinctHere, foldl_purgeAccount rest distinctLater,
        purgedTable_append _ _ table disjoint, List.foldl_cons, List.foldl_cons]
      refine Prod.ext (List.foldl_ext _ _ _ fun acc entry listed => ?_) (Prod.ext ?_ rfl)
      · simp only [keptAccount_congr (agree entry listed)]
      · dsimp only
        congr 1
        exact List.foldl_ext _ _ _ fun pending entry listed => by
          simp only [keptNumbers_congr (agree entry listed)]

end Accounts

/-! ## The chain updates -/

section Updates

variable {Account Hash Update Tx Cred Upd V R : Type} [DecidableEq Hash] [LinearOrder Update]
  [LinearOrder Upd] [BIMetadata Upd Hash] [HasMessageExpiry Upd]
  (transactionExpired : Nat → Nat → Bool) (lastFinCommitPoint oldestArrivalTime currentTime : Nat)

/-- One update type, with the hashes of its chain updates distinct. -/
theorem purgeUpdates_eq (uty : Update) (nfcu : NonFinalizedChainUpdates Upd V)
    (ptt : PendingTransactionTable Account Hash Update)
    (table : TransactionHashTable Hash Tx Cred Upd V R)
    (distinct : ((numberedItems nfcu.nfcuMap).map itemHash).Nodup) :
    purgeUpdates transactionExpired lastFinCommitPoint oldestArrivalTime currentTime uty nfcu
        (ptt, table) =
      ({ nfcu with
          nfcuMap := keptNumbers (dropItem transactionExpired lastFinCommitPoint oldestArrivalTime
            currentTime) table nfcu.nfcuMap },
        ({ ptt with
            pttUpdates := Function.update ptt.pttUpdates uty
              (updptt (keptNumbers (dropItem transactionExpired lastFinCommitPoint
                oldestArrivalTime currentTime) table nfcu.nfcuMap).keys.max?
                  (ptt.pttUpdates uty)) },
          purgedTable itemHash
            (dropItem transactionExpired lastFinCommitPoint oldestArrivalTime currentTime)
            (numberedItems nfcu.nfcuMap) table)) := by
  simp only [purgeUpdates, purgeUpds, traverseMaybeWithKey_purgeNumber transactionExpired
    lastFinCommitPoint oldestArrivalTime currentTime nfcu.nfcuMap none table distinct,
    foldl_max_none]

/-- Purging update types one after another, with the hashes of all their chain updates
distinct, is purging each given the table they all start from. -/
theorem traverseEntries_purgeUpdates :
    ∀ (entries : List (Update × NonFinalizedChainUpdates Upd V)),
      ((entries.flatMap fun entry => numberedItems entry.2.nfcuMap).map itemHash).Nodup →
      ∀ (ptt : PendingTransactionTable Account Hash Update)
        (table : TransactionHashTable Hash Tx Cred Upd V R),
        AscMap.traverseEntries
            (purgeUpdates transactionExpired lastFinCommitPoint oldestArrivalTime currentTime)
            entries (ptt, table) =
          (entries.map fun entry => (entry.1, { entry.2 with
              nfcuMap := keptNumbers (dropItem transactionExpired lastFinCommitPoint
                oldestArrivalTime currentTime) table entry.2.nfcuMap }),
            ({ ptt with
                pttUpdates := entries.foldl (fun pending entry => Function.update pending entry.1
                  (updptt (keptNumbers (dropItem transactionExpired lastFinCommitPoint
                    oldestArrivalTime currentTime) table entry.2.nfcuMap).keys.max?
                      (pending entry.1))) ptt.pttUpdates },
              purgedTable itemHash
                (dropItem transactionExpired lastFinCommitPoint oldestArrivalTime currentTime)
                (entries.flatMap fun entry => numberedItems entry.2.nfcuMap) table))
  | [], _, ptt, table => rfl
  | (uty, nfcu) :: rest, distinct, ptt, table => by
      rw [List.flatMap_cons, List.map_append, List.nodup_append] at distinct
      obtain ⟨distinctHere, distinctLater, apart⟩ := distinct
      have disjoint : ∀ earlier ∈ numberedItems nfcu.nfcuMap,
          ∀ later ∈ rest.flatMap (fun entry => numberedItems entry.2.nfcuMap),
            itemHash earlier ≠ itemHash later := fun earlier listed later laterListed =>
        apart _ (List.mem_map_of_mem listed) _ (List.mem_map_of_mem laterListed)
      -- the later types see the table this one leaves, which agrees with the first at theirs
      have agree : ∀ entry ∈ rest, ∀ item ∈ numberedItems entry.2.nfcuMap,
          purgedTable itemHash
            (dropItem transactionExpired lastFinCommitPoint oldestArrivalTime currentTime)
            (numberedItems nfcu.nfcuMap) table (itemHash item) = table (itemHash item) :=
        fun entry listed item itemListed => purgedTable_of_forall_ne fun earlier earlierListed =>
          disjoint earlier earlierListed item (List.mem_flatMap.mpr ⟨entry, listed, itemListed⟩)
      rw [AscMap.traverseEntries, purgeUpdates_eq transactionExpired lastFinCommitPoint
        oldestArrivalTime currentTime uty nfcu ptt table distinctHere]
      dsimp only
      rw [traverseEntries_purgeUpdates rest distinctLater, purgedTable_append _ _ table disjoint,
        List.map_cons, List.foldl_cons]
      refine Prod.ext ?_ (Prod.ext ?_ rfl)
      · dsimp only
        congr 1
        exact List.map_congr_left fun entry listed => by
          simp only [keptNumbers_congr (agree entry listed)]
      · dsimp only
        congr 1
        exact List.foldl_ext _ _ _ fun pending entry listed => by
          simp only [keptNumbers_congr (agree entry listed)]

end Updates

/-! ## The whole purge -/

section Purge

variable {Account Hash Update Tx Cred Upd V R : Type} [LinearOrder Account] [DecidableEq Hash]
  [LinearOrder Update] [LinearOrder Tx] [LinearOrder Upd]
  [BIMetadata Tx Hash] [BIMetadata Cred Hash] [BIMetadata Upd Hash]
  [HasMessageExpiry Tx] [HasMessageExpiry Cred] [HasMessageExpiry Upd]
  (transactionExpired : Nat → Nat → Bool) (lastFinCommitPoint oldestArrivalTime currentTime : Nat)

/-- The hash table once the accounts are purged: the entries of the dropped transactions go. -/
def accountsPurgedTable (tt : TransactionTable Account Hash Update Tx Cred Upd V R) :
    TransactionHashTable Hash Tx Cred Upd V R :=
  purgedTable itemHash (dropItem transactionExpired lastFinCommitPoint oldestArrivalTime currentTime)
    (indexItems AccountNonFinalizedTransactions.anftMap tt.ttNonFinalizedTransactions) tt.ttHashMap

/-- The hash table once the credential deployments are purged as well. -/
def credentialsPurgedTable (tt : TransactionTable Account Hash Update Tx Cred Upd V R)
    (ptt : PendingTransactionTable Account Hash Update) : TransactionHashTable Hash Tx Cred Upd V R :=
  fun cdihash =>
    if credentialPurged transactionExpired lastFinCommitPoint oldestArrivalTime currentTime
        ptt.pttDeployCredential
        (accountsPurgedTable transactionExpired lastFinCommitPoint oldestArrivalTime currentTime tt)
        cdihash then none
    else accountsPurgedTable transactionExpired lastFinCommitPoint oldestArrivalTime currentTime tt
      cdihash

/-- `purgeTables` as its three phases, when the hashes of the recorded transactions are distinct
and so are those of the recorded chain updates: the accounts purged given the table the purge
starts from, the chain updates given the table the credential deployments leave. -/
theorem purgeTables_eq (tt : TransactionTable Account Hash Update Tx Cred Upd V R)
    (ptt : PendingTransactionTable Account Hash Update)
    (distinctTransactions : ((indexItems AccountNonFinalizedTransactions.anftMap
      tt.ttNonFinalizedTransactions).map itemHash).Nodup)
    (distinctUpdates : ((indexItems NonFinalizedChainUpdates.nfcuMap
      tt.ttNonFinalizedChainUpdates).map itemHash).Nodup) :
    purgeTables transactionExpired lastFinCommitPoint oldestArrivalTime currentTime tt ptt =
      ({ ttHashMap := purgedTable itemHash
            (dropItem transactionExpired lastFinCommitPoint oldestArrivalTime currentTime)
            (indexItems NonFinalizedChainUpdates.nfcuMap tt.ttNonFinalizedChainUpdates)
            (credentialsPurgedTable transactionExpired lastFinCommitPoint oldestArrivalTime
              currentTime tt ptt),
          ttNonFinalizedTransactions := tt.ttNonFinalizedTransactions.foldlWithKey
            (fun acc addr anft => (keptAccount (dropItem transactionExpired
                lastFinCommitPoint oldestArrivalTime currentTime) tt.ttHashMap anft).elim acc
                  fun kept => acc.insert addr kept) AscMap.empty,
          ttNonFinalizedChainUpdates := tt.ttNonFinalizedChainUpdates.map fun nfcu =>
            { nfcu with
              nfcuMap := keptNumbers (dropItem transactionExpired lastFinCommitPoint
                oldestArrivalTime currentTime) (credentialsPurgedTable transactionExpired
                  lastFinCommitPoint oldestArrivalTime currentTime tt ptt) nfcu.nfcuMap } },
        { pttWithSender := tt.ttNonFinalizedTransactions.foldlWithKey
            (fun pending addr anft => Function.update pending addr
              (updptt (keptNumbers (dropItem transactionExpired lastFinCommitPoint
                oldestArrivalTime currentTime) tt.ttHashMap anft.anftMap).keys.max?
                  (pending addr))) ptt.pttWithSender,
          pttDeployCredential := fun cdihash => ptt.pttDeployCredential cdihash &&
            !credentialPurged transactionExpired lastFinCommitPoint oldestArrivalTime currentTime
              ptt.pttDeployCredential
              (accountsPurgedTable transactionExpired lastFinCommitPoint oldestArrivalTime
                currentTime tt) cdihash,
          pttUpdates := tt.ttNonFinalizedChainUpdates.foldlWithKey
            (fun pending uty nfcu => Function.update pending uty
              (updptt (keptNumbers (dropItem transactionExpired lastFinCommitPoint
                oldestArrivalTime currentTime) (credentialsPurgedTable transactionExpired
                  lastFinCommitPoint oldestArrivalTime currentTime tt ptt) nfcu.nfcuMap).keys.max?
                    (pending uty))) ptt.pttUpdates }) := by
  simp only [purgeTables, AscMap.foldlWithKey, foldl_purgeAccount transactionExpired
    lastFinCommitPoint oldestArrivalTime currentTime _ distinctTransactions,
    purgeDeployCredentials, AscMap.traverseWithKey, traverseEntries_purgeUpdates transactionExpired
    lastFinCommitPoint oldestArrivalTime currentTime _ distinctUpdates]
  rfl

/-! ## What each phase does to an entry -/

omit [BIMetadata Cred Hash] [BIMetadata Upd Hash] [HasMessageExpiry Cred] [HasMessageExpiry Upd] in
theorem accountsPurgedTable_eq_some {tt : TransactionTable Account Hash Update Tx Cred Upd V R}
    {hash : Hash} {entry : BlockItem Tx Cred Upd × LiveTransactionStatus V R}
    (left : accountsPurgedTable transactionExpired lastFinCommitPoint oldestArrivalTime currentTime
      tt hash = some entry) : tt.ttHashMap hash = some entry :=
  purgedTable_eq_some left

theorem credentialsPurgedTable_eq_some {tt : TransactionTable Account Hash Update Tx Cred Upd V R}
    {ptt : PendingTransactionTable Account Hash Update} {hash : Hash}
    {entry : BlockItem Tx Cred Upd × LiveTransactionStatus V R}
    (left : credentialsPurgedTable transactionExpired lastFinCommitPoint oldestArrivalTime
      currentTime tt ptt hash = some entry) :
    accountsPurgedTable transactionExpired lastFinCommitPoint oldestArrivalTime currentTime tt
      hash = some entry := by
  rw [credentialsPurgedTable] at left
  split_ifs at left
  exact left

omit [DecidableEq Hash] [BIMetadata Cred Hash] [HasMessageExpiry Tx] [HasMessageExpiry Cred]
  [HasMessageExpiry Upd] in
/-- A recorded transaction and a recorded chain update never share a hash: the hash table holds
one item under each hash. -/
theorem transaction_hash_ne_update_hash {tt : TransactionTable Account Hash Update Tx Cred Upd V R}
    {ptt : PendingTransactionTable Account Hash Update} (invariant : TableInvariant tt ptt)
    {tx : Tx} {upd : Upd} {txVerRes updVerRes : V}
    (txListed : (tx, txVerRes) ∈
      indexItems AccountNonFinalizedTransactions.anftMap tt.ttNonFinalizedTransactions)
    (updListed : (upd, updVerRes) ∈
      indexItems NonFinalizedChainUpdates.nfcuMap tt.ttNonFinalizedChainUpdates) :
    biHash tx ≠ biHash upd := by
  intro same
  obtain ⟨addr, n, txRecorded⟩ := mem_indexItems.mp txListed
  obtain ⟨uty, m, updRecorded⟩ := mem_indexItems.mp updListed
  obtain ⟨txStatus, txFound⟩ := invariant.transactions.inTable _ _ _ _ txRecorded
  obtain ⟨updStatus, updFound⟩ := invariant.updates.inTable _ _ _ _ updRecorded
  rw [same, updFound] at txFound
  simp at txFound

omit [BIMetadata Cred Hash] [BIMetadata Upd Hash] [HasMessageExpiry Cred] [HasMessageExpiry Upd] in
/-- A recorded transaction's entry goes in the accounts phase exactly when it is dropped. -/
theorem accountsPurgedTable_of_mem {tt : TransactionTable Account Hash Update Tx Cred Upd V R}
    (distinctTransactions : ((indexItems AccountNonFinalizedTransactions.anftMap
      tt.ttNonFinalizedTransactions).map itemHash).Nodup)
    {tx : Tx} {verRes : V}
    (listed : (tx, verRes) ∈
      indexItems AccountNonFinalizedTransactions.anftMap tt.ttNonFinalizedTransactions) :
    accountsPurgedTable transactionExpired lastFinCommitPoint oldestArrivalTime currentTime tt
        (biHash tx) =
      if dropItem transactionExpired lastFinCommitPoint oldestArrivalTime currentTime (tx, verRes)
          (tt.ttHashMap (biHash tx)) then none
      else tt.ttHashMap (biHash tx) :=
  purgedTable_of_mem listed distinctTransactions

omit [BIMetadata Cred Hash] [HasMessageExpiry Cred] [HasMessageExpiry Upd] in
/-- The accounts phase leaves the entries of the recorded chain updates alone. -/
theorem accountsPurgedTable_of_update {tt : TransactionTable Account Hash Update Tx Cred Upd V R}
    {ptt : PendingTransactionTable Account Hash Update} (invariant : TableInvariant tt ptt)
    {upd : Upd} {verRes : V}
    (listed : (upd, verRes) ∈
      indexItems NonFinalizedChainUpdates.nfcuMap tt.ttNonFinalizedChainUpdates) :
    accountsPurgedTable transactionExpired lastFinCommitPoint oldestArrivalTime currentTime tt
      (biHash upd) = tt.ttHashMap (biHash upd) :=
  purgedTable_of_forall_ne fun _ entryListed =>
    transaction_hash_ne_update_hash invariant entryListed listed

/-- The credential phase leaves the entries of the recorded chain updates alone when no pending
credential hash is a chain update's. -/
theorem credentialsPurgedTable_of_update
    {tt : TransactionTable Account Hash Update Tx Cred Upd V R}
    {ptt : PendingTransactionTable Account Hash Update} (invariant : TableInvariant tt ptt)
    (credentialsNotUpdates : ∀ hash upd status, ptt.pttDeployCredential hash = true →
      tt.ttHashMap hash ≠ some (BlockItem.chainUpdate upd, status))
    {upd : Upd} {verRes : V}
    (listed : (upd, verRes) ∈
      indexItems NonFinalizedChainUpdates.nfcuMap tt.ttNonFinalizedChainUpdates) :
    credentialsPurgedTable transactionExpired lastFinCommitPoint oldestArrivalTime currentTime tt
      ptt (biHash upd) = tt.ttHashMap (biHash upd) := by
  obtain ⟨uty, n, recorded⟩ := mem_indexItems.mp listed
  obtain ⟨status, found⟩ := invariant.updates.inTable _ _ _ _ recorded
  have notPending : ptt.pttDeployCredential (biHash upd) = false :=
    Bool.eq_false_iff.mpr fun pending => credentialsNotUpdates _ _ _ pending found
  rw [credentialsPurgedTable, credentialPurged, notPending, Bool.false_and,
    if_neg Bool.false_ne_true, accountsPurgedTable_of_update transactionExpired lastFinCommitPoint
      oldestArrivalTime currentTime invariant listed]

/-- The credential phase leaves what the accounts phase left of a recorded transaction: its
test of the transaction's entry is the accounts phase's own. -/
theorem credentialsPurgedTable_of_transaction
    {tt : TransactionTable Account Hash Update Tx Cred Upd V R}
    {ptt : PendingTransactionTable Account Hash Update} (invariant : TableInvariant tt ptt)
    (distinctTransactions : ((indexItems AccountNonFinalizedTransactions.anftMap
      tt.ttNonFinalizedTransactions).map itemHash).Nodup)
    {tx : Tx} {verRes : V}
    (listed : (tx, verRes) ∈
      indexItems AccountNonFinalizedTransactions.anftMap tt.ttNonFinalizedTransactions) :
    credentialsPurgedTable transactionExpired lastFinCommitPoint oldestArrivalTime currentTime tt
        ptt (biHash tx) =
      accountsPurgedTable transactionExpired lastFinCommitPoint oldestArrivalTime currentTime tt
        (biHash tx) := by
  obtain ⟨addr, n, recorded⟩ := mem_indexItems.mp listed
  obtain ⟨status, found⟩ := invariant.transactions.inTable _ _ _ _ recorded
  have accounts := accountsPurgedTable_of_mem transactionExpired lastFinCommitPoint
    oldestArrivalTime currentTime distinctTransactions listed
  rw [found] at accounts
  rw [credentialsPurgedTable, credentialPurged, accounts]
  by_cases dropped : dropItem transactionExpired lastFinCommitPoint oldestArrivalTime currentTime
    (tx, verRes) (some ((BlockItem.normalTransaction tx : BlockItem Tx Cred Upd), status)) = true
  · simp only [if_pos dropped, ite_self]
  · have keeps : purgeCredentialEntry transactionExpired lastFinCommitPoint oldestArrivalTime
        currentTime (some ((BlockItem.normalTransaction tx : BlockItem Tx Cred Upd), status)) =
          some (BlockItem.normalTransaction tx, status) := by
      rw [purgeCredentialEntry, if_neg]
      simpa [dropItem] using dropped
    simp only [if_neg dropped, keeps, Option.isNone_some, Bool.and_false, Bool.false_eq_true,
      if_false]

/-! ## The tables and indexes the purge leaves -/

section Result

variable (tt : TransactionTable Account Hash Update Tx Cred Upd V R)
  (ptt : PendingTransactionTable Account Hash Update)
  (distinctTransactions : ((indexItems AccountNonFinalizedTransactions.anftMap
    tt.ttNonFinalizedTransactions).map itemHash).Nodup)
  (distinctUpdates : ((indexItems NonFinalizedChainUpdates.nfcuMap
    tt.ttNonFinalizedChainUpdates).map itemHash).Nodup)
include distinctTransactions distinctUpdates

theorem purgeTables_ttHashMap :
    (purgeTables transactionExpired lastFinCommitPoint oldestArrivalTime currentTime tt
        ptt).1.ttHashMap =
      purgedTable itemHash
        (dropItem transactionExpired lastFinCommitPoint oldestArrivalTime currentTime)
        (indexItems NonFinalizedChainUpdates.nfcuMap tt.ttNonFinalizedChainUpdates)
        (credentialsPurgedTable transactionExpired lastFinCommitPoint oldestArrivalTime
          currentTime tt ptt) := by
  rw [purgeTables_eq transactionExpired lastFinCommitPoint oldestArrivalTime currentTime tt ptt
    distinctTransactions distinctUpdates]

theorem lookup_purgeTables_transactions (addr : Account) :
    (purgeTables transactionExpired lastFinCommitPoint oldestArrivalTime currentTime tt
        ptt).1.ttNonFinalizedTransactions.lookup addr =
      (tt.ttNonFinalizedTransactions.lookup addr).bind
        (keptAccount (dropItem transactionExpired lastFinCommitPoint oldestArrivalTime currentTime)
          tt.ttHashMap) := by
  rw [purgeTables_eq transactionExpired lastFinCommitPoint oldestArrivalTime currentTime tt ptt
    distinctTransactions distinctUpdates]
  dsimp only
  rw [AscMap.lookup_foldlWithKey_insert, AscMap.lookup_empty, Option.or_none]

theorem lookup_purgeTables_updates (uty : Update) :
    (purgeTables transactionExpired lastFinCommitPoint oldestArrivalTime currentTime tt
        ptt).1.ttNonFinalizedChainUpdates.lookup uty =
      (tt.ttNonFinalizedChainUpdates.lookup uty).map fun nfcu =>
        { nfcu with
          nfcuMap := keptNumbers (dropItem transactionExpired lastFinCommitPoint oldestArrivalTime
            currentTime) (credentialsPurgedTable transactionExpired lastFinCommitPoint
              oldestArrivalTime currentTime tt ptt) nfcu.nfcuMap } := by
  rw [purgeTables_eq transactionExpired lastFinCommitPoint oldestArrivalTime currentTime tt ptt
    distinctTransactions distinctUpdates]
  exact AscMap.lookup_map _ _ uty

theorem purgeTables_pttWithSender (addr : Account) :
    (purgeTables transactionExpired lastFinCommitPoint oldestArrivalTime currentTime tt
        ptt).2.pttWithSender addr =
      (tt.ttNonFinalizedTransactions.lookup addr).elim (ptt.pttWithSender addr) fun anft =>
        updptt (keptNumbers (dropItem transactionExpired lastFinCommitPoint oldestArrivalTime
          currentTime) tt.ttHashMap anft.anftMap).keys.max? (ptt.pttWithSender addr) := by
  rw [purgeTables_eq transactionExpired lastFinCommitPoint oldestArrivalTime currentTime tt ptt
    distinctTransactions distinctUpdates]
  exact AscMap.foldlWithKey_update_apply (fun _ anft old => updptt (keptNumbers (dropItem
    transactionExpired lastFinCommitPoint oldestArrivalTime currentTime) tt.ttHashMap
      anft.anftMap).keys.max? old) tt.ttNonFinalizedTransactions ptt.pttWithSender addr

theorem purgeTables_pttUpdates (uty : Update) :
    (purgeTables transactionExpired lastFinCommitPoint oldestArrivalTime currentTime tt
        ptt).2.pttUpdates uty =
      (tt.ttNonFinalizedChainUpdates.lookup uty).elim (ptt.pttUpdates uty) fun nfcu =>
        updptt (keptNumbers (dropItem transactionExpired lastFinCommitPoint oldestArrivalTime
          currentTime) (credentialsPurgedTable transactionExpired lastFinCommitPoint
            oldestArrivalTime currentTime tt ptt) nfcu.nfcuMap).keys.max? (ptt.pttUpdates uty) := by
  rw [purgeTables_eq transactionExpired lastFinCommitPoint oldestArrivalTime currentTime tt ptt
    distinctTransactions distinctUpdates]
  exact AscMap.foldlWithKey_update_apply (fun _ nfcu old => updptt (keptNumbers (dropItem
    transactionExpired lastFinCommitPoint oldestArrivalTime currentTime) (credentialsPurgedTable
      transactionExpired lastFinCommitPoint oldestArrivalTime currentTime tt ptt)
        nfcu.nfcuMap).keys.max? old) tt.ttNonFinalizedChainUpdates ptt.pttUpdates uty

theorem purgeTables_ttHashMap_eq_some {hash : Hash}
    {entry : BlockItem Tx Cred Upd × LiveTransactionStatus V R}
    (left : (purgeTables transactionExpired lastFinCommitPoint oldestArrivalTime currentTime tt
      ptt).1.ttHashMap hash = some entry) :
    tt.ttHashMap hash = some entry := by
  rw [purgeTables_ttHashMap transactionExpired lastFinCommitPoint oldestArrivalTime currentTime tt
    ptt distinctTransactions distinctUpdates] at left
  exact accountsPurgedTable_eq_some transactionExpired lastFinCommitPoint oldestArrivalTime
    currentTime (credentialsPurgedTable_eq_some transactionExpired lastFinCommitPoint
      oldestArrivalTime currentTime (purgedTable_eq_some left))

/-- A transaction stays recorded exactly when it was recorded and is not dropped. -/
theorem recorded_purgeTables_transactions_iff (addr : Account) (n : Nat) (tx : Tx) (verRes : V) :
    Recorded AccountNonFinalizedTransactions.anftMap
        (purgeTables transactionExpired lastFinCommitPoint oldestArrivalTime currentTime tt
          ptt).1.ttNonFinalizedTransactions addr n tx verRes ↔
      Recorded AccountNonFinalizedTransactions.anftMap tt.ttNonFinalizedTransactions addr n tx
          verRes ∧
        dropItem transactionExpired lastFinCommitPoint oldestArrivalTime currentTime (tx, verRes)
          (tt.ttHashMap (biHash tx)) = false := by
  simp only [Recorded, lookup_purgeTables_transactions transactionExpired lastFinCommitPoint
    oldestArrivalTime currentTime tt ptt distinctTransactions distinctUpdates]
  constructor
  · rintro ⟨group, items, groupFound, itemsFound, itemFound⟩
    obtain ⟨anft, anftFound, left⟩ := Option.bind_eq_some_iff.mp groupFound
    obtain ⟨rfl, -⟩ := keptAccount_eq_some left
    obtain ⟨⟨before, beforeFound, beforeItem⟩, kept⟩ :=
      (kept_iff _ _ _ _ _).mp ⟨items, itemsFound, itemFound⟩
    exact ⟨⟨anft, before, anftFound, beforeFound, beforeItem⟩, kept⟩
  · rintro ⟨⟨anft, before, anftFound, beforeFound, beforeItem⟩, kept⟩
    obtain ⟨items, itemsFound, itemFound⟩ :=
      (kept_iff _ _ _ _ _).mpr ⟨⟨before, beforeFound, beforeItem⟩, kept⟩
    exact ⟨⟨keptNumbers (dropItem transactionExpired lastFinCommitPoint oldestArrivalTime
      currentTime) tt.ttHashMap anft.anftMap⟩, items,
        by rw [anftFound, Option.bind_some, keptAccount_of_lookup itemsFound], itemsFound,
        itemFound⟩

/-- A chain update stays recorded exactly when it was recorded and is not dropped given the table
the credential deployments leave. -/
theorem recorded_purgeTables_updates_iff (uty : Update) (n : Nat) (upd : Upd) (verRes : V) :
    Recorded NonFinalizedChainUpdates.nfcuMap
        (purgeTables transactionExpired lastFinCommitPoint oldestArrivalTime currentTime tt
          ptt).1.ttNonFinalizedChainUpdates uty n upd verRes ↔
      Recorded NonFinalizedChainUpdates.nfcuMap tt.ttNonFinalizedChainUpdates uty n upd verRes ∧
        dropItem transactionExpired lastFinCommitPoint oldestArrivalTime currentTime (upd, verRes)
          (credentialsPurgedTable transactionExpired lastFinCommitPoint oldestArrivalTime
            currentTime tt ptt (biHash upd)) = false := by
  simp only [Recorded, lookup_purgeTables_updates transactionExpired lastFinCommitPoint
    oldestArrivalTime currentTime tt ptt distinctTransactions distinctUpdates]
  constructor
  · rintro ⟨group, items, groupFound, itemsFound, itemFound⟩
    obtain ⟨nfcu, nfcuFound, rfl⟩ := Option.map_eq_some_iff.mp groupFound
    obtain ⟨⟨before, beforeFound, beforeItem⟩, kept⟩ :=
      (kept_iff _ _ _ _ _).mp ⟨items, itemsFound, itemFound⟩
    exact ⟨⟨nfcu, before, nfcuFound, beforeFound, beforeItem⟩, kept⟩
  · rintro ⟨⟨nfcu, before, nfcuFound, beforeFound, beforeItem⟩, kept⟩
    obtain ⟨items, itemsFound, itemFound⟩ :=
      (kept_iff _ _ _ _ _).mpr ⟨⟨before, beforeFound, beforeItem⟩, kept⟩
    exact ⟨_, items, by rw [nfcuFound, Option.map_some], itemsFound, itemFound⟩

theorem recordedNumbers_purgeTables_transactions (addr : Account) :
    recordedNumbers AccountNonFinalizedTransactions.anftMap
        (purgeTables transactionExpired lastFinCommitPoint oldestArrivalTime currentTime tt
          ptt).1.ttNonFinalizedTransactions addr =
      ((tt.ttNonFinalizedTransactions.lookup addr).map fun anft =>
        (keptNumbers (dropItem transactionExpired lastFinCommitPoint oldestArrivalTime currentTime)
          tt.ttHashMap anft.anftMap).keys).getD [] := by
  rw [recordedNumbers, lookup_purgeTables_transactions transactionExpired lastFinCommitPoint
    oldestArrivalTime currentTime tt ptt distinctTransactions distinctUpdates]
  cases tt.ttNonFinalizedTransactions.lookup addr with
  | none => rfl
  | some anft =>
      -- an account with nothing left goes, and it had no numbers left either
      simp only [Option.bind_some, Option.map_some, Option.getD_some, keptAccount]
      split_ifs with empty
      · exact (AscMap.keys_eq_nil_of_null empty).symm
      · rfl

theorem recordedNumbers_purgeTables_updates (uty : Update) :
    recordedNumbers NonFinalizedChainUpdates.nfcuMap
        (purgeTables transactionExpired lastFinCommitPoint oldestArrivalTime currentTime tt
          ptt).1.ttNonFinalizedChainUpdates uty =
      ((tt.ttNonFinalizedChainUpdates.lookup uty).map fun nfcu =>
        (keptNumbers (dropItem transactionExpired lastFinCommitPoint oldestArrivalTime currentTime)
          (credentialsPurgedTable transactionExpired lastFinCommitPoint oldestArrivalTime
            currentTime tt ptt) nfcu.nfcuMap).keys).getD [] := by
  rw [recordedNumbers, lookup_purgeTables_updates transactionExpired lastFinCommitPoint
    oldestArrivalTime currentTime tt ptt distinctTransactions distinctUpdates]
  cases tt.ttNonFinalizedChainUpdates.lookup uty with
  | none => rfl
  | some nfcu => rfl

/-! ## The invariants after the purge -/

/-- The transactions' part of the invariant holds after the purge. -/
theorem purgeTables_transactions_invariant (invariant : TableInvariant tt ptt) :
    IndexInvariant BlockItem.normalTransaction AccountNonFinalizedTransactions.anftMap
      (purgeTables transactionExpired lastFinCommitPoint oldestArrivalTime currentTime tt
        ptt).1.ttNonFinalizedTransactions
      (purgeTables transactionExpired lastFinCommitPoint oldestArrivalTime currentTime tt
        ptt).1.ttHashMap
      (purgeTables transactionExpired lastFinCommitPoint oldestArrivalTime currentTime tt
        ptt).2.pttWithSender where
  inTable addr n tx verRes recorded := by
    obtain ⟨recordedBefore, kept⟩ := (recorded_purgeTables_transactions_iff transactionExpired
      lastFinCommitPoint oldestArrivalTime currentTime tt ptt distinctTransactions distinctUpdates
      addr n tx verRes).mp recorded
    have listed := mem_indexItems.mpr ⟨addr, n, recordedBefore⟩
    obtain ⟨status, found⟩ := invariant.transactions.inTable _ _ _ _ recordedBefore
    refine ⟨status, ?_⟩
    -- the entry outlives the accounts (it is kept), the credentials (their test is its own) and
    -- the chain updates (none has its hash)
    rw [purgeTables_ttHashMap transactionExpired lastFinCommitPoint oldestArrivalTime currentTime
        tt ptt distinctTransactions distinctUpdates,
      @purgedTable_of_forall_ne _ _ _ _ itemHash _ _ _ _ fun _ updListed =>
        (transaction_hash_ne_update_hash invariant listed updListed).symm,
      credentialsPurgedTable_of_transaction transactionExpired lastFinCommitPoint oldestArrivalTime
        currentTime invariant distinctTransactions listed,
      accountsPurgedTable_of_mem transactionExpired lastFinCommitPoint oldestArrivalTime
        currentTime distinctTransactions listed, if_neg (Bool.eq_false_iff.mp kept), found]
  indexed hash tx status found := by
    obtain ⟨sameHash, addr, n, verRes, recordedBefore⟩ := invariant.transactions.indexed _ _ _
      (purgeTables_ttHashMap_eq_some transactionExpired lastFinCommitPoint oldestArrivalTime
        currentTime tt ptt distinctTransactions distinctUpdates found)
    refine ⟨sameHash, addr, n, verRes, (recorded_purgeTables_transactions_iff transactionExpired
      lastFinCommitPoint oldestArrivalTime currentTime tt ptt distinctTransactions distinctUpdates
      addr n tx verRes).mpr ⟨recordedBefore, Bool.eq_false_iff.mpr fun dropped => ?_⟩⟩
    -- a dropped transaction loses its entry in the accounts phase, and it stays lost
    have gone := accountsPurgedTable_of_mem transactionExpired lastFinCommitPoint
      oldestArrivalTime currentTime distinctTransactions (mem_indexItems.mpr ⟨addr, n, recordedBefore⟩)
    rw [if_pos dropped] at gone
    rw [purgeTables_ttHashMap transactionExpired lastFinCommitPoint oldestArrivalTime currentTime
      tt ptt distinctTransactions distinctUpdates] at found
    have left := credentialsPurgedTable_eq_some transactionExpired lastFinCommitPoint
      oldestArrivalTime currentTime (purgedTable_eq_some found)
    rw [← sameHash, gone] at left
    cases left
  nonEmpty addr group n items groupFound itemsFound := by
    rw [lookup_purgeTables_transactions transactionExpired lastFinCommitPoint oldestArrivalTime
      currentTime tt ptt distinctTransactions distinctUpdates] at groupFound
    obtain ⟨anft, -, left⟩ := Option.bind_eq_some_iff.mp groupFound
    obtain ⟨rfl, -⟩ := keptAccount_eq_some left
    rw [lookup_keptNumbers] at itemsFound
    obtain ⟨_, -, keptHere⟩ := Option.bind_eq_some_iff.mp itemsFound
    exact (keptAt_eq_some keptHere).2
  pendingHigh addr low high pending := by
    rw [purgeTables_pttWithSender transactionExpired lastFinCommitPoint oldestArrivalTime
      currentTime tt ptt distinctTransactions distinctUpdates] at pending
    rw [recordedNumbers_purgeTables_transactions transactionExpired lastFinCommitPoint
      oldestArrivalTime currentTime tt ptt distinctTransactions distinctUpdates]
    cases found : tt.ttNonFinalizedTransactions.lookup addr with
    | none =>
        -- a range of an account with nothing recorded cannot be
        rw [found, Option.elim] at pending
        have recordedHigh := invariant.transactions.pendingHigh addr low high pending
        rw [recordedNumbers, found] at recordedHigh
        exact absurd recordedHigh (by simp)
    | some anft =>
        rw [found, Option.elim] at pending
        exact (updptt_eq_some pending).1

/-- The chain updates' part of the invariant holds after the purge, when no pending credential
hash is a chain update's. -/
theorem purgeTables_updates_invariant (invariant : TableInvariant tt ptt)
    (credentialsNotUpdates : ∀ hash upd status, ptt.pttDeployCredential hash = true →
      tt.ttHashMap hash ≠ some (BlockItem.chainUpdate upd, status)) :
    IndexInvariant BlockItem.chainUpdate NonFinalizedChainUpdates.nfcuMap
      (purgeTables transactionExpired lastFinCommitPoint oldestArrivalTime currentTime tt
        ptt).1.ttNonFinalizedChainUpdates
      (purgeTables transactionExpired lastFinCommitPoint oldestArrivalTime currentTime tt
        ptt).1.ttHashMap
      (purgeTables transactionExpired lastFinCommitPoint oldestArrivalTime currentTime tt
        ptt).2.pttUpdates where
  inTable uty n upd verRes recorded := by
    obtain ⟨recordedBefore, kept⟩ := (recorded_purgeTables_updates_iff transactionExpired
      lastFinCommitPoint oldestArrivalTime currentTime tt ptt distinctTransactions distinctUpdates
      uty n upd verRes).mp recorded
    have listed := mem_indexItems.mpr ⟨uty, n, recordedBefore⟩
    obtain ⟨status, found⟩ := invariant.updates.inTable _ _ _ _ recordedBefore
    refine ⟨status, ?_⟩
    -- the entry reaches the chain update phase untouched, and is kept there
    rw [purgeTables_ttHashMap transactionExpired lastFinCommitPoint oldestArrivalTime currentTime
        tt ptt distinctTransactions distinctUpdates]
    show purgedTable itemHash _ _ _ (itemHash (upd, verRes)) = _
    rw [purgedTable_of_mem listed distinctUpdates, itemHash_mk, if_neg (Bool.eq_false_iff.mp kept),
      credentialsPurgedTable_of_update transactionExpired lastFinCommitPoint oldestArrivalTime
        currentTime invariant credentialsNotUpdates listed, found]
  indexed hash upd status found := by
    obtain ⟨sameHash, uty, n, verRes, recordedBefore⟩ := invariant.updates.indexed _ _ _
      (purgeTables_ttHashMap_eq_some transactionExpired lastFinCommitPoint oldestArrivalTime
        currentTime tt ptt distinctTransactions distinctUpdates found)
    refine ⟨sameHash, uty, n, verRes, (recorded_purgeTables_updates_iff transactionExpired
      lastFinCommitPoint oldestArrivalTime currentTime tt ptt distinctTransactions distinctUpdates
      uty n upd verRes).mpr ⟨recordedBefore, Bool.eq_false_iff.mpr fun dropped => ?_⟩⟩
    -- a dropped chain update loses its entry in its own phase
    rw [purgeTables_ttHashMap transactionExpired lastFinCommitPoint oldestArrivalTime currentTime
      tt ptt distinctTransactions distinctUpdates, ← sameHash] at found
    change purgedTable itemHash _ _ _ (itemHash (upd, verRes)) = _ at found
    rw [purgedTable_of_mem (mem_indexItems.mpr ⟨uty, n, recordedBefore⟩) distinctUpdates,
      itemHash_mk, if_pos dropped] at found
    cases found
  nonEmpty uty group n items groupFound itemsFound := by
    rw [lookup_purgeTables_updates transactionExpired lastFinCommitPoint oldestArrivalTime
      currentTime tt ptt distinctTransactions distinctUpdates] at groupFound
    obtain ⟨nfcu, -, rfl⟩ := Option.map_eq_some_iff.mp groupFound
    rw [lookup_keptNumbers] at itemsFound
    obtain ⟨_, -, keptHere⟩ := Option.bind_eq_some_iff.mp itemsFound
    exact (keptAt_eq_some keptHere).2
  pendingHigh uty low high pending := by
    rw [purgeTables_pttUpdates transactionExpired lastFinCommitPoint oldestArrivalTime
      currentTime tt ptt distinctTransactions distinctUpdates] at pending
    rw [recordedNumbers_purgeTables_updates transactionExpired lastFinCommitPoint
      oldestArrivalTime currentTime tt ptt distinctTransactions distinctUpdates]
    cases found : tt.ttNonFinalizedChainUpdates.lookup uty with
    | none =>
        rw [found, Option.elim] at pending
        have recordedHigh := invariant.updates.pendingHigh uty low high pending
        rw [recordedNumbers, found] at recordedHigh
        exact absurd recordedHigh (by simp)
    | some nfcu =>
        rw [found, Option.elim] at pending
        exact (updptt_eq_some pending).1

/-! ## What the purge removes, and the pending ranges -/

/-- An entry the purge removes was too old, and no block after the last finalized one held it. -/
theorem purgeTables_removes_only_stale (invariant : TableInvariant tt ptt) {hash : Hash}
    {item : BlockItem Tx Cred Upd} {status : LiveTransactionStatus V R}
    (before : tt.ttHashMap hash = some (item, status))
    (after : (purgeTables transactionExpired lastFinCommitPoint oldestArrivalTime currentTime tt
      ptt).1.ttHashMap hash = none) :
    tooOld transactionExpired oldestArrivalTime currentTime item = true ∧
      status.tsCommitPoint ≤ lastFinCommitPoint := by
  rw [purgeTables_ttHashMap transactionExpired lastFinCommitPoint oldestArrivalTime currentTime
    tt ptt distinctTransactions distinctUpdates] at after
  cases accounts : accountsPurgedTable transactionExpired lastFinCommitPoint oldestArrivalTime
      currentTime tt hash with
  | none =>
      -- the accounts phase removed it: a dropped transaction has this hash
      obtain ⟨⟨tx, verRes⟩, listed, sameHash, dropped⟩ := exists_of_purgedTable_eq_none before accounts
      obtain ⟨addr, n, recorded⟩ := mem_indexItems.mp listed
      obtain ⟨txStatus, found⟩ := invariant.transactions.inTable _ _ _ _ recorded
      rw [itemHash_mk] at sameHash
      rw [sameHash, before] at found
      obtain ⟨rfl, -⟩ := Prod.mk.inj (Option.some.inj found)
      rw [tooOld_normalTransaction]
      exact dropItem_eq_true transactionExpired lastFinCommitPoint oldestArrivalTime currentTime
        dropped
  | some entry =>
      obtain rfl : entry = (item, status) := Option.some.inj
        ((accountsPurgedTable_eq_some transactionExpired lastFinCommitPoint oldestArrivalTime
          currentTime accounts).symm.trans before)
      by_cases purged : credentialPurged transactionExpired lastFinCommitPoint oldestArrivalTime
        currentTime ptt.pttDeployCredential (accountsPurgedTable transactionExpired
          lastFinCommitPoint oldestArrivalTime currentTime tt) hash = true
      · -- the credential phase removed it
        rw [credentialPurged, Bool.and_eq_true, accounts, Option.isNone_iff_eq_none] at purged
        exact purgeCredentialEntry_eq_none transactionExpired lastFinCommitPoint oldestArrivalTime
          currentTime purged.2
      · -- the chain update phase removed it: a dropped chain update has this hash
        have credentials : credentialsPurgedTable transactionExpired lastFinCommitPoint
            oldestArrivalTime currentTime tt ptt hash = some (item, status) := by
          rw [credentialsPurgedTable, if_neg purged, accounts]
        obtain ⟨⟨upd, verRes⟩, listed, sameHash, dropped⟩ :=
          exists_of_purgedTable_eq_none credentials after
        obtain ⟨uty, n, recorded⟩ := mem_indexItems.mp listed
        obtain ⟨updStatus, found⟩ := invariant.updates.inTable _ _ _ _ recorded
        rw [itemHash_mk] at sameHash
        rw [sameHash, before] at found
        obtain ⟨rfl, -⟩ := Prod.mk.inj (Option.some.inj found)
        rw [tooOld_chainUpdate]
        exact dropItem_eq_true transactionExpired lastFinCommitPoint oldestArrivalTime currentTime
          dropped

/-- Each pending range of an account is gone when no nonce at or above its low end is left, and
otherwise ends at the greatest nonce left. -/
theorem purgeTables_pending_transactions (invariant : TableInvariant tt ptt) (addr : Account)
    (low high : Nat) (pending : ptt.pttWithSender addr = some (low, high)) :
    PurgedRange (recordedNumbers AccountNonFinalizedTransactions.anftMap
        (purgeTables transactionExpired lastFinCommitPoint oldestArrivalTime currentTime tt
          ptt).1.ttNonFinalizedTransactions addr) low
      ((purgeTables transactionExpired lastFinCommitPoint oldestArrivalTime currentTime tt
        ptt).2.pttWithSender addr) := by
  rw [purgeTables_pttWithSender transactionExpired lastFinCommitPoint oldestArrivalTime
      currentTime tt ptt distinctTransactions distinctUpdates,
    recordedNumbers_purgeTables_transactions transactionExpired lastFinCommitPoint
      oldestArrivalTime currentTime tt ptt distinctTransactions distinctUpdates]
  cases found : tt.ttNonFinalizedTransactions.lookup addr with
  | none =>
      -- a range of an account with nothing recorded cannot be
      have recordedHigh := invariant.transactions.pendingHigh addr low high pending
      rw [recordedNumbers, found] at recordedHigh
      exact absurd recordedHigh (by simp)
  | some anft =>
      rw [Option.elim, Option.map_some, Option.getD_some, pending]
      exact purgedRange_updptt _ low high

/-- Each pending range of an update type is gone when no sequence number at or above its low
end is left, and otherwise ends at the greatest sequence number left. -/
theorem purgeTables_pending_updates (invariant : TableInvariant tt ptt) (uty : Update)
    (low high : Nat) (pending : ptt.pttUpdates uty = some (low, high)) :
    PurgedRange (recordedNumbers NonFinalizedChainUpdates.nfcuMap
        (purgeTables transactionExpired lastFinCommitPoint oldestArrivalTime currentTime tt
          ptt).1.ttNonFinalizedChainUpdates uty) low
      ((purgeTables transactionExpired lastFinCommitPoint oldestArrivalTime currentTime tt
        ptt).2.pttUpdates uty) := by
  rw [purgeTables_pttUpdates transactionExpired lastFinCommitPoint oldestArrivalTime
      currentTime tt ptt distinctTransactions distinctUpdates,
    recordedNumbers_purgeTables_updates transactionExpired lastFinCommitPoint
      oldestArrivalTime currentTime tt ptt distinctTransactions distinctUpdates]
  cases found : tt.ttNonFinalizedChainUpdates.lookup uty with
  | none =>
      have recordedHigh := invariant.updates.pendingHigh uty low high pending
      rw [recordedNumbers, found] at recordedHigh
      exact absurd recordedHigh (by simp)
  | some nfcu =>
      rw [Option.elim, Option.map_some, Option.getD_some, pending]
      exact purgedRange_updptt _ low high

end Result

/-- `purgeTables` keeps the invariants of the table, removes only entries that are too old and
held by no block after the last finalized one, leaves every other entry as it was, and drops a
pending range or ends it at the greatest number left. The hashes of the recorded items must be
distinct, and no pending credential hash may be a chain update's: the credential phase runs before
the chain updates', and would otherwise delete a chain update's entry while it stays recorded. -/
theorem purgeTables_keeps_invariants (tt : TransactionTable Account Hash Update Tx Cred Upd V R)
    (ptt : PendingTransactionTable Account Hash Update) (invariant : TableInvariant tt ptt)
    (distinctTransactions : ((indexItems AccountNonFinalizedTransactions.anftMap
      tt.ttNonFinalizedTransactions).map itemHash).Nodup)
    (distinctUpdates : ((indexItems NonFinalizedChainUpdates.nfcuMap
      tt.ttNonFinalizedChainUpdates).map itemHash).Nodup)
    (credentialsNotUpdates : ∀ hash upd status, ptt.pttDeployCredential hash = true →
      tt.ttHashMap hash ≠ some (BlockItem.chainUpdate upd, status)) :
    let result := purgeTables transactionExpired lastFinCommitPoint oldestArrivalTime currentTime
      tt ptt
    TableInvariant result.1 result.2 ∧
      (∀ hash item status, tt.ttHashMap hash = some (item, status) →
        result.1.ttHashMap hash = none →
          tooOld transactionExpired oldestArrivalTime currentTime item = true ∧
            status.tsCommitPoint ≤ lastFinCommitPoint) ∧
      (∀ hash entry, result.1.ttHashMap hash = some entry → tt.ttHashMap hash = some entry) ∧
      (∀ addr low high, ptt.pttWithSender addr = some (low, high) →
        PurgedRange (recordedNumbers AccountNonFinalizedTransactions.anftMap
          result.1.ttNonFinalizedTransactions addr) low (result.2.pttWithSender addr)) ∧
      (∀ uty low high, ptt.pttUpdates uty = some (low, high) →
        PurgedRange (recordedNumbers NonFinalizedChainUpdates.nfcuMap
          result.1.ttNonFinalizedChainUpdates uty) low (result.2.pttUpdates uty)) :=
  ⟨⟨purgeTables_transactions_invariant transactionExpired lastFinCommitPoint oldestArrivalTime
      currentTime tt ptt distinctTransactions distinctUpdates invariant,
    purgeTables_updates_invariant transactionExpired lastFinCommitPoint oldestArrivalTime
      currentTime tt ptt distinctTransactions distinctUpdates invariant credentialsNotUpdates⟩,
  fun _ _ _ before after => purgeTables_removes_only_stale transactionExpired lastFinCommitPoint
    oldestArrivalTime currentTime tt ptt distinctTransactions distinctUpdates invariant before after,
  fun _ _ left => purgeTables_ttHashMap_eq_some transactionExpired lastFinCommitPoint
    oldestArrivalTime currentTime tt ptt distinctTransactions distinctUpdates left,
  fun addr low high pending => purgeTables_pending_transactions transactionExpired
    lastFinCommitPoint oldestArrivalTime currentTime tt ptt distinctTransactions distinctUpdates
    invariant addr low high pending,
  fun uty low high pending => purgeTables_pending_updates transactionExpired lastFinCommitPoint
    oldestArrivalTime currentTime tt ptt distinctTransactions distinctUpdates invariant uty low high
    pending⟩

end Purge

/-! ## A chain update under a pending credential hash -/

/-- The one item of the example: of hash 0, arrived at time 0 and expiring at time 0. -/
inductive StaleItem where
  | stale
deriving DecidableEq

instance : LinearOrder StaleItem :=
  LinearOrder.lift' (fun _ => (0 : Nat)) fun first second _ => by
    cases first
    cases second
    rfl

instance : BIMetadata StaleItem Nat := ⟨fun _ => 0, fun _ => 0⟩

instance : HasMessageExpiry StaleItem := ⟨fun _ => 0⟩

/-- A table of one chain update, of type 0 at sequence number 1, received with commit point 0. -/
def staleTable : TransactionTable Nat Nat Nat StaleItem StaleItem StaleItem Unit Unit where
  ttHashMap hash :=
    if hash = 0 then some (.chainUpdate .stale, .received 0 ()) else none
  ttNonFinalizedTransactions := AscMap.empty
  ttNonFinalizedChainUpdates :=
    AscMap.singleton 0 ⟨AscMap.singleton 1 (AscMap.singleton .stale ()), 2⟩

/-- The pending table of `staleTable`, with the update pending at 1 and `credentials` the pending
credential hashes. -/
def stalePending (credentials : Nat → Bool) : PendingTransactionTable Nat Nat Nat where
  pttWithSender _ := none
  pttDeployCredential := credentials
  pttUpdates uty := if uty = 0 then some (1, 1) else none

theorem staleTable_invariant (credentials : Nat → Bool) :
    TableInvariant staleTable (stalePending credentials) where
  transactions :=
    { inTable := fun _ _ _ _ ⟨_, _, found, _⟩ => by cases found
      indexed := fun hash _ _ found => by
        simp only [staleTable] at found
        split_ifs at found
        cases found
      nonEmpty := fun _ _ _ _ found => by cases found
      pendingHigh := fun _ _ _ pending => by cases pending }
  updates :=
    { inTable := fun _ _ item _ _ => by
        cases item
        exact ⟨.received 0 (), rfl⟩
      indexed := fun hash item status found => by
        simp only [staleTable] at found
        split_ifs at found with zero
        cases found
        subst zero
        exact ⟨rfl, 0, 1, (), _, _, rfl, rfl, rfl⟩
      nonEmpty := fun key group n items groupFound itemsFound => by
        simp only [staleTable, AscMap.lookup_singleton] at groupFound
        split_ifs at groupFound
        cases groupFound
        rw [AscMap.lookup_singleton] at itemsFound
        split_ifs at itemsFound
        cases itemsFound
        rfl
      pendingHigh := fun uty low high pending => by
        simp only [stalePending] at pending
        split_ifs at pending with zero
        cases pending
        subst zero
        rfl }

/-- A chain update whose hash is also pending as a credential deployment: the credential phase,
which runs first, deletes its entry as too old and removable, and the chain update phase, which
finds no entry, keeps it recorded. -/
theorem purgeTables_loses_update_under_credential_hash :
    TableInvariant staleTable (stalePending fun hash => hash = 0) ∧
      ¬TableInvariant
        (purgeTables (fun _ _ => false) 0 1 0 staleTable (stalePending fun hash => hash = 0)).1
        (purgeTables (fun _ _ => false) 0 1 0 staleTable (stalePending fun hash => hash = 0)).2 := by
  refine ⟨staleTable_invariant _, fun after => ?_⟩
  have recorded : Recorded NonFinalizedChainUpdates.nfcuMap
      (purgeTables (fun _ _ => false) 0 1 0 staleTable
        (stalePending fun hash => hash = 0)).1.ttNonFinalizedChainUpdates 0 1 StaleItem.stale () :=
    ⟨_, _, rfl, rfl, rfl⟩
  have gone : (purgeTables (fun _ _ => false) 0 1 0 staleTable
      (stalePending fun hash => hash = 0)).1.ttHashMap 0 = none := rfl
  obtain ⟨status, found⟩ := after.updates.inTable _ _ _ _ recorded
  rw [show biHash StaleItem.stale = 0 from rfl, gone] at found
  cases found

/-- With no pending credential hash the same table keeps its invariants. -/
theorem purgeTables_keeps_invariants_of_stale_update :
    TableInvariant
      (purgeTables (fun _ _ => false) 0 1 0 staleTable (stalePending fun _ => false)).1
      (purgeTables (fun _ _ => false) 0 1 0 staleTable (stalePending fun _ => false)).2 :=
  (purgeTables_keeps_invariants (fun _ _ => false) 0 1 0 staleTable (stalePending fun _ => false)
    (staleTable_invariant _) (by decide) (by decide)
    fun _ _ _ pending => absurd pending Bool.false_ne_true).1

/-! ## The pending credentials in either order -/

/-- The pending table of `staleTable` with the credential hashes `0` and `2` pending. -/
def twoCredentials : PendingTransactionTable Nat Nat Nat :=
  stalePending fun hash => decide (hash = 0 ∨ hash = 2)

theorem foldl_purgeDC_on_two_credentials :
    ([2, 0] : List Nat).Nodup ∧
      (∀ cdihash, cdihash ∈ ([2, 0] : List Nat) ↔
        twoCredentials.pttDeployCredential cdihash = true) ∧
      ([2, 0] : List Nat).foldl (purgeDC (fun _ _ => true) 0 1 0)
          (twoCredentials.pttDeployCredential, staleTable.ttHashMap) =
        ((purgeDeployCredentials (fun _ _ => true) 0 1 0
            (twoCredentials, staleTable.ttHashMap)).1.pttDeployCredential,
          (purgeDeployCredentials (fun _ _ => true) 0 1 0
            (twoCredentials, staleTable.ttHashMap)).2) := by
  have distinct : ([2, 0] : List Nat).Nodup := by decide
  have enumerates : ∀ cdihash, cdihash ∈ ([2, 0] : List Nat) ↔
      twoCredentials.pttDeployCredential cdihash = true := by
    intro cdihash
    simp only [twoCredentials, stalePending, List.mem_cons, List.not_mem_nil, or_false,
      decide_eq_true_eq]
    exact or_comm
  exact ⟨distinct, enumerates, foldl_purgeDC (fun _ _ => true) 0 1 0 twoCredentials
    staleTable.ttHashMap [2, 0] distinct enumerates⟩

end Concordium.GlobalState.PurgeTransactions
