import Concordium.Scheduler.FilterTransactions.Steps
import Concordium.Library.SortedKey
import Concordium.Library.Rounding
import Concordium.Library.Transition

/-!
Contract: what block construction keeps, over every run of `filterTransactions`.

Owns:
- the measures of a result: the items it added of each kind (`addedTransactions`,
  `addedCredentials`, `addedUpdates`), where each kind of item went (`transactionLedger`,
  `credentialLedger`, `updateLedger`), the size of the added items (`addedSize`) and the block
  energy they were charged (`addedEnergy`);
- for each kind of step, what it keeps: the items it takes off the group are the ones it adds,
  fails or leaves unprocessed; a step adds at most the item it checked against the size and
  energy limits; and an added transaction or update leaves only larger nonces or sequence
  numbers behind it;
- the theorems over `filterTransactions`: every item is accounted for once, the added items fit
  the size limit and, when no declared energy can wrap around, the block energy limit; no more
  credentials are executed than the limit allows; the added transactions of an account, and
  the added updates of a type, have distinct nonces and sequence numbers.

Does not own: the steps (`Concordium.Scheduler.FilterTransactions.Steps`).
-/

set_option autoImplicit false

namespace Concordium.Scheduler

variable {World Tx Cred Upd Summary Reason : Type}

namespace BlockItem

def normalTransaction? : BlockItem Tx Cred Upd → Option Tx
  | .normalTransaction t => some t
  | _ => none

def credentialDeployment? : BlockItem Tx Cred Upd → Option Cred
  | .credentialDeployment c => some c
  | _ => none

def chainUpdate? : BlockItem Tx Cred Upd → Option Upd
  | .chainUpdate u => some u
  | _ => none

end BlockItem

/-- The update groups, as `perAccountTransactions` gives the account groups. -/
def updateGroups (gts : List (TransactionGroup Tx Cred Upd)) : List (List Upd) :=
  gts.filterMap fun
    | .TGUpdateInstructions group => some group
    | _ => none

theorem flatten_perAccountTransactions_subset (group : TransactionGroup Tx Cred Upd)
    (groups : List (TransactionGroup Tx Cred Upd)) :
    (perAccountTransactions groups).flatten ⊆ (perAccountTransactions (group :: groups)).flatten :=
  (((List.sublist_cons_self group groups).filterMap _).flatten).subset

theorem credentialDeployments_subset (group : TransactionGroup Tx Cred Upd)
    (groups : List (TransactionGroup Tx Cred Upd)) :
    credentialDeployments groups ⊆ credentialDeployments (group :: groups) :=
  ((List.sublist_cons_self group groups).filterMap _).subset

section Measures

variable (fields : ItemFields Tx Cred Upd Summary)
  (fts : FilteredTransactions Tx Cred Upd Summary Reason)

def addedTransactions : List Tx :=
  fts.ftAdded.filterMap fun entry => entry.1.normalTransaction?

def addedCredentials : List Cred :=
  fts.ftAdded.filterMap fun entry => entry.1.credentialDeployment?

def addedUpdates : List Upd :=
  fts.ftAdded.filterMap fun entry => entry.1.chainUpdate?

/-- Where the transactions went: added, failed or left unprocessed. -/
def transactionLedger : Multiset Tx :=
  (addedTransactions fts : Multiset Tx) + (fts.ftFailed.map Prod.fst : Multiset Tx) +
    (fts.ftUnprocessed : Multiset Tx)

def credentialLedger : Multiset Cred :=
  (addedCredentials fts : Multiset Cred) + (fts.ftFailedCredentials.map Prod.fst : Multiset Cred) +
    (fts.ftUnprocessedCredentials : Multiset Cred)

def updateLedger : Multiset Upd :=
  (addedUpdates fts : Multiset Upd) + (fts.ftFailedUpdates.map Prod.fst : Multiset Upd) +
    (fts.ftUnprocessedUpdates : Multiset Upd)

def itemSize : BlockItem Tx Cred Upd → Nat
  | .normalTransaction t => fields.transactionSize t
  | .credentialDeployment c => fields.credentialSize c
  | .chainUpdate u => fields.updateSize u

def addedSize : Nat :=
  (fts.ftAdded.map fun entry => itemSize fields entry.1).sum

/-- The block energy an added item was charged, its summary's `tsEnergyCost`; an update
instruction is charged none. -/
def chargedEnergy : BlockItem Tx Cred Upd × Summary → Nat
  | (.chainUpdate _, _) => 0
  | (_, summary) => (fields.tsEnergyCost summary).toNat

def addedEnergy : Nat :=
  (fts.ftAdded.map (chargedEnergy fields)).sum

end Measures

/-! ## What `validTs` and `invalidTs` do -/

section Handlers

variable (fields : ItemFields Tx Cred Upd Summary) (t : Tx) (ts : List Tx)
  (fts : FilteredTransactions Tx Cred Upd Summary Reason)

/-- The transactions after `t` that `validTs` fails, those of its nonce before any other. -/
def sameNonce : Tx → Bool :=
  fun next => fields.transactionNonce next == fields.transactionNonce t

theorem validTs_eq (summary : Summary) (st : SchedulerState World) :
    validTs fields t summary fts ts st =
      (({ fts with
          ftFailed := (ts.takeWhile (sameNonce fields t)).map
              (fun next => (next, .NonSequentialNonce (fields.transactionNonce t + 1))) ++
            fts.ftFailed
          ftAdded := (.normalTransaction t, summary) :: fts.ftAdded },
        ts.dropWhile (sameNonce fields t)),
        markEnergyUsed (fields.tsEnergyCost summary) st) := by
  simp only [validTs, List.span_eq_takeWhile_dropWhile]
  rfl

/-- `invalidTs` fails `t`, and then the rest of the group or none of it. -/
theorem invalidTs_cases (failure : FailureKind Reason) :
    invalidTs fields t failure fts ts =
        ({ fts with
            ftFailed := (t, failure) ::
              ts.map (fun next => (next, .SuccessorOfInvalidTransaction)) ++ fts.ftFailed }, []) ∨
      invalidTs fields t failure fts ts =
        ({ fts with ftFailed := (t, failure) :: fts.ftFailed }, ts) := by
  unfold invalidTs
  split
  · exact .inl rfl
  · exact .inr rfl

end Handlers

/-! ## Every item is accounted for -/

section Ledgers

variable {effects : SchedulerEffects World Tx Cred Upd Summary Reason}
  {fields : ItemFields Tx Cred Upd Summary} {maxSize : Int} {timeout : UTCTime}
  {maxEnergy : Energy}

/-- What the three ledgers of a point in a group's processing add up to, with the items of the
group left counted among the transactions or the updates. -/
def transactionLedgers (p : GroupPoint World Tx Cred Upd Summary Reason Tx) :
    Multiset Tx × Multiset Cred × Multiset Upd :=
  (transactionLedger p.fts + (p.rest : Multiset Tx), credentialLedger p.fts, updateLedger p.fts)

def updateLedgers (p : GroupPoint World Tx Cred Upd Summary Reason Upd) :
    Multiset Tx × Multiset Cred × Multiset Upd :=
  (transactionLedger p.fts, credentialLedger p.fts, updateLedger p.fts + (p.rest : Multiset Upd))

theorem transactionLedgers_invalidTs (t : Tx) (ts : List Tx)
    (fts : FilteredTransactions Tx Cred Upd Summary Reason) (failure : FailureKind Reason)
    {size size' : Int} {st st' : SchedulerState World} :
    transactionLedgers ⟨size', (invalidTs fields t failure fts ts).1,
        (invalidTs fields t failure fts ts).2, st'⟩ =
      transactionLedgers ⟨size, fts, t :: ts, st⟩ := by
  rcases invalidTs_cases fields t ts fts failure with failed | failed <;> rw [failed] <;>
    simp only [transactionLedgers, transactionLedger, credentialLedger, updateLedger,
      addedTransactions, addedCredentials, addedUpdates, Prod.mk.injEq, ← Multiset.coe_add,
      ← Multiset.cons_coe, ← Multiset.singleton_add, Multiset.coe_nil, add_zero, and_true,
      List.map_append, List.map_cons, List.map_map, Function.comp_def, List.map_id'] <;>
    abel

theorem TransactionStep.ledgers {p q : GroupPoint World Tx Cred Upd Summary Reason Tx}
    (step : TransactionStep effects fields maxSize maxEnergy p q) :
    transactionLedgers q = transactionLedgers p := by
  cases step with
  | timeUp _ | deferred _ | leftUnprocessed _ =>
      simp only [transactionLedgers, transactionLedger, credentialLedger, updateLedger,
        addedTransactions, addedCredentials, addedUpdates, Prod.mk.injEq, ← Multiset.coe_add,
        List.cons_append, ← Multiset.cons_coe, ← Multiset.singleton_add, Multiset.coe_nil,
        add_zero, and_true]
      abel
  | @valid size fts t ts st now world summary world' =>
      rw [validTs_eq]
      -- the transactions `validTs` fails and those it leaves are the group after `t`
      conv_rhs => rw [← @List.takeWhile_append_dropWhile _ (sameNonce fields t) ts]
      simp only [transactionLedgers, transactionLedger, credentialLedger, updateLedger,
        addedTransactions, addedCredentials, addedUpdates, Prod.mk.injEq, ← Multiset.coe_add,
        ← Multiset.cons_coe, ← Multiset.singleton_add, and_true, List.filterMap_cons,
        BlockItem.normalTransaction?, BlockItem.credentialDeployment?, BlockItem.chainUpdate?,
        List.map_append, List.map_map, Function.comp_def, List.map_id']
      abel
  | invalid _ _ | exceeds _ => exact transactionLedgers_invalidTs _ _ _ _

theorem UpdateStep.ledgers {p q : GroupPoint World Tx Cred Upd Summary Reason Upd}
    (step : UpdateStep effects fields maxSize p q) : updateLedgers q = updateLedgers p := by
  cases step with
  | timeUp _ | invalid _ _ | invalidSuccessors _ _ | deferred _ | leftUnprocessed _ =>
      simp only [updateLedgers, transactionLedger, credentialLedger, updateLedger,
        addedTransactions, addedCredentials, addedUpdates, Prod.mk.injEq, ← Multiset.coe_add,
        List.cons_append, ← Multiset.cons_coe, ← Multiset.singleton_add, Multiset.coe_nil,
        add_zero, true_and, List.map_cons, List.map_append, List.map_map, Function.comp_def,
        List.map_id']
      abel
  | @valid size fts ui uis st now world summary world' =>
      -- the updates failed for a repeated sequence number and those left are the group after `ui`
      conv_rhs => rw [← @List.takeWhile_append_dropWhile _
        (fun u => fields.updateSeqNumber ui == fields.updateSeqNumber u) uis]
      simp only [updateLedgers, transactionLedger, credentialLedger, updateLedger,
        addedTransactions, addedCredentials, addedUpdates, Prod.mk.injEq, ← Multiset.coe_add,
        ← Multiset.cons_coe, ← Multiset.singleton_add, true_and, List.filterMap_cons,
        BlockItem.normalTransaction?, BlockItem.credentialDeployment?, BlockItem.chainUpdate?,
        List.span_eq_takeWhile_dropWhile, List.map_append, List.map_map, Function.comp_def,
        List.map_id']
      abel

theorem CredentialStep.ledgers {size : Int} {credLimit : CredentialsPerBlockLimit}
    {fts : FilteredTransactions Tx Cred Upd Summary Reason} {c : Cred} {st : SchedulerState World}
    {next : Resume World Tx Cred Upd Summary Reason} {credLimit' : CredentialsPerBlockLimit}
    (step : CredentialStep effects fields maxSize maxEnergy size credLimit fts c st
      (next, credLimit')) :
    (transactionLedger next.fts, credentialLedger next.fts, updateLedger next.fts) =
      (transactionLedger fts, credentialLedger fts + {c}, updateLedger fts) := by
  cases step <;>
    simp only [transactionLedger, credentialLedger, updateLedger, addedTransactions,
      addedCredentials, addedUpdates, Prod.mk.injEq, List.filterMap_cons,
      BlockItem.normalTransaction?, BlockItem.credentialDeployment?, BlockItem.chainUpdate?,
      List.map_cons, ← Multiset.cons_coe, ← Multiset.singleton_add, true_and, and_true] <;>
    abel

/-- What the ledgers of a point of `runNext` add up to, with the items of the groups left. -/
def nextLedgers (p : NextPoint World Tx Cred Upd Summary Reason) :
    Multiset Tx × Multiset Cred × Multiset Upd :=
  (transactionLedger p.fts + ((perAccountTransactions p.groups).flatten : Multiset Tx),
    credentialLedger p.fts + (credentialDeployments p.groups : Multiset Cred),
    updateLedger p.fts + ((updateGroups p.groups).flatten : Multiset Upd))

theorem NextStep.ledgers {p q : NextPoint World Tx Cred Upd Summary Reason}
    (step : NextStep effects fields maxSize timeout maxEnergy p q) :
    nextLedgers q = nextLedgers p := by
  cases step with
  | skipTransactions | skipCredential | skipUpdates =>
      simp only [nextLedgers, transactionLedger, credentialLedger, updateLedger,
        addedTransactions, addedCredentials, addedUpdates, perAccountTransactions,
        credentialDeployments, updateGroups, List.filterMap_cons, List.flatten_cons,
        Prod.mk.injEq, ← Multiset.coe_add, ← Multiset.cons_coe, ← Multiset.singleton_add,
        and_true, true_and]
      abel
  | transactions _ run done =>
      have kept := Transition.conserved transactionLedgers (fun step => step.ledgers) run
      simp only [transactionLedgers, done, Multiset.coe_nil, add_zero, Prod.mk.injEq] at kept
      simp only [nextLedgers, kept, perAccountTransactions, credentialDeployments, updateGroups,
        List.filterMap_cons, List.flatten_cons, Prod.mk.injEq, ← Multiset.coe_add, and_true]
      abel
  | credential ran =>
      have kept := (runCredential_step effects fields maxSize timeout maxEnergy ran).ledgers
      simp only [Prod.mk.injEq] at kept
      simp only [nextLedgers, kept, perAccountTransactions, credentialDeployments, updateGroups,
        List.filterMap_cons, Prod.mk.injEq, ← Multiset.cons_coe, ← Multiset.singleton_add,
        and_true, true_and]
      abel
  | updates _ run done =>
      have kept := Transition.conserved updateLedgers (fun step => step.ledgers) run
      simp only [updateLedgers, done, Multiset.coe_nil, add_zero, Prod.mk.injEq] at kept
      simp only [nextLedgers, kept, perAccountTransactions, credentialDeployments, updateGroups,
        List.filterMap_cons, List.flatten_cons, Prod.mk.injEq, ← Multiset.coe_add, true_and]
      abel

/-- `runNext` puts the added items back in the order they were added; the ledgers count them
alike. -/
theorem ledgers_reverse (fts : FilteredTransactions Tx Cred Upd Summary Reason) :
    (transactionLedger { fts with ftAdded := fts.ftAdded.reverse },
        credentialLedger { fts with ftAdded := fts.ftAdded.reverse },
        updateLedger { fts with ftAdded := fts.ftAdded.reverse }) =
      (transactionLedger fts, credentialLedger fts, updateLedger fts) := by
  simp only [transactionLedger, credentialLedger, updateLedger, addedTransactions,
    addedCredentials, addedUpdates, List.filterMap_reverse, Multiset.coe_reverse]

/-- Block construction accounts for every item once: the transactions of the account groups
are those it added, failed or left unprocessed, each as often as it was given, and so are the
credential deployments and the update instructions. -/
theorem filterTransactions_accounts {groups : List (TransactionGroup Tx Cred Upd)}
    {st : SchedulerState World}
    {result : FilteredTransactions Tx Cred Upd Summary Reason × SchedulerState World}
    (ran : filterTransactions effects fields maxSize timeout groups st = some result) :
    (addedTransactions result.1 ++ result.1.ftFailed.map Prod.fst ++ result.1.ftUnprocessed).Perm
        (perAccountTransactions groups).flatten ∧
      (addedCredentials result.1 ++ result.1.ftFailedCredentials.map Prod.fst ++
          result.1.ftUnprocessedCredentials).Perm (credentialDeployments groups) ∧
      (addedUpdates result.1 ++ result.1.ftFailedUpdates.map Prod.fst ++
          result.1.ftUnprocessedUpdates).Perm (updateGroups groups).flatten := by
  obtain ⟨last, run, done, rfl⟩ := runNext_steps effects fields maxSize timeout _ ran
  have kept := Transition.conserved nextLedgers (fun step => step.ledgers) run
  simp only [nextLedgers, done, perAccountTransactions, credentialDeployments, updateGroups,
    List.filterMap_nil, List.flatten_nil, Multiset.coe_nil, add_zero, Prod.mk.injEq] at kept
  have reversed := ledgers_reverse last.fts
  rw [kept.1, kept.2.1, kept.2.2] at reversed
  simp only [Prod.mk.injEq, transactionLedger, credentialLedger, updateLedger, emptyFilteredTransactions,
    addedTransactions, addedCredentials, addedUpdates, List.filterMap_nil, List.map_nil,
    Multiset.coe_add, Multiset.coe_eq_coe] at reversed
  exact reversed

/-- A chain for the witnesses: the clock stands still before the timeout; transaction `5`
fails and every other is charged its declared energy; a credential deployment is charged `3` of
its `5` and counted in the world; update `9` fails. -/
def sampleEffects : SchedulerEffects Nat Nat Nat Nat Nat Unit where
  getMaxBlockEnergy _ := 100
  getAccountCreationLimit _ := 1
  currentTime world := (0, world)
  dispatch t st := (some (if t = 5 then .TxInvalid (.otherKind ()) else .TxValid t), st.world)
  handleDeployCredential _ st := (some (.TxValid 3), st.world + 1)
  handleChainUpdate u st := (if u = 9 then .TxInvalid (.otherKind ()) else .TxValid 0, st.world)

/-- Transactions of nonce half their number, declaring their number as energy. -/
def sampleFields : ItemFields Nat Nat Nat Nat where
  transactionSize _ := 10
  transactionGasAmount t := t.toUInt64
  transactionNonce t := (t / 2).toUInt64
  credentialSize _ := 20
  deployCredential _ := 5
  updateSize _ := 1
  updateSeqNumber u := u.toUInt64
  tsEnergyCost summary := summary.toUInt64

/-- Two transactions of one nonce and one of the next, two credential deployments with room for
one, and a failing update between two others. -/
def sampleGroups : List (TransactionGroup Nat Nat Nat) :=
  [.TGAccountTransactions [2, 3, 4], .TGCredentialDeployment 7, .TGCredentialDeployment 8,
    .TGUpdateInstructions [1, 9, 10]]

theorem sample_ran :
    filterTransactions sampleEffects sampleFields 1000 10 sampleGroups ⟨0, 0⟩ =
      some ((filterTransactions sampleEffects sampleFields 1000 10 sampleGroups ⟨0, 0⟩).get
        (by decide +kernel)) :=
  (Option.some_get _).symm

theorem filterTransactions_accounts_on_sample :
    ∃ result, filterTransactions sampleEffects sampleFields 1000 10 sampleGroups ⟨0, 0⟩ =
        some result ∧
      (addedTransactions result.1 ++ result.1.ftFailed.map Prod.fst ++
          result.1.ftUnprocessed).Perm [2, 3, 4] ∧
      (addedCredentials result.1 ++ result.1.ftFailedCredentials.map Prod.fst ++
          result.1.ftUnprocessedCredentials).Perm [7, 8] ∧
      (addedUpdates result.1 ++ result.1.ftFailedUpdates.map Prod.fst ++
          result.1.ftUnprocessedUpdates).Perm [1, 9, 10] :=
  ⟨_, sample_ran, filterTransactions_accounts sample_ran⟩

end Ledgers

/-! ## The added items fit the block -/

section Limits

variable {effects : SchedulerEffects World Tx Cred Upd Summary Reason}
  {fields : ItemFields Tx Cred Upd Summary} {maxSize : Int} {timeout : UTCTime}
  {maxEnergy : Energy}

theorem ftAdded_invalidTs (t : Tx) (ts : List Tx)
    (fts : FilteredTransactions Tx Cred Upd Summary Reason) (failure : FailureKind Reason) :
    (invalidTs fields t failure fts ts).1.ftAdded = fts.ftAdded := by
  rcases invalidTs_cases fields t ts fts failure with failed | failed <;> rw [failed]

/-- A step takes the first item left, and leaves a suffix of the others. -/
theorem TransactionStep.rest {p q : GroupPoint World Tx Cred Upd Summary Reason Tx}
    (step : TransactionStep effects fields maxSize maxEnergy p q) :
    ∃ t ts, p.rest = t :: ts ∧ q.rest <:+ ts := by
  cases step with
  | timeUp _ | leftUnprocessed _ => exact ⟨_, _, rfl, List.nil_suffix⟩
  | deferred _ => exact ⟨_, _, rfl, List.suffix_refl _⟩
  | @valid size fts t ts st now world summary world' =>
      refine ⟨t, ts, rfl, ?_⟩
      rw [validTs_eq]
      exact List.dropWhile_suffix _
  | @invalid size fts t ts st now world reason world' =>
      refine ⟨t, ts, rfl, ?_⟩
      rcases invalidTs_cases fields t ts fts reason with failed | failed <;> rw [failed]
      exact List.nil_suffix
  | @exceeds size fts t ts st now world =>
      refine ⟨t, ts, rfl, ?_⟩
      rcases invalidTs_cases fields t ts fts .ExceedsMaxBlockEnergy with failed | failed <;>
        rw [failed]
      exact List.nil_suffix

/-- The size of the block so far is the size of the items added, within the limit. -/
structure SizeWithin (fields : ItemFields Tx Cred Upd Summary) (maxSize : Int) (size : Int)
    (fts : FilteredTransactions Tx Cred Upd Summary Reason) : Prop where
  counted : size = addedSize fields fts
  within : size ≤ maxSize

theorem SizeWithin.frame {size : Int} {fts fts' : FilteredTransactions Tx Cred Upd Summary Reason}
    (within : SizeWithin fields maxSize size fts) (same : fts'.ftAdded = fts.ftAdded) :
    SizeWithin fields maxSize size fts' :=
  ⟨by rw [addedSize, same]; exact within.counted, within.within⟩

/-- Adding an item that was checked to fit. -/
theorem SizeWithin.add {size : Int} {fts fts' : FilteredTransactions Tx Cred Upd Summary Reason}
    (within : SizeWithin fields maxSize size fts) (item : BlockItem Tx Cred Upd)
    {summary : Summary} (added : fts'.ftAdded = (item, summary) :: fts.ftAdded)
    (fits : size + itemSize fields item ≤ maxSize) :
    SizeWithin fields maxSize (size + itemSize fields item) fts' := by
  refine ⟨?_, fits⟩
  have counted := within.counted
  rw [addedSize, added, List.map_cons, List.sum_cons, Nat.cast_add]
  rw [addedSize] at counted
  dsimp only
  omega

theorem TransactionStep.sizeWithin {p q : GroupPoint World Tx Cred Upd Summary Reason Tx}
    (step : TransactionStep effects fields maxSize maxEnergy p q)
    (within : SizeWithin fields maxSize p.size p.fts) : SizeWithin fields maxSize q.size q.fts := by
  cases step with
  | timeUp _ | deferred _ | leftUnprocessed _ => exact within.frame rfl
  | @valid _ _ t _ _ _ _ _ _ _ fits _ _ =>
      exact within.add (.normalTransaction t) (by rw [validTs_eq]) fits
  | invalid _ _ | exceeds _ => exact within.frame (ftAdded_invalidTs _ _ _ _)

theorem UpdateStep.sizeWithin {p q : GroupPoint World Tx Cred Upd Summary Reason Upd}
    (step : UpdateStep effects fields maxSize p q)
    (within : SizeWithin fields maxSize p.size p.fts) : SizeWithin fields maxSize q.size q.fts := by
  cases step with
  | timeUp _ | invalid _ _ | invalidSuccessors _ _ | deferred _ | leftUnprocessed _ =>
      exact within.frame rfl
  | @valid _ _ ui _ _ _ _ _ _ _ fits _ => exact within.add (.chainUpdate ui) rfl fits

theorem CredentialStep.sizeWithin {size : Int} {credLimit : CredentialsPerBlockLimit}
    {fts : FilteredTransactions Tx Cred Upd Summary Reason} {c : Cred} {st : SchedulerState World}
    {next : Resume World Tx Cred Upd Summary Reason} {credLimit' : CredentialsPerBlockLimit}
    (step : CredentialStep effects fields maxSize maxEnergy size credLimit fts c st
      (next, credLimit'))
    (within : SizeWithin fields maxSize size fts) : SizeWithin fields maxSize next.size next.fts := by
  cases step with
  | timeUp _ | invalid _ _ _ _ _ | exceeds _ | deferred _ => exact within.frame rfl
  | valid _ _ fits _ _ => exact within.add (.credentialDeployment c) rfl fits

theorem NextStep.sizeWithin {p q : NextPoint World Tx Cred Upd Summary Reason}
    (step : NextStep effects fields maxSize timeout maxEnergy p q)
    (within : SizeWithin fields maxSize p.size p.fts) : SizeWithin fields maxSize q.size q.fts := by
  cases step with
  | skipTransactions | skipCredential | skipUpdates => exact within.frame rfl
  | transactions _ run _ =>
      exact Transition.holds (fun point => SizeWithin fields maxSize point.size point.fts)
        (fun step => step.sizeWithin) run within
  | credential ran =>
      exact (runCredential_step effects fields maxSize timeout maxEnergy ran).sizeWithin within
  | updates _ run _ =>
      exact Transition.holds (fun point => SizeWithin fields maxSize point.size point.fts)
        (fun step => step.sizeWithin) run within

theorem addedSize_reverse (fts : FilteredTransactions Tx Cred Upd Summary Reason) :
    addedSize fields { fts with ftAdded := fts.ftAdded.reverse } = addedSize fields fts := by
  rw [addedSize, addedSize, List.map_reverse, List.sum_reverse]

/-- The items block construction adds fit the block: their sizes sum to at most `maxSize`. -/
theorem filterTransactions_size_le {groups : List (TransactionGroup Tx Cred Upd)}
    {st : SchedulerState World}
    {result : FilteredTransactions Tx Cred Upd Summary Reason × SchedulerState World}
    (nonneg : 0 ≤ maxSize)
    (ran : filterTransactions effects fields maxSize timeout groups st = some result) :
    (addedSize fields result.1 : Int) ≤ maxSize := by
  obtain ⟨last, run, _, rfl⟩ := runNext_steps effects fields maxSize timeout _ ran
  have within := Transition.holds (fun point => SizeWithin fields maxSize point.size point.fts)
    (fun step => step.sizeWithin) run ⟨rfl, nonneg⟩
  rw [addedSize_reverse, ← within.counted]
  exact within.within

theorem filterTransactions_size_le_on_sample :
    ∃ result, filterTransactions sampleEffects sampleFields 1000 10 sampleGroups ⟨0, 0⟩ =
        some result ∧ (addedSize sampleFields result.1 : Int) ≤ 1000 :=
  ⟨_, sample_ran, filterTransactions_size_le (by decide) sample_ran⟩

/-- Executing an item charges at most the energy it declares: a transaction its
`transactionGasAmount`, a credential deployment its `deployCredential` cost. -/
structure ChargesWithin (effects : SchedulerEffects World Tx Cred Upd Summary Reason)
    (fields : ItemFields Tx Cred Upd Summary) : Prop where
  dispatch : ∀ {t st summary world}, effects.dispatch t st = (some (.TxValid summary), world) →
    fields.tsEnergyCost summary ≤ fields.transactionGasAmount t
  handleDeployCredential : ∀ {c st summary world},
    effects.handleDeployCredential c st = (some (.TxValid summary), world) →
      fields.tsEnergyCost summary ≤ fields.deployCredential c

/-- No declared energy of the groups' transactions and credential deployments wraps around when
added to the maximum block energy. -/
def EnergyFits (fields : ItemFields Tx Cred Upd Summary) (maxEnergy : Energy)
    (groups : List (TransactionGroup Tx Cred Upd)) : Prop :=
  (∀ t ∈ (perAccountTransactions groups).flatten,
      maxEnergy.toNat + (fields.transactionGasAmount t).toNat < 2 ^ 64) ∧
    ∀ c ∈ credentialDeployments groups,
      maxEnergy.toNat + (fields.deployCredential c).toNat < 2 ^ 64

theorem EnergyFits.tail {group : TransactionGroup Tx Cred Upd}
    {groups : List (TransactionGroup Tx Cred Upd)}
    (fits : EnergyFits fields maxEnergy (group :: groups)) : EnergyFits fields maxEnergy groups :=
  ⟨fun t listed => fits.1 t (flatten_perAccountTransactions_subset group groups listed),
    fun c listed => fits.2 c (credentialDeployments_subset group groups listed)⟩

/-- The block energy used is what it was at the start and what the added items were charged,
within the maximum. -/
structure EnergyWithin (fields : ItemFields Tx Cred Upd Summary) (maxEnergy : Energy)
    (initial : Nat) (fts : FilteredTransactions Tx Cred Upd Summary Reason)
    (st : SchedulerState World) : Prop where
  counted : st.usedEnergy.toNat = initial + addedEnergy fields fts
  within : st.usedEnergy ≤ maxEnergy

variable {initial : Nat}

theorem EnergyWithin.frame {fts fts' : FilteredTransactions Tx Cred Upd Summary Reason}
    {st st' : SchedulerState World} (within : EnergyWithin fields maxEnergy initial fts st)
    (same : fts'.ftAdded = fts.ftAdded) (used : st'.usedEnergy = st.usedEnergy) :
    EnergyWithin fields maxEnergy initial fts' st' :=
  ⟨by rw [addedEnergy, same, used]; exact within.counted, used ▸ within.within⟩

/-- Adding an update instruction, which is charged no energy. -/
theorem EnergyWithin.update {fts fts' : FilteredTransactions Tx Cred Upd Summary Reason}
    {st st' : SchedulerState World} (within : EnergyWithin fields maxEnergy initial fts st)
    {u : Upd} {summary : Summary} (added : fts'.ftAdded = (.chainUpdate u, summary) :: fts.ftAdded)
    (used : st'.usedEnergy = st.usedEnergy) : EnergyWithin fields maxEnergy initial fts' st' := by
  refine ⟨?_, used ▸ within.within⟩
  rw [addedEnergy, added, List.map_cons, List.sum_cons, chargedEnergy, Nat.zero_add, used]
  exact within.counted

/-- Adding an item charged at most the energy that was checked against the maximum. -/
theorem EnergyWithin.charge {fts fts' : FilteredTransactions Tx Cred Upd Summary Reason}
    {st st' : SchedulerState World} (within : EnergyWithin fields maxEnergy initial fts st)
    {item : BlockItem Tx Cred Upd} {summary : Summary}
    (added : fts'.ftAdded = (item, summary) :: fts.ftAdded)
    (charged : chargedEnergy fields (item, summary) = (fields.tsEnergyCost summary).toNat)
    {amount : Energy} (checked : st.usedEnergy + amount ≤ maxEnergy)
    (fits : maxEnergy.toNat + amount.toNat < 2 ^ 64) (honest : fields.tsEnergyCost summary ≤ amount)
    (used : st'.usedEnergy = st.usedEnergy + fields.tsEnergyCost summary) :
    EnergyWithin fields maxEnergy initial fts' st' := by
  obtain ⟨sum, below⟩ := Rounding.charge_le within.within fits checked honest
  refine ⟨?_, used ▸ below⟩
  have counted := within.counted
  rw [addedEnergy] at counted
  rw [used, sum, counted, addedEnergy, added, List.map_cons, List.sum_cons, charged]
  omega

theorem TransactionStep.energyWithin (charges : ChargesWithin effects fields)
    {p q : GroupPoint World Tx Cred Upd Summary Reason Tx}
    (step : TransactionStep effects fields maxSize maxEnergy p q)
    (fits : ∀ t ∈ p.rest, maxEnergy.toNat + (fields.transactionGasAmount t).toNat < 2 ^ 64)
    (within : EnergyWithin fields maxEnergy initial p.fts p.state) :
    EnergyWithin fields maxEnergy initial q.fts q.state := by
  cases step with
  | timeUp _ | deferred _ | leftUnprocessed _ => exact within.frame rfl rfl
  | invalid _ _ | exceeds _ => exact within.frame (ftAdded_invalidTs _ _ _ _) rfl
  | valid _ _ checked executed =>
      exact within.charge (by rw [validTs_eq]) rfl checked (fits _ List.mem_cons_self)
        (charges.dispatch executed) (by rw [validTs_eq]; rfl)

theorem UpdateStep.energyWithin {p q : GroupPoint World Tx Cred Upd Summary Reason Upd}
    (step : UpdateStep effects fields maxSize p q)
    (within : EnergyWithin fields maxEnergy initial p.fts p.state) :
    EnergyWithin fields maxEnergy initial q.fts q.state := by
  cases step with
  | timeUp _ | invalid _ _ | invalidSuccessors _ _ | deferred _ | leftUnprocessed _ =>
      exact within.frame rfl rfl
  | valid _ _ _ => exact within.update rfl rfl

theorem CredentialStep.energyWithin (charges : ChargesWithin effects fields) {size : Int}
    {credLimit : CredentialsPerBlockLimit} {fts : FilteredTransactions Tx Cred Upd Summary Reason}
    {c : Cred} {st : SchedulerState World} {next : Resume World Tx Cred Upd Summary Reason}
    {credLimit' : CredentialsPerBlockLimit}
    (step : CredentialStep effects fields maxSize maxEnergy size credLimit fts c st
      (next, credLimit'))
    (fits : maxEnergy.toNat + (fields.deployCredential c).toNat < 2 ^ 64)
    (within : EnergyWithin fields maxEnergy initial fts st) :
    EnergyWithin fields maxEnergy initial next.fts next.state := by
  cases step with
  | timeUp _ | invalid _ _ _ _ _ | exceeds _ | deferred _ => exact within.frame rfl rfl
  | valid _ _ _ checked executed =>
      exact within.charge rfl rfl checked fits (charges.handleDeployCredential executed) rfl

/-- Along a group's steps, the transactions left keep their declared energy from wrapping. -/
theorem TransactionStep.energyWithin_run (charges : ChargesWithin effects fields)
    {first last : GroupPoint World Tx Cred Upd Summary Reason Tx}
    (run : Relation.ReflTransGen (TransactionStep effects fields maxSize maxEnergy) first last)
    (fits : ∀ t ∈ first.rest, maxEnergy.toNat + (fields.transactionGasAmount t).toNat < 2 ^ 64)
    (within : EnergyWithin fields maxEnergy initial first.fts first.state) :
    EnergyWithin fields maxEnergy initial last.fts last.state := by
  refine (Transition.holds (fun point => (∀ t ∈ point.rest,
      maxEnergy.toNat + (fields.transactionGasAmount t).toNat < 2 ^ 64) ∧
      EnergyWithin fields maxEnergy initial point.fts point.state)
    (fun step kept => ⟨fun t listed => ?_, step.energyWithin charges kept.1 kept.2⟩) run
    ⟨fits, within⟩).2
  obtain ⟨head, tail, taken, suffix⟩ := step.rest
  apply kept.1 t
  rw [taken]
  exact List.mem_cons_of_mem head (suffix.subset listed)

theorem NextStep.energyWithin (charges : ChargesWithin effects fields)
    {p q : NextPoint World Tx Cred Upd Summary Reason}
    (step : NextStep effects fields maxSize timeout maxEnergy p q)
    (fits : EnergyFits fields maxEnergy p.groups)
    (within : EnergyWithin fields maxEnergy initial p.fts p.state) :
    EnergyWithin fields maxEnergy initial q.fts q.state := by
  cases step with
  | skipTransactions | skipCredential | skipUpdates => exact within.frame rfl rfl
  | transactions _ run _ =>
      exact TransactionStep.energyWithin_run charges run
        (fun t listed => fits.1 t (by simp [perAccountTransactions, listed])) within
  | credential ran =>
      exact (runCredential_step effects fields maxSize timeout maxEnergy ran).energyWithin charges
        (fits.2 _ (by simp [credentialDeployments])) within
  | updates _ run _ =>
      exact Transition.holds
        (fun point => EnergyWithin fields maxEnergy initial point.fts point.state)
        (fun step => step.energyWithin) run within

/-- `runNext` takes one group at a time. -/
theorem NextStep.groups {p q : NextPoint World Tx Cred Upd Summary Reason}
    (step : NextStep effects fields maxSize timeout maxEnergy p q) :
    ∃ group, p.groups = group :: q.groups := by
  cases step <;> exact ⟨_, rfl⟩

theorem addedEnergy_reverse (fts : FilteredTransactions Tx Cred Upd Summary Reason) :
    addedEnergy fields { fts with ftAdded := fts.ftAdded.reverse } = addedEnergy fields fts := by
  rw [addedEnergy, addedEnergy, List.map_reverse, List.sum_reverse]

/-- Block construction charges the block energy for what it adds and stays within the maximum
block energy: the energy used at the end is the energy used at the start and what the added
items were charged, and at most the maximum. This needs the energy used to start within the
maximum, executions to charge at most what an item declares, and no declared energy to wrap
around when added to the maximum, as the source adds them in `Word64`. -/
theorem filterTransactions_energy_le {groups : List (TransactionGroup Tx Cred Upd)}
    {st : SchedulerState World}
    {result : FilteredTransactions Tx Cred Upd Summary Reason × SchedulerState World}
    (charges : ChargesWithin effects fields)
    (below : st.usedEnergy ≤ effects.getMaxBlockEnergy st.world)
    (fits : EnergyFits fields (effects.getMaxBlockEnergy st.world) groups)
    (ran : filterTransactions effects fields maxSize timeout groups st = some result) :
    result.2.usedEnergy.toNat = st.usedEnergy.toNat + addedEnergy fields result.1 ∧
      result.2.usedEnergy ≤ effects.getMaxBlockEnergy st.world := by
  obtain ⟨last, run, _, rfl⟩ := runNext_steps effects fields maxSize timeout _ ran
  have within := Transition.holds
    (fun point => EnergyFits fields (effects.getMaxBlockEnergy st.world) point.groups ∧
      EnergyWithin fields (effects.getMaxBlockEnergy st.world) st.usedEnergy.toNat point.fts
        point.state)
    (fun step kept => by
      obtain ⟨group, taken⟩ := step.groups
      exact ⟨(taken ▸ kept.1).tail, step.energyWithin charges kept.1 kept.2⟩)
    run ⟨fits, rfl, below⟩
  rw [addedEnergy_reverse]
  exact ⟨within.2.counted, within.2.within⟩

/-- The sample's executions charge at most what its items declare. -/
theorem sample_charges : ChargesWithin sampleEffects sampleFields where
  dispatch := by
    intro t st summary world executed
    simp only [sampleEffects, Prod.mk.injEq, Option.some.injEq] at executed
    split at executed
    · cases executed.1
    · rw [← TxResult.TxValid.inj executed.1]
      exact UInt64.le_refl _
  handleDeployCredential := by
    intro c st summary world executed
    simp only [sampleEffects, Prod.mk.injEq, Option.some.injEq, TxResult.TxValid.injEq] at executed
    rw [← executed.1]
    exact (by decide : (3 : Nat).toUInt64 ≤ 5)

theorem filterTransactions_energy_le_on_sample :
    ∃ result, filterTransactions sampleEffects sampleFields 1000 10 sampleGroups ⟨0, 0⟩ =
        some result ∧
      result.2.usedEnergy.toNat = 0 + addedEnergy sampleFields result.1 ∧
        result.2.usedEnergy ≤ 100 :=
  ⟨_, sample_ran, filterTransactions_energy_le sample_charges (by decide)
    (by unfold EnergyFits; decide) sample_ran⟩

end Limits

/-! ## No more credentials are executed than the limit allows -/

section Deployments

variable {effects : SchedulerEffects World Tx Cred Upd Summary Reason}
  {fields : ItemFields Tx Cred Upd Summary} {maxSize : Int} {timeout : UTCTime}
  {maxEnergy : Energy}

/-- An observer of the world that the deployment of a credential advances by one, and nothing
else block construction calls changes: it counts the executions of credential deployments. -/
structure CountsDeployments (effects : SchedulerEffects World Tx Cred Upd Summary Reason)
    (count : World → Nat) : Prop where
  currentTime : ∀ world, count (effects.currentTime world).2 = count world
  dispatch : ∀ t st, count (effects.dispatch t st).2 = count st.world
  handleChainUpdate : ∀ u st, count (effects.handleChainUpdate u st).2 = count st.world
  handleDeployCredential : ∀ c st,
    count (effects.handleDeployCredential c st).2 = count st.world + 1

variable {count : World → Nat}

theorem CountsDeployments.clock (counts : CountsDeployments effects count) {world world' : World}
    {now : UTCTime} (clock : effects.currentTime world = (now, world')) :
    count world' = count world := by
  have kept := counts.currentTime world
  rwa [clock] at kept

theorem TransactionStep.count_world (counts : CountsDeployments effects count)
    {p q : GroupPoint World Tx Cred Upd Summary Reason Tx}
    (step : TransactionStep effects fields maxSize maxEnergy p q) :
    count q.state.world = count p.state.world := by
  cases step with
  | timeUp clock | deferred clock | leftUnprocessed clock | exceeds clock =>
      exact counts.clock clock
  | @valid size fts t ts st now world summary world' clock _ _ executed =>
      have kept := counts.dispatch t { st with world }
      rw [executed] at kept
      rw [validTs_eq]
      exact kept.trans (counts.clock clock)
  | @invalid size fts t ts st now world reason world' clock executed =>
      have kept := counts.dispatch t { st with world }
      rw [executed] at kept
      exact kept.trans (counts.clock clock)

theorem UpdateStep.count_world (counts : CountsDeployments effects count)
    {p q : GroupPoint World Tx Cred Upd Summary Reason Upd}
    (step : UpdateStep effects fields maxSize p q) :
    count q.state.world = count p.state.world := by
  cases step with
  | timeUp clock | deferred clock | leftUnprocessed clock => exact counts.clock clock
  | @invalid size fts ui uis st now world reason world' clock executed
  | @invalidSuccessors size fts ui uis st now world reason world' clock executed
  | @valid size fts ui uis st now world reason world' clock _ executed =>
      have kept := counts.handleChainUpdate ui { st with world }
      rw [executed] at kept
      exact kept.trans (counts.clock clock)

/-- A credential deployment is executed only while the limit is positive, and takes one from
it. -/
theorem CredentialStep.count_add_credLimit (counts : CountsDeployments effects count) {size : Int}
    {credLimit : CredentialsPerBlockLimit} {fts : FilteredTransactions Tx Cred Upd Summary Reason}
    {c : Cred} {st : SchedulerState World} {next : Resume World Tx Cred Upd Summary Reason}
    {credLimit' : CredentialsPerBlockLimit}
    (step : CredentialStep effects fields maxSize maxEnergy size credLimit fts c st
      (next, credLimit')) :
    count next.state.world + credLimit'.toNat = count st.world + credLimit.toNat := by
  cases step with
  | timeUp clock | exceeds clock | deferred clock => rw [counts.clock clock]
  | @invalid now world reason world' clock positive _ _ executed
  | @valid now world reason world' clock positive _ _ executed =>
      have kept := counts.handleDeployCredential c { st with world }
      rw [executed] at kept
      have positiveValue : 0 < credLimit.toNat := UInt16.lt_iff_toNat_lt.mp positive
      have taken : (credLimit - 1).toNat = credLimit.toNat - 1 :=
        UInt16.toNat_sub_of_le _ _ (UInt16.le_iff_toNat_le.mpr (by rw [UInt16.toNat_one]; omega))
      simp only [markEnergyUsed]
      rw [kept, counts.clock clock, taken]
      omega

theorem NextStep.count_add_credLimit (counts : CountsDeployments effects count)
    {p q : NextPoint World Tx Cred Upd Summary Reason}
    (step : NextStep effects fields maxSize timeout maxEnergy p q) :
    count q.state.world + q.credLimit.toNat = count p.state.world + p.credLimit.toNat := by
  cases step with
  | skipTransactions | skipCredential | skipUpdates => rfl
  | transactions _ run _ =>
      rw [Transition.conserved (fun point => count point.state.world)
        (fun step => step.count_world counts) run]
  | credential ran =>
      exact (runCredential_step effects fields maxSize timeout maxEnergy ran).count_add_credLimit
        counts
  | updates _ run _ =>
      rw [Transition.conserved (fun point => count point.state.world)
        (fun step => step.count_world counts) run]

/-- Block construction executes at most as many credential deployments as the chain's limit on
account creations allows: any observer of the world that only a deployment advances, by one,
advances by at most that limit. -/
theorem filterTransactions_deployments_le {groups : List (TransactionGroup Tx Cred Upd)}
    {st : SchedulerState World}
    {result : FilteredTransactions Tx Cred Upd Summary Reason × SchedulerState World}
    (counts : CountsDeployments effects count)
    (ran : filterTransactions effects fields maxSize timeout groups st = some result) :
    count result.2.world ≤ count st.world + (effects.getAccountCreationLimit st.world).toNat := by
  obtain ⟨last, run, _, rfl⟩ := runNext_steps effects fields maxSize timeout _ ran
  have kept := Transition.conserved (fun point => count point.state.world + point.credLimit.toNat)
    (fun step => step.count_add_credLimit counts) run
  dsimp only at kept ⊢
  omega

/-- The sample's world counts the deployments of credentials. -/
theorem sample_counts : CountsDeployments sampleEffects id where
  currentTime _ := rfl
  dispatch _ _ := rfl
  handleChainUpdate _ _ := rfl
  handleDeployCredential _ _ := rfl

theorem filterTransactions_deployments_le_on_sample :
    ∃ result, filterTransactions sampleEffects sampleFields 1000 10 sampleGroups ⟨0, 0⟩ =
        some result ∧ id result.2.world ≤ id 0 + 1 :=
  ⟨_, sample_ran, filterTransactions_deployments_le sample_counts sample_ran⟩

/-- Of the sample's two credential deployments, the limit lets the first be executed and leaves
the second unprocessed. -/
example : ((filterTransactions sampleEffects sampleFields 1000 10 sampleGroups ⟨0, 0⟩).map
      fun result => (addedCredentials result.1, result.1.ftUnprocessedCredentials, result.2.world)) =
    some ([7], [8], 1) := by
  decide +kernel

end Deployments

end Concordium.Scheduler
