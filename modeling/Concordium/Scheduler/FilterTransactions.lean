import Mathlib

/-!
Contract: block construction of `Concordium.Scheduler`, `filterTransactions`, which makes a
block out of transaction groups within a size limit, the block energy limit and the limit on
credential deployments, until a timeout.

Owns:
- `Energy`, `Nonce` and `UpdateSequenceNumber` as `Word64`s and `CredentialsPerBlockLimit` as a
  `Word16`, with their wrapping arithmetic;
- `FailureKind` with the kinds block construction gives itself, `TxResult`, `BlockItem`,
  `TransactionGroup` with `perAccountTransactions` and `credentialDeployments`, and
  `FilteredTransactions` with `emptyFilteredTransactions`;
- the scheduler state block construction threads (`SchedulerState`: the block energy used so
  far, with `markEnergyUsed`, and the rest of the world) and the effects it calls
  (`SchedulerEffects`);
- `validTs`, `invalidTs`, `runTransactionGroup`, `runCredential`, `runUpdateInstructions`,
  `runNext` and `filterTransactions`, with their effects in the source's order.

Does not own: the execution of an item, the clock and the chain parameters, which
`SchedulerEffects` gives as functions of the world; nothing but `markEnergyUsed` changes the
energy used, as in the scheduler's state. `dispatch`, `handleDeployCredential` and
`handleChainUpdate` are functions of `Concordium.Scheduler` (with `checkHeader`, the execution of
every kind of transaction, of accounts and of smart contracts behind them), not modelled here:
they are fields of `SchedulerEffects`, and what a result about block construction needs of them,
such as an execution charging no more than the item declares, is a hypothesis of that result,
not proved of the source. Items are of any type, with what the source reads of them through
`concordium-base` (`ItemFields`): sizes are byte counts, natural numbers here; the failure kinds
of an item's execution are of any type too. Time is a natural number, only compared. The logging
at the end of `filterTransactions` changes no result and is left out. Each group's processing
ends in a call of `runNext` on the remaining groups, or in `error`: here it returns the
arguments of that call (`Resume`), `runNext` makes it, and `error` is `none`.
-/

set_option autoImplicit false

namespace Concordium.Scheduler

/-- `Energy`, a `Word64`. -/
abbrev Energy := UInt64

/-- `Nonce`, a `Word64`. -/
abbrev Nonce := UInt64

/-- `UpdateSequenceNumber`, a `Nonce`. -/
abbrev UpdateSequenceNumber := Nonce

/-- `CredentialsPerBlockLimit`, a `Word16`. -/
abbrev CredentialsPerBlockLimit := UInt16

/-- `UTCTime`, counted from an epoch. -/
abbrev UTCTime := Nat

/-- `FailureKind`: the kinds block construction gives itself, and the others, which only the
execution of an item gives. -/
inductive FailureKind (Reason : Type) where
  | ExceedsMaxBlockEnergy
  | NonSequentialNonce (nonce : Nonce)
  | SuccessorOfInvalidTransaction
  | otherKind (kind : Reason)

/-- `TxResult`: an executed item's summary, or why it failed. -/
inductive TxResult (Summary Reason : Type) where
  | TxValid (summary : Summary)
  | TxInvalid (reason : FailureKind Reason)

/-- `BlockItem` with its verification result. -/
inductive BlockItem (Tx Cred Upd : Type) where
  | normalTransaction (t : Tx)
  | credentialDeployment (c : Cred)
  | chainUpdate (u : Upd)

/-- `TransactionGroup`: an account's transactions, ordered by nonce; one credential deployment;
or the update instructions of one type, ordered by sequence number. -/
inductive TransactionGroup (Tx Cred Upd : Type) where
  | TGAccountTransactions (group : List Tx)
  | TGCredentialDeployment (c : Cred)
  | TGUpdateInstructions (group : List Upd)

/-- `FilteredTransactions`, the result of block construction. -/
structure FilteredTransactions (Tx Cred Upd Summary Reason : Type) where
  ftAdded : List (BlockItem Tx Cred Upd × Summary)
  ftFailed : List (Tx × FailureKind Reason)
  ftFailedCredentials : List (Cred × FailureKind Reason)
  ftFailedUpdates : List (Upd × FailureKind Reason)
  ftUnprocessed : List Tx
  ftUnprocessedCredentials : List Cred
  ftUnprocessedUpdates : List Upd

variable {World Tx Cred Upd Summary Reason : Type}

def emptyFilteredTransactions : FilteredTransactions Tx Cred Upd Summary Reason :=
  ⟨[], [], [], [], [], [], []⟩

def perAccountTransactions (gts : List (TransactionGroup Tx Cred Upd)) : List (List Tx) :=
  gts.filterMap fun
    | .TGAccountTransactions ats => some ats
    | _ => none

def credentialDeployments (gts : List (TransactionGroup Tx Cred Upd)) : List Cred :=
  gts.filterMap fun
    | .TGCredentialDeployment cd => some cd
    | _ => none

/-- What block construction reads of its items: a transaction's size, declared energy
(`transactionGasAmount`) and nonce; a credential deployment's size and its cost,
`Cost.deployCredential` at its type and number of keys; an update instruction's size and
sequence number; and a summary's `tsEnergyCost`. -/
structure ItemFields (Tx Cred Upd Summary : Type) where
  transactionSize : Tx → Nat
  transactionGasAmount : Tx → Energy
  transactionNonce : Tx → Nonce
  credentialSize : Cred → Nat
  deployCredential : Cred → Energy
  updateSize : Upd → Nat
  updateSeqNumber : Upd → UpdateSequenceNumber
  tsEnergyCost : Summary → Energy

/-- The state block construction threads: the block energy used so far, which `getUsedEnergy`
reads and only `markEnergyUsed` changes, and the rest of the world. -/
structure SchedulerState (World : Type) where
  usedEnergy : Energy
  world : World

/-- `markEnergyUsed`: add to the block energy used. -/
def markEnergyUsed (energy : Energy) (st : SchedulerState World) : SchedulerState World :=
  { st with usedEnergy := st.usedEnergy + energy }

/-- The effects block construction calls: the chain's maximum block energy and limit on account
creations, the clock, and the execution of a transaction, a credential deployment and an update
instruction, which read the state and change the world. The executions are the source's
`dispatch`, `handleDeployCredential` and `handleChainUpdate`, taken as given functions. -/
structure SchedulerEffects (World Tx Cred Upd Summary Reason : Type) where
  getMaxBlockEnergy : World → Energy
  getAccountCreationLimit : World → CredentialsPerBlockLimit
  currentTime : World → UTCTime × World
  dispatch : Tx → SchedulerState World → Option (TxResult Summary Reason) × World
  handleDeployCredential : Cred → SchedulerState World → Option (TxResult Summary Reason) × World
  handleChainUpdate : Upd → SchedulerState World → TxResult Summary Reason × World

/-- The call of `runNext` on the remaining groups that ends the processing of a group: whether
time is up, the size of the block so far, the result so far and the state. -/
structure Resume (World Tx Cred Upd Summary Reason : Type) where
  timeIsUp : Bool
  size : Int
  fts : FilteredTransactions Tx Cred Upd Summary Reason
  state : SchedulerState World

section Construction

variable (effects : SchedulerEffects World Tx Cred Upd Summary Reason)
  (fields : ItemFields Tx Cred Upd Summary) (maxSize : Int) (timeout : UTCTime) (maxEnergy : Energy)

/-- `validTs`: charge the transaction's energy, add it, and fail the transactions after it of the
same nonce; the rest of the group is left to process. -/
def validTs (t : Tx) (summary : Summary) (currentFts : FilteredTransactions Tx Cred Upd Summary Reason)
    (ts : List Tx) (st : SchedulerState World) :
    (FilteredTransactions Tx Cred Upd Summary Reason × List Tx) × SchedulerState World :=
  let st := markEnergyUsed (fields.tsEnergyCost summary) st
  let (invalid, rest) := ts.span fun next => fields.transactionNonce next == fields.transactionNonce t
  let nextNonce := fields.transactionNonce t + 1
  let newFts :=
    { currentFts with
      ftFailed := invalid.map (fun next => (next, .NonSequentialNonce nextNonce)) ++ currentFts.ftFailed
      ftAdded := (.normalTransaction t, summary) :: currentFts.ftAdded }
  ((newFts, rest), st)

/-- `invalidTs`: fail the transaction, and the rest of the group with it when the next one has a
higher nonce. -/
def invalidTs (t : Tx) (failure : FailureKind Reason)
    (currentFts : FilteredTransactions Tx Cred Upd Summary Reason) (ts : List Tx) :
    FilteredTransactions Tx Cred Upd Summary Reason × List Tx :=
  let newFailedEntry := (t, failure)
  if ts.head?.any fun next => fields.transactionNonce t < fields.transactionNonce next then
    let failedSuccessors := ts.map fun next => (next, .SuccessorOfInvalidTransaction)
    ({ currentFts with ftFailed := newFailedEntry :: failedSuccessors ++ currentFts.ftFailed }, [])
  else ({ currentFts with ftFailed := newFailedEntry :: currentFts.ftFailed }, ts)

theorem length_validTs_rest (t : Tx) (summary : Summary)
    (currentFts : FilteredTransactions Tx Cred Upd Summary Reason) (ts : List Tx)
    (st : SchedulerState World) :
    (validTs fields t summary currentFts ts st).1.2.length ≤ ts.length := by
  simp only [validTs, List.span_eq_takeWhile_dropWhile]
  exact List.length_dropWhile_le _ ts

theorem length_invalidTs_rest (t : Tx) (failure : FailureKind Reason)
    (currentFts : FilteredTransactions Tx Cred Upd Summary Reason) (ts : List Tx) :
    (invalidTs fields t failure currentFts ts).2.length ≤ ts.length := by
  unfold invalidTs
  split <;> simp

/-- `runTransactionGroup`: process an account's transactions one by one, until the group is done,
time is up, or what is left cannot fit. -/
def runTransactionGroup (currentSize : Int)
    (currentFts : FilteredTransactions Tx Cred Upd Summary Reason) :
    List Tx → SchedulerState World → Option (Resume World Tx Cred Upd Summary Reason)
  | [], st => some ⟨false, currentSize, currentFts, st⟩
  | t :: ts, st =>
      let totalEnergyUsed := st.usedEnergy
      let csize := currentSize + fields.transactionSize t
      let tenergy := fields.transactionGasAmount t
      let cenergy := totalEnergyUsed + tenergy
      let (now, world) := effects.currentTime st.world
      let st := { st with world }
      if now ≥ timeout then
        some ⟨true, currentSize,
          { currentFts with ftUnprocessed := t :: ts ++ currentFts.ftUnprocessed }, st⟩
      else if csize ≤ maxSize ∧ cenergy ≤ maxEnergy then
        match effects.dispatch t st with
        | (some (.TxValid summary), world) =>
            let next := validTs fields t summary currentFts ts { st with world }
            runTransactionGroup csize next.1.1 next.1.2 next.2
        | (some (.TxInvalid reason), world) =>
            let next := invalidTs fields t reason currentFts ts
            runTransactionGroup currentSize next.1 next.2 { st with world }
        | (none, _) => none
      else if tenergy > maxEnergy then
        let next := invalidTs fields t .ExceedsMaxBlockEnergy currentFts ts
        runTransactionGroup currentSize next.1 next.2 st
      else if ts.head?.any fun nt => fields.transactionNonce nt == fields.transactionNonce t then
        runTransactionGroup currentSize
          { currentFts with ftUnprocessed := t :: currentFts.ftUnprocessed } ts st
      else
        some ⟨false, currentSize,
          { currentFts with ftUnprocessed := t :: ts ++ currentFts.ftUnprocessed }, st⟩
termination_by ts _ => ts.length
decreasing_by
  all_goals first
    | exact Nat.lt_succ_of_le (length_validTs_rest fields _ _ _ _ _)
    | exact Nat.lt_succ_of_le (length_invalidTs_rest fields _ _ _ _)
    | exact Nat.lt_succ_self _

/-- `runCredential`: deploy one credential if it fits and the limit on credentials allows, and
say with which limit `runNext` goes on. -/
def runCredential (size : Int) (credLimit : CredentialsPerBlockLimit)
    (fts : FilteredTransactions Tx Cred Upd Summary Reason) (c : Cred) (st : SchedulerState World) :
    Option (Resume World Tx Cred Upd Summary Reason × CredentialsPerBlockLimit) :=
  let totalEnergyUsed := st.usedEnergy
  let csize := size + fields.credentialSize c
  let energyCost := fields.deployCredential c
  let cenergy := totalEnergyUsed + energyCost
  let (now, world) := effects.currentTime st.world
  let st := { st with world }
  if now ≥ timeout then
    some (⟨true, size,
      { fts with ftUnprocessedCredentials := c :: fts.ftUnprocessedCredentials }, st⟩, credLimit)
  else if credLimit > 0 ∧ csize ≤ maxSize ∧ cenergy ≤ maxEnergy then
    match effects.handleDeployCredential c st with
    | (some (.TxInvalid reason), world) =>
        some (⟨false, size,
          { fts with ftFailedCredentials := (c, reason) :: fts.ftFailedCredentials },
          { st with world }⟩, credLimit - 1)
    | (some (.TxValid summary), world) =>
        some (⟨false, csize,
          { fts with ftAdded := (.credentialDeployment c, summary) :: fts.ftAdded },
          markEnergyUsed (fields.tsEnergyCost summary) { st with world }⟩, credLimit - 1)
    | (none, _) => none
  else if fields.deployCredential c > maxEnergy then
    some (⟨false, size,
      { fts with ftFailedCredentials := (c, .ExceedsMaxBlockEnergy) :: fts.ftFailedCredentials },
      st⟩, credLimit)
  else
    some (⟨false, size,
      { fts with ftUnprocessedCredentials := c :: fts.ftUnprocessedCredentials }, st⟩, credLimit)

/-- `runUpdateInstructions`: process the update instructions of one type one by one; they use no
energy, so only their size counts. -/
def runUpdateInstructions (currentSize : Int)
    (currentFts : FilteredTransactions Tx Cred Upd Summary Reason) :
    List Upd → SchedulerState World → Option (Resume World Tx Cred Upd Summary Reason)
  | [], st => some ⟨false, currentSize, currentFts, st⟩
  | ui :: uis, st =>
      let csize := currentSize + fields.updateSize ui
      let (now, world) := effects.currentTime st.world
      let st := { st with world }
      if now ≥ timeout then
        some ⟨true, currentSize,
          { currentFts with ftUnprocessedUpdates := ui :: uis ++ currentFts.ftUnprocessedUpdates },
          st⟩
      else if csize ≤ maxSize then
        match effects.handleChainUpdate ui st with
        | (.TxInvalid reason, world) =>
            if uis.head?.any fun nui => fields.updateSeqNumber ui == fields.updateSeqNumber nui then
              runUpdateInstructions currentSize
                { currentFts with ftFailedUpdates := (ui, reason) :: currentFts.ftFailedUpdates }
                uis { st with world }
            else
              some ⟨false, currentSize,
                { currentFts with
                  ftFailedUpdates := (ui, reason) ::
                    (uis.map fun u => (u, .SuccessorOfInvalidTransaction)) ++
                      currentFts.ftFailedUpdates },
                { st with world }⟩
        | (.TxValid summary, world) =>
            let split := uis.span fun u => fields.updateSeqNumber ui == fields.updateSeqNumber u
            let curSN := fields.updateSeqNumber ui
            let newFts :=
              { currentFts with
                ftFailedUpdates :=
                  split.1.map (fun u => (u, .NonSequentialNonce (curSN + 1))) ++
                    currentFts.ftFailedUpdates
                ftAdded := (.chainUpdate ui, summary) :: currentFts.ftAdded }
            runUpdateInstructions csize newFts split.2 { st with world }
      else if uis.head?.any fun nui => fields.updateSeqNumber ui == fields.updateSeqNumber nui then
        runUpdateInstructions currentSize
          { currentFts with ftUnprocessedUpdates := ui :: currentFts.ftUnprocessedUpdates } uis st
      else
        some ⟨false, currentSize,
          { currentFts with ftUnprocessedUpdates := ui :: uis ++ currentFts.ftUnprocessedUpdates },
          st⟩
termination_by uis _ => uis.length
decreasing_by
  all_goals first
    | exact Nat.lt_succ_self _
    | simp only [List.span_eq_takeWhile_dropWhile, List.length_cons]
      exact Nat.lt_succ_of_le (List.length_dropWhile_le _ _)

/-- `runNext`: process the groups in order, each to its end, and once time is up leave the rest
unprocessed; the added items were gathered last first. -/
def runNext : Int → CredentialsPerBlockLimit → Bool →
    FilteredTransactions Tx Cred Upd Summary Reason → List (TransactionGroup Tx Cred Upd) →
    SchedulerState World → Option (FilteredTransactions Tx Cred Upd Summary Reason × SchedulerState World)
  | _, _, _, fts, [], st => some ({ fts with ftAdded := fts.ftAdded.reverse }, st)
  | size, credLimit, true, fts, g :: groups, st =>
      match g with
      | .TGAccountTransactions group =>
          runNext size credLimit true { fts with ftUnprocessed := group ++ fts.ftUnprocessed } groups st
      | .TGCredentialDeployment c =>
          runNext size credLimit true
            { fts with ftUnprocessedCredentials := c :: fts.ftUnprocessedCredentials } groups st
      | .TGUpdateInstructions group =>
          runNext size credLimit true
            { fts with ftUnprocessedUpdates := group ++ fts.ftUnprocessedUpdates } groups st
  | size, credLimit, false, fts, g :: groups, st =>
      match g with
      | .TGAccountTransactions group =>
          (runTransactionGroup effects fields maxSize timeout maxEnergy size fts group st).bind
            fun next => runNext next.size credLimit next.timeIsUp next.fts groups next.state
      | .TGCredentialDeployment c =>
          (runCredential effects fields maxSize timeout maxEnergy size credLimit fts c st).bind
            fun next => runNext next.1.size next.2 next.1.timeIsUp next.1.fts groups next.1.state
      | .TGUpdateInstructions group =>
          (runUpdateInstructions effects fields maxSize timeout size fts group st).bind
            fun next => runNext next.size credLimit next.timeIsUp next.fts groups next.state

end Construction

/-- `filterTransactions`: make a block out of the groups, of at most `maxSize` bytes, trying no
item once `timeout` is reached. -/
def filterTransactions (effects : SchedulerEffects World Tx Cred Upd Summary Reason)
    (fields : ItemFields Tx Cred Upd Summary) (maxSize : Int) (timeout : UTCTime)
    (groups0 : List (TransactionGroup Tx Cred Upd)) (st : SchedulerState World) :
    Option (FilteredTransactions Tx Cred Upd Summary Reason × SchedulerState World) :=
  let maxEnergy := effects.getMaxBlockEnergy st.world
  let credLimit := effects.getAccountCreationLimit st.world
  runNext effects fields maxSize timeout maxEnergy 0 credLimit false emptyFilteredTransactions
    groups0 st

end Concordium.Scheduler
