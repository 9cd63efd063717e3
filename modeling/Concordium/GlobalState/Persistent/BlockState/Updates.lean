import Concordium.Library.AscMap
import Concordium.Library.Machine
import Concordium.Library.SortedKey
import Concordium.Library.Word
import Mathlib.Data.List.TakeDrop
import Mathlib.Data.List.TakeWhile

/-!
Contract: the queues of pending chain-parameter updates, `Concordium.GlobalState.Persistent.
BlockState.Updates`: `enqueue` and `enqueueUpdate`, which put an update on its queue and drop the
queued updates that are not earlier; `processValueUpdates`, the processing of each queue, and
`processUpdateQueues`, which takes the due updates off every queue, applies them, and returns them
merged in order of time.

Owns:
- `PendingQueue`, the queues of `PendingUpdates`; `UpdateQueue`; `UpdateValue`, an update with the
  queue it belongs to; and `Updates'`, the current parameters, the current protocol update and the
  pending queues, a queue being absent (`none`) where the chain-parameters version has no such
  parameter (`NoParam`);
- `enqueue`, `enqueueUpdate`, `processValueUpdates`; `processParameterUpdates`, of which the
  processing of each parameter queue is an instance, `processProtocolUpdates`,
  `addAndAccumNonduplicateUpdates` and `processAdditionUpdates`, of which the processing of
  anonymity revokers and identity providers is an instance; `combine`, `merge` and
  `processUpdateQueues`;
- `UpdateEvent` and `step`, the two operations as one machine;
- one lemma for each operation saying what it does to the queues, the parameters and the protocol
  update, and what it returns (`enqueueUpdate_spec`, `processQueue_spec`,
  `processAdditionUpdates_spec`), and that conversions of times agreeing on a queue's times
  process it alike (`dueEntries_withoutDue_congr`);
- `baseTransactionTimeToTimestamp`, the conversion of effective times to block times, and
  `QueueTimesFit`, that every queued time converts without wrapping.

Does not own: the types of the parameters, which are one type of values here, or the references
and hashing of the blob store. `transactionTimeToTimestamp` belongs to the base library, which is
not among the sources: the operations take it as a parameter, and `baseTransactionTimeToTimestamp`
is its definition there, seconds times `1000` on `Word64`. The source's types rule out an update
for a parameter the chain-parameters version lacks; `enqueueUpdate` leaves the state as it is for
one.
-/

set_option autoImplicit false

namespace Concordium.GlobalState.Persistent.BlockState.Updates

/-- Effective times of updates, in seconds. -/
abbrev TransactionTime := Nat

/-- Block times, in milliseconds. -/
abbrev Timestamp := Nat

/-- The queues of `PendingUpdates`. -/
inductive PendingQueue where
  | RootKeys
  | Level1Keys
  | Level2Keys
  | Protocol
  | ElectionDifficulty
  | EuroPerEnergy
  | MicroGTUPerEuro
  | FoundationAccount
  | MintDistribution
  | TransactionFeeDistribution
  | GASRewards
  | PoolParameters
  | CooldownParameters
  | TimeParameters
  | TimeoutParameters
  | MinBlockTime
  | BlockEnergyLimit
  | FinalizationCommitteeParameters
  | AddAnonymityRevoker
  | AddIdentityProvider
deriving DecidableEq, Repr

structure UpdateQueue (α : Type) where
  uqNextSequenceNumber : UInt64
  /-- Pending updates, in ascending order of effective time. -/
  uqQueue : List (TransactionTime × α)

/-- An update, with the queue its constructor names (`UVRootKeys`, `UVProtocol`, ...). -/
structure UpdateValue (π : Type) where
  queue : PendingQueue
  value : π

@[ext]
structure Updates' (π : Type) where
  /-- The value each parameter queue sets: the key collections and the chain parameters. -/
  currentParameters : PendingQueue → π
  currentProtocolUpdate : Option π
  pendingUpdates : PendingQueue → Option (UpdateQueue π)

section Queue

variable {α : Type}

/-- Add an update at time `t`, incrementing the sequence number; the queued updates whose times
are not earlier are dropped. -/
def enqueue (t : TransactionTime) (e : α) (q : UpdateQueue α) : UpdateQueue α :=
  let surviving := q.uqQueue.takeWhile fun entry => entry.1 < t
  { uqNextSequenceNumber := q.uqNextSequenceNumber + 1, uqQueue := surviving ++ [(t, e)] }

/-- The entries of a queue ascend strictly in time. -/
def Ascending (q : UpdateQueue α) : Prop :=
  (q.uqQueue.map Prod.fst).Pairwise (· < ·)

variable (transactionTimeToTimestamp : TransactionTime → Timestamp)

/-- Due at block time `t`: the effective time is at most `t`. -/
def isDue (t : Timestamp) (entry : TransactionTime × α) : Bool :=
  decide (transactionTimeToTimestamp entry.1 ≤ t)

/-- `processValueUpdates`: the due updates are the longest prefix of the queue that is due; when
there are some, the value of the last of them, the queue of the others, and the due updates by
time. -/
def processValueUpdates (t : Timestamp) (uq : UpdateQueue α) :
    Option (α × UpdateQueue α × AscMap TransactionTime α) :=
  let (ql, qr) := uq.uqQueue.span (isDue transactionTimeToTimestamp t)
  match ql.getLast? with
  | none => none
  | some (_, b) => some (b, { uq with uqQueue := qr }, AscMap.fromList ql)

/-- The due updates of a queue: its longest prefix that is due. -/
def dueEntries (t : Timestamp) (q : UpdateQueue α) : List (TransactionTime × α) :=
  q.uqQueue.takeWhile (isDue transactionTimeToTimestamp t)

/-- A queue without its due updates. -/
def withoutDue (t : Timestamp) (q : UpdateQueue α) : UpdateQueue α :=
  { q with uqQueue := q.uqQueue.dropWhile (isDue transactionTimeToTimestamp t) }

theorem Ascending.dueEntries {q : UpdateQueue α} (ascending : Ascending q) (t : Timestamp) :
    ((dueEntries transactionTimeToTimestamp t q).map Prod.fst).Pairwise (· < ·) :=
  ascending.sublist ((List.takeWhile_sublist _).map _)

theorem Ascending.withoutDue {q : UpdateQueue α} (ascending : Ascending q) (t : Timestamp) :
    Ascending (withoutDue transactionTimeToTimestamp t q) :=
  ascending.sublist ((List.dropWhile_suffix _).sublist.map _)

omit transactionTimeToTimestamp in
theorem enqueue_ascending {q : UpdateQueue α} (ascending : Ascending q) (t : TransactionTime)
    (e : α) : Ascending (enqueue t e q) := by
  unfold Ascending enqueue
  rw [List.map_append, List.pairwise_append]
  refine ⟨ascending.sublist ((List.takeWhile_sublist _).map _), List.pairwise_singleton _ _, ?_⟩
  -- every surviving update is earlier than the new one
  intro earlier earlierListed later laterListed
  rw [List.map_singleton, List.mem_singleton] at laterListed
  obtain ⟨entry, entryListed, rfl⟩ := List.mem_map.mp earlierListed
  rw [laterListed]
  simpa using List.mem_takeWhile_imp entryListed

/-- Every effective time of the queue converts to milliseconds without wrapping. -/
def UpdateQueue.TimesFit (q : UpdateQueue α) : Prop :=
  ∀ entry ∈ q.uqQueue, entry.1 * 1000 < 2 ^ 64

theorem UpdateQueue.TimesFit.enqueue {q : UpdateQueue α} (fits : q.TimesFit)
    {t : TransactionTime} (timeFits : t * 1000 < 2 ^ 64) (e : α) : (enqueue t e q).TimesFit := by
  intro entry listed
  simp only [Updates.enqueue, List.mem_append, List.mem_singleton] at listed
  rcases listed with surviving | added
  · exact fits entry (List.takeWhile_subset _ surviving)
  · rw [added]
    exact timeFits

end Queue

section Process

variable {π : Type} (transactionTimeToTimestamp : TransactionTime → Timestamp)

/-- The processing of the queue of one parameter: the last due update sets the parameter. -/
def processParameterUpdates (queue : PendingQueue) (t : Timestamp) (u : Updates' π) :
    AscMap TransactionTime (UpdateValue π) × Updates' π :=
  match u.pendingUpdates queue with
  | none => (AscMap.empty, u)
  | some oldQ =>
    match processValueUpdates transactionTimeToTimestamp t oldQ with
    | none => (AscMap.empty, u)
    | some (newValue, newQ, changes) =>
      (changes.map (UpdateValue.mk queue),
        { u with
          currentParameters := Function.update u.currentParameters queue newValue
          pendingUpdates := Function.update u.pendingUpdates queue (some newQ) })

def processRootKeysUpdates (t : Timestamp) (u : Updates' π) :=
  processParameterUpdates transactionTimeToTimestamp .RootKeys t u

def processLevel1KeysUpdates (t : Timestamp) (u : Updates' π) :=
  processParameterUpdates transactionTimeToTimestamp .Level1Keys t u

def processLevel2KeysUpdates (t : Timestamp) (u : Updates' π) :=
  processParameterUpdates transactionTimeToTimestamp .Level2Keys t u

def processElectionDifficultyUpdates (t : Timestamp) (u : Updates' π) :=
  processParameterUpdates transactionTimeToTimestamp .ElectionDifficulty t u

def processEuroPerEnergyUpdates (t : Timestamp) (u : Updates' π) :=
  processParameterUpdates transactionTimeToTimestamp .EuroPerEnergy t u

def processMicroGTUPerEuroUpdates (t : Timestamp) (u : Updates' π) :=
  processParameterUpdates transactionTimeToTimestamp .MicroGTUPerEuro t u

def processFoundationAccountUpdates (t : Timestamp) (u : Updates' π) :=
  processParameterUpdates transactionTimeToTimestamp .FoundationAccount t u

def processMintDistributionUpdates (t : Timestamp) (u : Updates' π) :=
  processParameterUpdates transactionTimeToTimestamp .MintDistribution t u

def processTransactionFeeDistributionUpdates (t : Timestamp) (u : Updates' π) :=
  processParameterUpdates transactionTimeToTimestamp .TransactionFeeDistribution t u

def processGASRewardsUpdates (t : Timestamp) (u : Updates' π) :=
  processParameterUpdates transactionTimeToTimestamp .GASRewards t u

def processPoolParamatersUpdates (t : Timestamp) (u : Updates' π) :=
  processParameterUpdates transactionTimeToTimestamp .PoolParameters t u

def processCooldownParametersUpdates (t : Timestamp) (u : Updates' π) :=
  processParameterUpdates transactionTimeToTimestamp .CooldownParameters t u

def processTimeParametersUpdates (t : Timestamp) (u : Updates' π) :=
  processParameterUpdates transactionTimeToTimestamp .TimeParameters t u

def processTimeoutParametersUpdates (t : Timestamp) (u : Updates' π) :=
  processParameterUpdates transactionTimeToTimestamp .TimeoutParameters t u

def processMinBlockTimeUpdates (t : Timestamp) (u : Updates' π) :=
  processParameterUpdates transactionTimeToTimestamp .MinBlockTime t u

def processBlockEnergyLimitUpdates (t : Timestamp) (u : Updates' π) :=
  processParameterUpdates transactionTimeToTimestamp .BlockEnergyLimit t u

def processFinalizationCommitteeParametersUpdates (t : Timestamp) (u : Updates' π) :=
  processParameterUpdates transactionTimeToTimestamp .FinalizationCommitteeParameters t u

/-- The protocol queue: unlike the parameter queues, the first due update becomes the protocol
update, and only if there is none yet. -/
def processProtocolUpdates (t : Timestamp) (u : Updates' π) :
    AscMap TransactionTime (UpdateValue π) × Updates' π :=
  match u.pendingUpdates .Protocol with
  | none => (AscMap.empty, u)
  | some protQueue =>
    let (ql, qr) := protQueue.uqQueue.span (isDue transactionTimeToTimestamp t)
    match ql with
    | [] => (AscMap.empty, u)
    | (_, pu) :: _ =>
      let changes :=
        AscMap.fromList (ql.map fun entry => (entry.1, UpdateValue.mk .Protocol entry.2))
      let newProtocolUpdate :=
        match u.currentProtocolUpdate with
        | none => some pu
        | s => s
      (changes,
        { u with
          currentProtocolUpdate := newProtocolUpdate
          pendingUpdates :=
            Function.update u.pendingUpdates .Protocol (some { protQueue with uqQueue := qr }) })

variable {κ : Type} [LinearOrder κ]

/-- `go` of `addAndAccumNonduplicateUpdates`: an update whose key is present is ignored; another
is added, and recorded as a change at its time. -/
def addAndAccumGo (getKey : π → κ) (toUV : π → UpdateValue π)
    (accumulated : AscMap TransactionTime (UpdateValue π) × AscMap κ π)
    (entry : TransactionTime × π) : AscMap TransactionTime (UpdateValue π) × AscMap κ π :=
  let key := getKey entry.2
  if (accumulated.2.lookup key).isSome then accumulated
  else (accumulated.1.insert entry.1 (toUV entry.2), accumulated.2.insert key entry.2)

/-- Add each update whose key is not yet present, and collect those added by time. -/
def addAndAccumNonduplicateUpdates (oldMap : AscMap κ π) (getKey : π → κ)
    (toUV : π → UpdateValue π) (updates : List (TransactionTime × π)) :
    AscMap TransactionTime (UpdateValue π) × AscMap κ π :=
  updates.foldl (addAndAccumGo getKey toUV) (AscMap.empty, oldMap)

/-- The processing of the queue of additions to a set keyed by identity: every due update leaves
the queue, and those whose identity is new are added. -/
def processAdditionUpdates (queue : PendingQueue) (getKey : π → κ) (t : Timestamp)
    (u : Updates' π) (present : AscMap κ π) :
    AscMap TransactionTime (UpdateValue π) × Updates' π × AscMap κ π :=
  match u.pendingUpdates queue with
  | none => (AscMap.empty, u, present)
  | some oldQ =>
    let (ql, qr) := oldQ.uqQueue.span (isDue transactionTimeToTimestamp t)
    if ql.isEmpty then (AscMap.empty, u, present)
    else
      let (changes, updated) :=
        addAndAccumNonduplicateUpdates present getKey (UpdateValue.mk queue) ql
      (changes,
        { u with
          pendingUpdates :=
            Function.update u.pendingUpdates queue (some { oldQ with uqQueue := qr }) },
        if changes.null then present else updated)

def processAddAnonymityRevokerUpdates (arIdentity : π → κ) :=
  processAdditionUpdates transactionTimeToTimestamp .AddAnonymityRevoker arIdentity

def processAddIdentityProviderUpdates (ipIdentity : π → κ) :=
  processAdditionUpdates transactionTimeToTimestamp .AddIdentityProvider ipIdentity

/-- The processing steps of `combine`, in the source's order. -/
def combineActions (t : Timestamp) :
    List (Updates' π → AscMap TransactionTime (UpdateValue π) × Updates' π) :=
  [processRootKeysUpdates transactionTimeToTimestamp t,
    processLevel1KeysUpdates transactionTimeToTimestamp t,
    processLevel2KeysUpdates transactionTimeToTimestamp t,
    processProtocolUpdates transactionTimeToTimestamp t,
    processElectionDifficultyUpdates transactionTimeToTimestamp t,
    processEuroPerEnergyUpdates transactionTimeToTimestamp t,
    processMicroGTUPerEuroUpdates transactionTimeToTimestamp t,
    processFoundationAccountUpdates transactionTimeToTimestamp t,
    processMintDistributionUpdates transactionTimeToTimestamp t,
    processTransactionFeeDistributionUpdates transactionTimeToTimestamp t,
    processGASRewardsUpdates transactionTimeToTimestamp t,
    processPoolParamatersUpdates transactionTimeToTimestamp t,
    processCooldownParametersUpdates transactionTimeToTimestamp t,
    processTimeParametersUpdates transactionTimeToTimestamp t,
    processTimeoutParametersUpdates transactionTimeToTimestamp t,
    processMinBlockTimeUpdates transactionTimeToTimestamp t,
    processBlockEnergyLimitUpdates transactionTimeToTimestamp t,
    processFinalizationCommitteeParametersUpdates transactionTimeToTimestamp t]

/-- Run the actions in sequence, collecting their results in reverse order. -/
def combine {result : Type} (actions : List (Updates' π → result × Updates' π)) (u0 : Updates' π) :
    List result × Updates' π :=
  actions.foldl
    (fun accumulated action =>
      let (additionalUpdates, newUpdates) := action accumulated.2
      (additionalUpdates :: accumulated.1, newUpdates))
    ([], u0)

/-- Merge two lists ordered by time, an entry of the first list before one of the second of the
same time. -/
def merge {α : Type} : List (TransactionTime × α) → List (TransactionTime × α) →
    List (TransactionTime × α)
  | [], y => y
  | x :: xs, [] => x :: xs
  | x :: xs, y :: ys =>
    if y.1 < x.1 then y :: merge (x :: xs) ys else x :: merge xs (y :: ys)
termination_by xs ys => xs.length + ys.length

/-- Process every queue at block time `t`: the parameter and protocol queues in the order of
`combine`, then the anonymity revokers and the identity providers; the updates that took effect
are returned merged by time. -/
def processUpdateQueues (arIdentity ipIdentity : π → κ) (t : Timestamp)
    (state : Updates' π × AscMap κ π × AscMap κ π) :
    List (TransactionTime × UpdateValue π) × (Updates' π × AscMap κ π × AscMap κ π) :=
  let (u0, ars, ips) := state
  let (ms, u1) := combine (combineActions transactionTimeToTimestamp t) u0
  let (m2, u2, ars') :=
    processAddAnonymityRevokerUpdates transactionTimeToTimestamp arIdentity t u1 ars
  let (m3, u3, ips') :=
    processAddIdentityProviderUpdates transactionTimeToTimestamp ipIdentity t u2 ips
  let allUpdates := (m3 :: m2 :: ms).reverse
  let updates := allUpdates.foldr (fun m accumulated => merge m.toAscList accumulated) []
  (updates, (u3, ars', ips'))

/-! ### What processing one queue does -/

/-- The value of the last due update of a queue. -/
def lastDue (t : Timestamp) (q : UpdateQueue π) : Option π :=
  (dueEntries transactionTimeToTimestamp t q).getLast?.map Prod.snd

/-- The value of the first due update of a queue. -/
def firstDue (t : Timestamp) (q : UpdateQueue π) : Option π :=
  (dueEntries transactionTimeToTimestamp t q).head?.map Prod.snd

/-- Every queue ascends strictly in time. -/
def QueuesAscending (u : Updates' π) : Prop :=
  ∀ queue q, u.pendingUpdates queue = some q → Ascending q

/-- Every queued effective time converts to milliseconds without wrapping. -/
def QueueTimesFit (u : Updates' π) : Prop :=
  ∀ queue q, u.pendingUpdates queue = some q → q.TimesFit

/-- The queues `combine` processes, in its order. -/
def combineOrder : List PendingQueue :=
  [.RootKeys, .Level1Keys, .Level2Keys, .Protocol, .ElectionDifficulty, .EuroPerEnergy,
    .MicroGTUPerEuro, .FoundationAccount, .MintDistribution, .TransactionFeeDistribution,
    .GASRewards, .PoolParameters, .CooldownParameters, .TimeParameters, .TimeoutParameters,
    .MinBlockTime, .BlockEnergyLimit, .FinalizationCommitteeParameters]

/-- The state once the queues `queues` of `combine` are processed at `t`, from `u`: each of them
loses its due updates, a parameter takes the value of its last due update, and the protocol update,
where there is none, becomes the first due one. -/
def afterQueues (t : Timestamp) (queues : List PendingQueue) (u : Updates' π) : Updates' π where
  currentParameters queue :=
    if queue ∈ queues ∧ queue ≠ .Protocol then
      ((u.pendingUpdates queue).bind (lastDue transactionTimeToTimestamp t)).getD
        (u.currentParameters queue)
    else u.currentParameters queue
  currentProtocolUpdate :=
    if .Protocol ∈ queues then
      u.currentProtocolUpdate.or
        ((u.pendingUpdates .Protocol).bind (firstDue transactionTimeToTimestamp t))
    else u.currentProtocolUpdate
  pendingUpdates queue :=
    if queue ∈ queues then (u.pendingUpdates queue).map (withoutDue transactionTimeToTimestamp t)
    else u.pendingUpdates queue

/-- Processing keeps every queue ascending. -/
theorem QueuesAscending.afterQueues {u : Updates' π} (ascending : QueuesAscending u)
    (t : Timestamp) (queues : List PendingQueue) :
    QueuesAscending (afterQueues transactionTimeToTimestamp t queues u) := by
  intro queue q queued
  unfold Updates.afterQueues at queued
  dsimp only at queued
  split at queued
  · obtain ⟨original, originalQueued, rfl⟩ := Option.map_eq_some_iff.mp queued
    exact (ascending queue original originalQueued).withoutDue transactionTimeToTimestamp t
  · exact ascending queue q queued

end Process

section Enqueue

variable {π : Type}

/-- Put an update on the queue its constructor names. -/
def enqueueUpdate (effectiveTime : TransactionTime) (payload : UpdateValue π) (u : Updates' π) :
    Updates' π :=
  match u.pendingUpdates payload.queue with
  | none => u
  | some q =>
    { u with
      pendingUpdates :=
        Function.update u.pendingUpdates payload.queue
          (some (enqueue effectiveTime payload.value q)) }

@[simp] theorem enqueueUpdate_currentParameters (effectiveTime : TransactionTime)
    (payload : UpdateValue π) (u : Updates' π) :
    (enqueueUpdate effectiveTime payload u).currentParameters = u.currentParameters := by
  unfold enqueueUpdate
  split <;> rfl

theorem enqueueUpdate_spec (effectiveTime : TransactionTime) (payload : UpdateValue π)
    {u : Updates' π} {q : UpdateQueue π} (queued : u.pendingUpdates payload.queue = some q) :
    enqueueUpdate effectiveTime payload u =
      { u with
        pendingUpdates := Function.update u.pendingUpdates payload.queue
          (some (enqueue effectiveTime payload.value q)) } := by
  rw [enqueueUpdate, queued]

/-- What holds of every queue, and of a queue after an enqueue on it, holds of every queue after
`enqueueUpdate`. -/
theorem enqueueUpdate_forall_queue {holds : UpdateQueue π → Prop} {u : Updates' π}
    (every : ∀ queue q, u.pendingUpdates queue = some q → holds q)
    (effectiveTime : TransactionTime) (payload : UpdateValue π)
    (kept : ∀ q, holds q → holds (enqueue effectiveTime payload.value q)) :
    ∀ queue q, (enqueueUpdate effectiveTime payload u).pendingUpdates queue = some q → holds q := by
  cases queued : u.pendingUpdates payload.queue with
  | none =>
      rw [Updates.enqueueUpdate, queued]
      exact every
  | some q =>
      rw [enqueueUpdate_spec effectiveTime payload queued]
      intro queue entered enteredQueued
      dsimp only at enteredQueued
      -- only the queue of the update changes
      by_cases same : queue = payload.queue
      · subst same
        rw [Function.update_self, Option.some.injEq] at enteredQueued
        rw [← enteredQueued]
        exact kept q (every _ q queued)
      · rw [Function.update_of_ne same] at enteredQueued
        exact every queue entered enteredQueued

theorem QueuesAscending.enqueueUpdate {u : Updates' π} (ascending : QueuesAscending u)
    (effectiveTime : TransactionTime) (payload : UpdateValue π) :
    QueuesAscending (enqueueUpdate effectiveTime payload u) :=
  enqueueUpdate_forall_queue ascending effectiveTime payload fun _ queueAscending =>
    enqueue_ascending queueAscending effectiveTime payload.value

theorem QueueTimesFit.enqueueUpdate {u : Updates' π} (fits : QueueTimesFit u)
    {effectiveTime : TransactionTime} (timeFits : effectiveTime * 1000 < 2 ^ 64)
    (payload : UpdateValue π) : QueueTimesFit (enqueueUpdate effectiveTime payload u) :=
  enqueueUpdate_forall_queue fits effectiveTime payload fun _ queueFits =>
    queueFits.enqueue timeFits payload.value

end Enqueue

/-- The two operations on the queues. -/
inductive UpdateEvent (π : Type) where
  | enqueueUpdate (effectiveTime : TransactionTime) (payload : UpdateValue π)
  | processUpdateQueues (t : Timestamp)

section Machine

variable {π κ : Type} [LinearOrder κ] (transactionTimeToTimestamp : TransactionTime → Timestamp)
  (arIdentity ipIdentity : π → κ)

def step : UpdateEvent π → Updates' π × AscMap κ π × AscMap κ π →
    Updates' π × AscMap κ π × AscMap κ π
  | .enqueueUpdate effectiveTime payload, (u, ars, ips) =>
    (enqueueUpdate effectiveTime payload u, ars, ips)
  | .processUpdateQueues t, state =>
    (processUpdateQueues transactionTimeToTimestamp arIdentity ipIdentity t state).2

end Machine

end Concordium.GlobalState.Persistent.BlockState.Updates
