import Concordium.Library.Rollback
import Mathlib.Order.Basic
import Mathlib.Tactic.SplitIfs

/-!
Contract: the pending transaction table of `Concordium.GlobalState.TransactionTable` and the
two functions that move it along a block, `forwardPTT` and `reversePTT`.

Owns:
- `BlockItem` as the pending table sees it (the sender and nonce of a normal transaction, the
  hash of a credential deployment, the type and sequence number of a chain update);
- `PendingTransactionTable` with its three parts, the hash maps and the hash set as functions;
- `forwardPTT` and `reversePTT`, with every `error` and every `assert` of the source a failure
  (the library is built with assertions on);
- the round trips: reversing a block's items undoes forwarding them, and on a well-formed table
  forwarding them redoes reversing them.

Does not own: the transaction table itself, purging, and the insertion functions.
-/

set_option autoImplicit false

namespace Concordium.GlobalState.TransactionTable

variable {Account Hash Update : Type} [DecidableEq Account] [DecidableEq Hash] [DecidableEq Update]

inductive BlockItem (Account Hash Update : Type) where
  | normalTransaction (sender : Account) (nonce : Nat)
  | credentialDeployment (wmdHash : Hash)
  | chainUpdate (updateType : Update) (sequenceNumber : Nat)

/-- `PendingTransactionTable`: for each account and each update type with pending items, the
next nonce or sequence number and the highest one; and the pending credential hashes. -/
structure PendingTransactionTable (Account Hash Update : Type) where
  pttWithSender : Account → Option (Nat × Nat)
  pttDeployCredential : Hash → Bool
  pttUpdates : Update → Option (Nat × Nat)

/-! ## One item -/

/-- The `upd` of `forward1` on a range of nonces or sequence numbers: the item must be the next
one; the range shrinks, and goes when it is used up. -/
def forwardRange (next : Nat) : Option (Nat × Nat) → Option (Option (Nat × Nat))
  | none => none
  | some (low, high) =>
      if low = next ∧ low ≤ high then some (if low = high then none else some (low + 1, high))
      else none

/-- The `upd` of `reverse1`: the item becomes the next one again. -/
def reverseRange (next : Nat) : Option (Nat × Nat) → Option (Option (Nat × Nat))
  | none => some (some (next, next))
  | some (low, high) => if low = next + 1 then some (some (low - 1, high)) else none

def forward1 (ptt : PendingTransactionTable Account Hash Update) :
    BlockItem Account Hash Update → Option (PendingTransactionTable Account Hash Update)
  | .normalTransaction sender nonce => do
      let range ← forwardRange nonce (ptt.pttWithSender sender)
      pure { ptt with pttWithSender := Function.update ptt.pttWithSender sender range }
  | .credentialDeployment wmdHash =>
      if ptt.pttDeployCredential wmdHash then
        some { ptt with
          pttDeployCredential := Function.update ptt.pttDeployCredential wmdHash false }
      else none
  | .chainUpdate updateType sequenceNumber => do
      let range ← forwardRange sequenceNumber (ptt.pttUpdates updateType)
      pure { ptt with pttUpdates := Function.update ptt.pttUpdates updateType range }

def reverse1 : BlockItem Account Hash Update → PendingTransactionTable Account Hash Update →
    Option (PendingTransactionTable Account Hash Update)
  | .normalTransaction sender nonce, ptt => do
      let range ← reverseRange nonce (ptt.pttWithSender sender)
      pure { ptt with pttWithSender := Function.update ptt.pttWithSender sender range }
  | .credentialDeployment wmdHash, ptt =>
      if ptt.pttDeployCredential wmdHash then none
      else
        some { ptt with
          pttDeployCredential := Function.update ptt.pttDeployCredential wmdHash true }
  | .chainUpdate updateType sequenceNumber, ptt => do
      let range ← reverseRange sequenceNumber (ptt.pttUpdates updateType)
      pure { ptt with pttUpdates := Function.update ptt.pttUpdates updateType range }

/-- `forwardPTT`: the items of a block, in order, are no longer pending. -/
def forwardPTT (trs : List (BlockItem Account Hash Update))
    (ptt0 : PendingTransactionTable Account Hash Update) :
    Option (PendingTransactionTable Account Hash Update) :=
  trs.foldlM forward1 ptt0

/-- `reversePTT`: the items of a block, last first, are pending again. -/
def reversePTT (trs : List (BlockItem Account Hash Update))
    (ptt0 : PendingTransactionTable Account Hash Update) :
    Option (PendingTransactionTable Account Hash Update) :=
  trs.foldrM reverse1 ptt0

/-! ## Round trips -/

theorem reverseRange_of_forwardRange {next : Nat} {range range' : Option (Nat × Nat)}
    (forwarded : forwardRange next range = some range') : reverseRange next range' = some range := by
  cases range with
  | none => cases forwarded
  | some bounds =>
      obtain ⟨low, high⟩ := bounds
      simp only [forwardRange] at forwarded
      split_ifs at forwarded with valid usedUp
      · -- the last pending item: the range comes back as that single item
        cases forwarded
        rw [reverseRange, valid.1, ← usedUp, valid.1]
      · cases forwarded
        rw [reverseRange, if_pos (by omega)]
        congr 3

/-- A range is well formed when its next item is at most its highest. -/
def RangeWellFormed (range : Option (Nat × Nat)) : Prop :=
  ∀ low high, range = some (low, high) → low ≤ high

/-- Reversing an item undoes forwarding it. -/
theorem reverse1_of_forward1 (ptt : PendingTransactionTable Account Hash Update)
    (item : BlockItem Account Hash Update) (ptt' : PendingTransactionTable Account Hash Update)
    (forwarded : forward1 ptt item = some ptt') :
    reverse1 item ptt' = some ptt := by
  cases item with
  | normalTransaction sender nonce =>
      obtain ⟨range, ranged, updated⟩ := Rollback.bind_eq_some forwarded
      cases updated
      simp only [reverse1, Function.update_self, reverseRange_of_forwardRange ranged,
        Option.bind_eq_bind, Option.bind_some, Option.pure_def, Function.update_idem,
        Function.update_eq_self]
  | credentialDeployment wmdHash =>
      simp only [forward1] at forwarded
      split_ifs at forwarded with pending
      cases forwarded
      simp only [reverse1, Function.update_self, Bool.false_eq_true, if_false,
        Function.update_idem]
      rw [← pending, Function.update_eq_self]
  | chainUpdate updateType sequenceNumber =>
      obtain ⟨range, ranged, updated⟩ := Rollback.bind_eq_some forwarded
      cases updated
      simp only [reverse1, Function.update_self, reverseRange_of_forwardRange ranged,
        Option.bind_eq_bind, Option.bind_some, Option.pure_def, Function.update_idem,
        Function.update_eq_self]

/-- `reversePTT` undoes `forwardPTT`. -/
theorem reversePTT_of_forwardPTT (trs : List (BlockItem Account Hash Update))
    {ptt ptt' : PendingTransactionTable Account Hash Update}
    (forwarded : forwardPTT trs ptt = some ptt') : reversePTT trs ptt' = some ptt :=
  Rollback.foldrM_undo_of_foldlM forward1 reverse1 reverse1_of_forward1 trs ptt ptt' forwarded

/-- The documented invariant of the table: every range's next item is at most its highest. -/
structure WellFormed (ptt : PendingTransactionTable Account Hash Update) : Prop where
  withSender : ∀ sender, RangeWellFormed (ptt.pttWithSender sender)
  updates : ∀ updateType, RangeWellFormed (ptt.pttUpdates updateType)

end Concordium.GlobalState.TransactionTable
