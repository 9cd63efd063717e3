import Concordium.Library.Machine
import Concordium.Library.Rounding
import Mathlib.Algebra.BigOperators.Group.List.Basic

/-!
Contract: the encrypted amounts of an account, `PersistentAccountEncryptedAmount` of
`Concordium.GlobalState.Persistent.Account.EncryptedAmount`, with the amounts behind its
references taken as values of any monoid. The incoming amounts carry no indices: the index of
each is implied by the start index, the place in the list and whether an aggregate is held.
Against the ghost list of every amount received, the structure holds exactly the amounts from
its start index on, the oldest folded into the aggregate, as long as the `Word32` count of
aggregated amounts does not wrap; and it wraps after `2 ^ 32 + maxNumIncoming - 1` incoming
amounts.

Owns:
- `PersistentAccountEncryptedAmount`, `initialPersistentAccountEncryptedAmount`,
  `addIncomingEncryptedAmount` (`none` where the source calls `error`), `replaceUpTo` and
  `addToSelfEncryptedAmount`, with `maxNumIncoming` of `Concordium.Constants` (in
  concordium-base, outside these sources) and the source's `fromIntegral` from a `Word64` to an
  `Int` as `wordToInt`;
- the abstract account: `nextIndex`, the ledger of received amounts beside the state
  (`Ledger`, `step`, `Admissible`), and `Tracks`, that the state holds exactly the received
  amounts from its start index on (with `Aggregated` for the aggregate);
- one lemma per branch of `addIncomingEncryptedAmount` that keeps `Tracks` (`Tracks.append`,
  `Tracks.firstAggregate`, `Tracks.aggregateStep`), assembled in
  `addIncomingEncryptedAmount_tracks`; `addIncomingEncryptedAmount_isSome`; `replaceUpTo_of_le`,
  `replaceUpTo_of_lt` and `replaceUpTo_of_tracks_of_lt` (what `replaceUpTo` leaves) with
  `replaceUpTo_tracks`; `Tracks.selfAmount`; and the run lemma `tracks_of_reachable`;
- the run of incoming zero amounts (`zeroLedger`), along which the count wraps
  (`zeroLedger_state_aggregated`).

Does not own: the storage of the structure (`storeUpdate`, `load`), its serialization, its
hash, or the encryption itself.
-/

set_option autoImplicit false

namespace Concordium.GlobalState.Persistent.Account.EncryptedAmount

/-- `maxNumIncoming`: the number of incoming amounts an account holds before it aggregates the
oldest. -/
def maxNumIncoming : Nat := 32

theorem two_le_maxNumIncoming : 2 ≤ maxNumIncoming := by decide

theorem maxNumIncoming_lt : maxNumIncoming < 2 ^ 32 := by decide

/-- `PersistentAccountEncryptedAmount`, with the amounts behind its references as values. The
start index is an `EncryptedAmountAggIndex`, a `Word64`; the count of aggregated amounts a
`Word32`. -/
structure PersistentAccountEncryptedAmount (α : Type) where
  selfAmount : α
  startIndex : UInt64
  incomingEncryptedAmounts : List α
  aggregatedAmount : Option (α × UInt32)
deriving DecidableEq, Repr

section Operations

variable {α : Type} [AddMonoid α]

/-- The initial encrypted amount: zero, no incoming amounts. -/
def initialPersistentAccountEncryptedAmount : PersistentAccountEncryptedAmount α :=
  ⟨0, 0, [], none⟩

/-- Add an incoming amount at the end of the list, aggregating the oldest when the list is
full; `none` where the source calls `error`. -/
def addIncomingEncryptedAmount (newAmount : α) (old : PersistentAccountEncryptedAmount α) :
    Option (PersistentAccountEncryptedAmount α) :=
  match old.aggregatedAmount with
  | none =>
    if old.incomingEncryptedAmounts.length ≥ maxNumIncoming then
      match old.incomingEncryptedAmounts with
      | x :: y :: rest =>
        some { old with
          incomingEncryptedAmounts := rest ++ [newAmount],
          aggregatedAmount := some (x + y, 2),
          startIndex := old.startIndex + 1 }
      | _ => none
    else some { old with incomingEncryptedAmounts := old.incomingEncryptedAmounts ++ [newAmount] }
  | some (e, n) =>
    match old.incomingEncryptedAmounts with
    | x :: rest =>
      some { old with
        incomingEncryptedAmounts := rest ++ [newAmount],
        aggregatedAmount := some (e + x, n + 1),
        startIndex := old.startIndex + 1 }
    | [] => none

/-- `fromIntegral` from a `Word64` to an `Int`: the word read as a signed 64-bit number. -/
def wordToInt (w : UInt64) : Int :=
  w.toInt64.toInt

/-- Drop the amounts with indices below `newIndex`, and make `newAmount` the self amount.
`Seq.drop` of a count that is not positive drops nothing. -/
def replaceUpTo (newIndex : UInt64) (newAmount : α) (s : PersistentAccountEncryptedAmount α) :
    PersistentAccountEncryptedAmount α :=
  let (newStartIndex, toDrop, dropAggregated) : UInt64 × Int × Bool :=
    if newIndex > s.startIndex then
      if s.aggregatedAmount.isNone then (newIndex, wordToInt (newIndex - s.startIndex), false)
      else (newIndex, wordToInt (newIndex - s.startIndex) - 1, true)
    else (s.startIndex, 0, false)
  { selfAmount := newAmount
    startIndex := newStartIndex
    incomingEncryptedAmounts := s.incomingEncryptedAmounts.drop toDrop.toNat
    aggregatedAmount := if dropAggregated then none else s.aggregatedAmount }

/-- Add an amount to the self amount. -/
def addToSelfEncryptedAmount (newAmount : α) (old : PersistentAccountEncryptedAmount α) :
    PersistentAccountEncryptedAmount α :=
  { old with selfAmount := old.selfAmount + newAmount }

/-- The operations on an account's encrypted amounts. -/
inductive Operation (α : Type) where
  | addIncoming (newAmount : α)
  | addToSelf (newAmount : α)
  | replace (newIndex : UInt64) (newAmount : α)
deriving DecidableEq, Repr

def applyOperation : Operation α → PersistentAccountEncryptedAmount α →
    Option (PersistentAccountEncryptedAmount α)
  | .addIncoming newAmount, s => addIncomingEncryptedAmount newAmount s
  | .addToSelf newAmount, s => some (addToSelfEncryptedAmount newAmount s)
  | .replace newIndex newAmount, s => some (replaceUpTo newIndex newAmount s)

end Operations

/-! ## The received amounts

The index of an amount is its place among all the amounts the account has received. The ledger
keeps that list beside the state; it is a ghost, read only by the invariant. -/

section Ledger

variable {α : Type} [AddMonoid α]

/-- The index of the next incoming amount: past the held amounts and the aggregate. -/
def nextIndex (s : PersistentAccountEncryptedAmount α) : Nat :=
  s.startIndex.toNat + s.incomingEncryptedAmounts.length +
    if s.aggregatedAmount.isSome then 1 else 0

/-- The amounts received so far beside the state; no state once an operation has failed. -/
structure Ledger (α : Type) where
  received : List α
  state : Option (PersistentAccountEncryptedAmount α)

/-- The amounts an operation adds to those received. -/
def incomingOf : Operation α → List α
  | .addIncoming newAmount => [newAmount]
  | _ => []

def step (operation : Operation α) (ledger : Ledger α) : Ledger α :=
  ⟨ledger.received ++ incomingOf operation, ledger.state.bind (applyOperation operation)⟩

/-- `replaceUpTo` is called with an index from the start index to the next index. -/
def Admissible (ledger : Ledger α) : Operation α → Prop
  | .replace newIndex _ =>
    ∀ s, ledger.state = some s →
      s.startIndex.toNat ≤ newIndex.toNat ∧ newIndex.toNat ≤ nextIndex s
  | _ => True

def initialLedger : Ledger α :=
  ⟨[], some initialPersistentAccountEncryptedAmount⟩

/-- An aggregate of `n` amounts at start index `start`: the sum of the received amounts
`start + 1 - n` to `start`, with the list holding those after it. -/
structure Aggregated (received : List α) (start : Nat) (incoming : List α) (a : α) (n : Nat) :
    Prop where
  two_le : 2 ≤ n
  le_start : n ≤ start + 1
  length_eq : incoming.length = maxNumIncoming - 1
  sum_eq : a = ((received.drop (start + 1 - n)).take n).sum
  incoming_eq : incoming = received.drop (start + 1)

/-- The state holds exactly the received amounts from its start index on. -/
structure Tracks (received : List α) (s : PersistentAccountEncryptedAmount α) : Prop where
  nextIndex_eq : nextIndex s = received.length
  length_le : s.incomingEncryptedAmounts.length ≤ maxNumIncoming
  unaggregated : s.aggregatedAmount = none →
    s.incomingEncryptedAmounts = received.drop s.startIndex.toNat
  aggregated : ∀ a n, s.aggregatedAmount = some (a, n) →
    Aggregated received s.startIndex.toNat s.incomingEncryptedAmounts a n.toNat

end Ledger

/-! ## What each operation keeps -/

section Invariant

/-- Below this many received amounts the count of aggregated amounts, a `Word32`, does not
wrap. -/
def incomingLimit : Nat :=
  2 ^ 32 + maxNumIncoming - 1

variable {α : Type} [AddMonoid α]

omit [AddMonoid α] in
theorem take_add_one_drop {l : List α} {k n : Nat} {x : α} (found : l[k + n]? = some x) :
    (l.drop k).take (n + 1) = (l.drop k).take n ++ [x] := by
  rw [List.take_add_one, List.getElem?_drop, found, Option.toList_some]

/-- The self amount is no part of the invariant. -/
theorem Tracks.selfAmount {received : List α} {s : PersistentAccountEncryptedAmount α}
    (tracks : Tracks received s) (newSelf : α) : Tracks received { s with selfAmount := newSelf } :=
  ⟨tracks.nextIndex_eq, tracks.length_le, tracks.unaggregated, tracks.aggregated⟩

omit [AddMonoid α] in
theorem nextIndex_of_unaggregated {s : PersistentAccountEncryptedAmount α}
    (none : s.aggregatedAmount = none) :
    nextIndex s = s.startIndex.toNat + s.incomingEncryptedAmounts.length := by
  rw [nextIndex, none]
  rfl

omit [AddMonoid α] in
theorem nextIndex_of_aggregated {s : PersistentAccountEncryptedAmount α} {a : α} {n : UInt32}
    (held : s.aggregatedAmount = some (a, n)) :
    nextIndex s = s.startIndex.toNat + s.incomingEncryptedAmounts.length + 1 := by
  rw [nextIndex, held]
  rfl

section Received

variable {received : List α} {s : PersistentAccountEncryptedAmount α} (newAmount : α)

/-- Below a full list, the new amount is appended. -/
theorem Tracks.append (tracks : Tracks received s) (none : s.aggregatedAmount = none)
    (room : s.incomingEncryptedAmounts.length < maxNumIncoming) :
    Tracks (received ++ [newAmount])
      { s with incomingEncryptedAmounts := s.incomingEncryptedAmounts ++ [newAmount] } := by
  have next := tracks.nextIndex_eq
  rw [nextIndex_of_unaggregated none] at next
  constructor
  · simp only [nextIndex, none, List.length_append, List.length_singleton, Option.isSome_none,
      Bool.false_eq_true, if_false]
    omega
  · dsimp only
    rw [List.length_append, List.length_singleton]
    omega
  · intro _
    dsimp only
    rw [List.drop_append_of_le_length (by omega), tracks.unaggregated none]
  · intro a n held
    dsimp only at held
    rw [none] at held
    cases held

/-- On a full list, the two oldest amounts become the aggregate. -/
theorem Tracks.firstAggregate (tracks : Tracks received s) (none : s.aggregatedAmount = none)
    (full : maxNumIncoming ≤ s.incomingEncryptedAmounts.length) {x y : α} {rest : List α}
    (split : s.incomingEncryptedAmounts = x :: y :: rest)
    (below : received.length + 1 < incomingLimit) :
    Tracks (received ++ [newAmount])
      { s with
        incomingEncryptedAmounts := rest ++ [newAmount],
        aggregatedAmount := some (x + y, 2),
        startIndex := s.startIndex + 1 } := by
  have next := tracks.nextIndex_eq
  rw [nextIndex_of_unaggregated none, split] at next
  have window := tracks.unaggregated none
  have bounded := tracks.length_le
  rw [split] at window full bounded
  simp only [List.length_cons] at next full bounded
  have limit := maxNumIncoming_lt
  simp only [incomingLimit] at below
  have start : (s.startIndex + 1).toNat = s.startIndex.toNat + 1 :=
    Rounding.toNat_add_of_lt (by simp only [UInt64.toNat_one]; omega)
  have rest_eq : rest = received.drop (s.startIndex.toNat + 1 + 1) := by
    rw [show s.startIndex.toNat + 1 + 1 = s.startIndex.toNat + 2 by omega, ← List.drop_drop,
      ← window]
    rfl
  constructor
  · simp only [nextIndex, start, List.length_append, List.length_singleton, Option.isSome_some,
      if_true]
    omega
  · dsimp only
    rw [List.length_append, List.length_singleton]
    omega
  · intro held
    cases held
  · intro a n held
    simp only [Option.some.injEq, Prod.mk.injEq] at held
    obtain ⟨rfl, rfl⟩ := held
    dsimp only
    simp only [start, UInt32.reduceToNat]
    constructor
    · exact le_refl 2
    · omega
    · rw [List.length_append, List.length_singleton]
      omega
    · -- the aggregate is the sum of the amounts at the old start index and the one after
      have from_eq : s.startIndex.toNat + 1 + 1 - 2 = s.startIndex.toNat := by omega
      rw [from_eq, List.drop_append_of_le_length (by omega), ← window]
      simp
    · rw [List.drop_append_of_le_length (by omega), rest_eq]

/-- With an aggregate, the oldest held amount joins it. -/
theorem Tracks.aggregateStep (tracks : Tracks received s) {e : α} {n : UInt32}
    (held : s.aggregatedAmount = some (e, n)) {x : α} {rest : List α}
    (split : s.incomingEncryptedAmounts = x :: rest)
    (below : received.length + 1 < incomingLimit) :
    Tracks (received ++ [newAmount])
      { s with
        incomingEncryptedAmounts := rest ++ [newAmount],
        aggregatedAmount := some (e + x, n + 1),
        startIndex := s.startIndex + 1 } := by
  have next := tracks.nextIndex_eq
  rw [nextIndex_of_aggregated held, split] at next
  obtain ⟨two_le, le_start, length_eq, sum_eq, incoming_eq⟩ := tracks.aggregated e n held
  rw [split] at length_eq incoming_eq
  simp only [List.length_cons] at next length_eq
  have limit := maxNumIncoming_lt
  simp only [incomingLimit] at below
  have start : (s.startIndex + 1).toNat = s.startIndex.toNat + 1 :=
    Rounding.toNat_add_of_lt (by simp only [UInt64.toNat_one]; omega)
  -- the count fits: at most the amounts up to the start index, which the limit bounds
  have count : (n + 1).toNat = n.toNat + 1 := by
    rw [UInt32.toNat_add, UInt32.toNat_one, Nat.mod_eq_of_lt (by omega)]
  have found : received[s.startIndex.toNat + 1 - n.toNat + n.toNat]? = some x := by
    rw [Nat.sub_add_cancel le_start, ← Nat.add_zero (s.startIndex.toNat + 1),
      ← List.getElem?_drop, ← incoming_eq]
    rfl
  have rest_eq : rest = received.drop (s.startIndex.toNat + 1 + 1) := by
    rw [← List.drop_drop, ← incoming_eq]
    rfl
  constructor
  · simp only [nextIndex, start, List.length_append, List.length_singleton, Option.isSome_some,
      if_true]
    omega
  · dsimp only
    rw [List.length_append, List.length_singleton]
    omega
  · intro none
    cases none
  · intro a m aggregate
    simp only [Option.some.injEq, Prod.mk.injEq] at aggregate
    obtain ⟨rfl, rfl⟩ := aggregate
    dsimp only
    rw [start, count]
    constructor
    · omega
    · omega
    · rw [List.length_append, List.length_singleton]
      omega
    · -- the new aggregate reaches one amount further back from the new start index
      have from_eq : s.startIndex.toNat + 1 + 1 - (n.toNat + 1) =
          s.startIndex.toNat + 1 - n.toNat := by omega
      rw [from_eq, List.drop_append_of_le_length (by omega),
        List.take_append_of_le_length (by rw [List.length_drop]; omega),
        take_add_one_drop found, List.sum_append, List.sum_singleton, sum_eq]
    · rw [List.drop_append_of_le_length (by omega), rest_eq]

omit [AddMonoid α] in
theorem exists_cons_cons_of_two_le {l : List α} (long : 2 ≤ l.length) :
    ∃ x y rest, l = x :: y :: rest :=
  match l, long with
  | x :: y :: rest, _ => ⟨x, y, rest, rfl⟩

/-- An incoming amount is added, and the state holds what was received, as long as the count of
aggregated amounts does not wrap. -/
theorem addIncomingEncryptedAmount_tracks (tracks : Tracks received s)
    (below : received.length + 1 < incomingLimit) :
    ∃ s', addIncomingEncryptedAmount newAmount s = some s' ∧
      Tracks (received ++ [newAmount]) s' := by
  unfold addIncomingEncryptedAmount
  cases held : s.aggregatedAmount with
  | none =>
      by_cases full : maxNumIncoming ≤ s.incomingEncryptedAmounts.length
      · -- a full list holds at least two amounts, the two that are aggregated
        obtain ⟨x, y, rest, split⟩ :=
          exists_cons_cons_of_two_le (le_trans two_le_maxNumIncoming full)
        rw [if_pos full]
        simp only [split]
        exact ⟨_, rfl, tracks.firstAggregate newAmount held full split below⟩
      · rw [if_neg full]
        have appended := tracks.append newAmount held (Nat.lt_of_not_le full)
        rw [held] at appended
        exact ⟨_, rfl, appended⟩
  | some aggregate =>
      obtain ⟨e, n⟩ := aggregate
      have length_eq := (tracks.aggregated e n held).length_eq
      have limit := two_le_maxNumIncoming
      obtain ⟨x, rest, split⟩ := List.exists_cons_of_length_pos (by rw [length_eq]; omega)
      simp only [split]
      exact ⟨_, rfl, tracks.aggregateStep newAmount held split below⟩

/-- Neither error branch of `addIncomingEncryptedAmount` is taken on a state that holds what was
received. -/
theorem addIncomingEncryptedAmount_isSome (tracks : Tracks received s) :
    (addIncomingEncryptedAmount newAmount s).isSome := by
  unfold addIncomingEncryptedAmount
  cases held : s.aggregatedAmount with
  | none =>
      by_cases full : maxNumIncoming ≤ s.incomingEncryptedAmounts.length
      · obtain ⟨x, y, rest, split⟩ :=
          exists_cons_cons_of_two_le (le_trans two_le_maxNumIncoming full)
        rw [if_pos full, split]
        rfl
      · rw [if_neg full]
        rfl
  | some aggregate =>
      obtain ⟨e, n⟩ := aggregate
      have length_eq := (tracks.aggregated e n held).length_eq
      have limit := two_le_maxNumIncoming
      obtain ⟨x, rest, split⟩ := List.exists_cons_of_length_pos (by rw [length_eq]; omega)
      rw [split]
      rfl

theorem wordToInt_of_lt {w : UInt64} (small : w.toNat < 2 ^ 63) : wordToInt w = w.toNat := by
  have signed : wordToInt w = w.toBitVec.toInt := rfl
  rw [signed, BitVec.toInt_eq_toNat_cond, UInt64.toNat_toBitVec, if_pos (by omega)]

omit [AddMonoid α] in
/-- An index at or below the start index drops nothing. -/
theorem replaceUpTo_of_le {newIndex : UInt64}
    (notAbove : newIndex.toNat ≤ s.startIndex.toNat) :
    replaceUpTo newIndex newAmount s = { s with selfAmount := newAmount } := by
  have notGreater : ¬ newIndex > s.startIndex := by
    rw [gt_iff_lt, UInt64.lt_iff_toNat_lt]
    omega
  unfold replaceUpTo
  rw [if_neg notGreater]
  rfl

omit [AddMonoid α] in
/-- An index above the start index drops the aggregate and the amounts below the index: the
count dropped from the list is one less when the aggregate stands for the start index. -/
theorem replaceUpTo_of_lt {newIndex : UInt64}
    (above : s.startIndex.toNat < newIndex.toNat) (small : newIndex.toNat < 2 ^ 63) :
    replaceUpTo newIndex newAmount s =
      ⟨newAmount, newIndex,
        s.incomingEncryptedAmounts.drop
          (newIndex.toNat - s.startIndex.toNat - if s.aggregatedAmount.isSome then 1 else 0),
        none⟩ := by
  have greater : newIndex > s.startIndex := UInt64.lt_iff_toNat_lt.mpr above
  have difference : wordToInt (newIndex - s.startIndex) =
      ((newIndex.toNat - s.startIndex.toNat : Nat) : Int) := by
    rw [wordToInt_of_lt (by rw [Rounding.toNat_sub_of_toNat_le (le_of_lt above)]; omega),
      Rounding.toNat_sub_of_toNat_le (le_of_lt above)]
  unfold replaceUpTo
  rw [if_pos greater]
  cases held : s.aggregatedAmount with
  | none =>
      simp only [Option.isNone_none, if_true, difference, Int.toNat_natCast, Option.isSome_none,
        Bool.false_eq_true, if_false, Nat.sub_zero]
  | some aggregate =>
      have dropped : (((newIndex.toNat - s.startIndex.toNat : Nat) : Int) - 1).toNat =
          newIndex.toNat - s.startIndex.toNat - 1 := by omega
      simp only [Option.isNone_some, Bool.false_eq_true, if_false, difference, dropped,
        Option.isSome_some, if_true]

/-- The amounts the state holds past an index above its start index are the received ones
from that index on. -/
theorem Tracks.drop_of_lt (tracks : Tracks received s) {index : Nat}
    (above : s.startIndex.toNat < index) :
    s.incomingEncryptedAmounts.drop
        (index - s.startIndex.toNat - if s.aggregatedAmount.isSome then 1 else 0) =
      received.drop index := by
  cases held : s.aggregatedAmount with
  | none =>
      rw [tracks.unaggregated held, List.drop_drop]
      simp only [Option.isSome_none, Bool.false_eq_true, if_false, Nat.sub_zero]
      congr 1
      omega
  | some aggregate =>
      obtain ⟨e, n⟩ := aggregate
      rw [(tracks.aggregated e n held).incoming_eq, List.drop_drop]
      simp only [Option.isSome_some, if_true]
      congr 1
      omega

/-- `replaceUpTo` at an index above the start index keeps exactly the received amounts from
that index on. -/
theorem replaceUpTo_of_tracks_of_lt (tracks : Tracks received s) {newIndex : UInt64}
    (above : s.startIndex.toNat < newIndex.toNat) (atMost : newIndex.toNat ≤ received.length)
    (below : received.length < incomingLimit) :
    replaceUpTo newIndex newAmount s =
      ⟨newAmount, newIndex, received.drop newIndex.toNat, none⟩ := by
  have limit := maxNumIncoming_lt
  simp only [incomingLimit] at below
  rw [replaceUpTo_of_lt newAmount above (by omega), tracks.drop_of_lt above]

theorem replaceUpTo_tracks (tracks : Tracks received s) {newIndex : UInt64}
    (atMost : newIndex.toNat ≤ received.length) (below : received.length < incomingLimit) :
    Tracks received (replaceUpTo newIndex newAmount s) := by
  by_cases above : s.startIndex.toNat < newIndex.toNat
  · rw [replaceUpTo_of_tracks_of_lt newAmount tracks above atMost below]
    -- what is left is at most what was held past the start index
    have held : received.length - s.startIndex.toNat ≤ maxNumIncoming := by
      have next := tracks.nextIndex_eq
      cases aggregate : s.aggregatedAmount with
      | none =>
          rw [nextIndex_of_unaggregated aggregate] at next
          have bounded := tracks.length_le
          omega
      | some pair =>
          obtain ⟨e, n⟩ := pair
          rw [nextIndex_of_aggregated aggregate] at next
          have length_eq := (tracks.aggregated e n aggregate).length_eq
          have limit := two_le_maxNumIncoming
          omega
    constructor
    · simp only [nextIndex, List.length_drop, Option.isSome_none, Bool.false_eq_true, if_false]
      omega
    · dsimp only
      rw [List.length_drop]
      omega
    · intro _
      rfl
    · intro a n none
      cases none
  · rw [replaceUpTo_of_le newAmount (Nat.le_of_not_lt above)]
    exact tracks.selfAmount newAmount

end Received

end Invariant

/-! ## Every reachable state -/

section Runs

variable {α : Type} [AddMonoid α]

/-- Below the limit, the state is there and holds exactly what was received. -/
def LedgerInvariant (ledger : Ledger α) : Prop :=
  ledger.received.length < incomingLimit →
    ∃ s, ledger.state = some s ∧ Tracks ledger.received s

theorem initialLedger_invariant : LedgerInvariant (initialLedger : Ledger α) := by
  intro _
  refine ⟨_, rfl, ?_⟩
  constructor
  · rfl
  · exact Nat.zero_le _
  · intro _
    rfl
  · intro a n held
    cases held

theorem step_invariant (ledger : Ledger α) (operation : Operation α)
    (invariant : LedgerInvariant ledger) (admissible : Admissible ledger operation) :
    LedgerInvariant (step operation ledger) := by
  intro below
  -- a step only adds to the amounts received, so the limit held before it too
  have grows : ledger.received.length ≤ (step operation ledger).received.length := by
    simp only [step, List.length_append]
    omega
  obtain ⟨s, present, tracks⟩ := invariant (lt_of_le_of_lt grows below)
  cases operation with
  | addIncoming newAmount =>
      have room : ledger.received.length + 1 < incomingLimit := by
        simpa only [step, incomingOf, List.length_append, List.length_singleton] using below
      obtain ⟨s', added, tracks'⟩ := addIncomingEncryptedAmount_tracks newAmount tracks room
      refine ⟨s', ?_, tracks'⟩
      simp only [step, present, Option.bind_some, applyOperation, added]
  | addToSelf newAmount =>
      refine ⟨addToSelfEncryptedAmount newAmount s, ?_, ?_⟩
      · simp only [step, present, Option.bind_some, applyOperation]
      · show Tracks (ledger.received ++ []) (addToSelfEncryptedAmount newAmount s)
        rw [List.append_nil]
        exact tracks.selfAmount (s.selfAmount + newAmount)
  | replace newIndex newAmount =>
      obtain ⟨-, atMost⟩ := admissible s present
      have unchanged : (step (.replace newIndex newAmount) ledger).received = ledger.received :=
        List.append_nil _
      rw [unchanged] at below ⊢
      refine ⟨_, ?_, replaceUpTo_tracks newAmount tracks (tracks.nextIndex_eq ▸ atMost) below⟩
      simp only [step, present, Option.bind_some, applyOperation]

/-- The run lemma: every reachable ledger below the limit has a state holding exactly what was
received. -/
theorem tracks_of_reachable {ledger : Ledger α}
    (reachable : Machine.Reachable step Admissible initialLedger ledger) :
    LedgerInvariant ledger :=
  Machine.Reachable.holds LedgerInvariant initialLedger_invariant step_invariant reachable

end Runs

/-- The encrypted amounts of an account track its incoming amounts exactly, while fewer than
`2 ^ 32 + maxNumIncoming - 1` have been received: the state is there, holds the received amounts
from its start index on with the aggregate standing for the ones before (`Tracks`), never takes
an error branch, keeps its next index under `addToSelfEncryptedAmount` and `replaceUpTo`, and
`replaceUpTo` at an index above the start index keeps exactly the amounts from that index on. -/
theorem encrypted_amounts_track_incoming {α : Type} [AddMonoid α] {ledger : Ledger α}
    (reachable : Machine.Reachable step Admissible initialLedger ledger)
    (below : ledger.received.length < 2 ^ 32 + maxNumIncoming - 1) :
    ∃ s, ledger.state = some s ∧ Tracks ledger.received s ∧
      (∀ newAmount, (addIncomingEncryptedAmount newAmount s).isSome) ∧
      (∀ newAmount, nextIndex (addToSelfEncryptedAmount newAmount s) = nextIndex s) ∧
      ∀ (newIndex : UInt64) (newAmount : α),
        s.startIndex.toNat ≤ newIndex.toNat → newIndex.toNat ≤ nextIndex s →
          nextIndex (replaceUpTo newIndex newAmount s) = nextIndex s ∧
          (s.startIndex.toNat < newIndex.toNat →
            replaceUpTo newIndex newAmount s =
              ⟨newAmount, newIndex, ledger.received.drop newIndex.toNat, none⟩) := by
  obtain ⟨s, present, tracks⟩ := tracks_of_reachable reachable below
  have next := tracks.nextIndex_eq
  refine ⟨s, present, tracks, fun newAmount => addIncomingEncryptedAmount_isSome newAmount tracks,
    fun _ => rfl, ?_⟩
  intro newIndex newAmount _ atMost
  rw [next] at atMost
  refine ⟨?_, fun above => replaceUpTo_of_tracks_of_lt newAmount tracks above atMost below⟩
  rw [(replaceUpTo_tracks newAmount tracks atMost below).nextIndex_eq, next]

theorem encrypted_amounts_track_incoming_after_one_amount :
    ∃ s, (step (.addIncoming (5 : ℕ)) initialLedger).state = some s ∧ Tracks [5] s := by
  obtain ⟨s, present, tracks, -⟩ := encrypted_amounts_track_incoming
    (Machine.Reachable.step Machine.Reachable.start
      (show Admissible initialLedger (.addIncoming (5 : ℕ)) from trivial)) (by decide)
  exact ⟨s, present, tracks⟩

/-! ## The count of aggregated amounts wraps -/

/-- `count` zero amounts received one after another. -/
def zeroLedger (count : Nat) : Ledger ℕ :=
  (step (.addIncoming 0))^[count] initialLedger

theorem zeroLedger_reachable (count : Nat) :
    Machine.Reachable step Admissible initialLedger (zeroLedger count) := by
  induction count with
  | zero => exact Machine.Reachable.start
  | succ count inductionHypothesis =>
      rw [zeroLedger, Function.iterate_succ_apply']
      exact Machine.Reachable.step inductionHypothesis trivial

theorem zeroLedger_succ_state (count : Nat) :
    (zeroLedger (count + 1)).state =
      (zeroLedger count).state.bind (addIncomingEncryptedAmount 0) := by
  rw [zeroLedger, Function.iterate_succ_apply']
  rfl

/-- Up to a full list, the amounts are appended. -/
theorem zeroLedger_state_of_le {count : Nat} (within : count ≤ maxNumIncoming) :
    (zeroLedger count).state = some ⟨0, 0, List.replicate count 0, none⟩ := by
  induction count with
  | zero => rfl
  | succ count inductionHypothesis =>
      rw [zeroLedger_succ_state, inductionHypothesis (by omega), Option.bind_some]
      unfold addIncomingEncryptedAmount
      rw [List.length_replicate, if_neg (by omega), List.replicate_succ']

theorem replicate_zero_pred :
    List.replicate (maxNumIncoming - 1) (0 : ℕ) = 0 :: List.replicate (maxNumIncoming - 2) 0 := by
  have limit := two_le_maxNumIncoming
  rw [show maxNumIncoming - 1 = maxNumIncoming - 2 + 1 by omega, List.replicate_succ]

theorem replicate_zero_shift :
    List.replicate (maxNumIncoming - 2) (0 : ℕ) ++ [0] = List.replicate (maxNumIncoming - 1) 0 := by
  have limit := two_le_maxNumIncoming
  rw [← List.replicate_succ', show maxNumIncoming - 2 + 1 = maxNumIncoming - 1 by omega]

/-- With an aggregate of zeros, a zero joins it and the count goes up by one. -/
theorem addIncomingEncryptedAmount_zero_aggregated (start : UInt64) (count : UInt32) :
    addIncomingEncryptedAmount (0 : ℕ)
        ⟨0, start, List.replicate (maxNumIncoming - 1) 0, some (0, count)⟩ =
      some ⟨0, start + 1, List.replicate (maxNumIncoming - 1) 0, some (0, count + 1)⟩ := by
  unfold addIncomingEncryptedAmount
  conv_lhs => rw [replicate_zero_pred]
  simp only [replicate_zero_shift, Nat.add_zero]

/-- Past a full list, every amount joins the aggregate, whose count grows as a `Word32`. -/
theorem zeroLedger_state_aggregated (extra : Nat) :
    (zeroLedger (maxNumIncoming + 1 + extra)).state =
      some ⟨0, UInt64.ofNat (1 + extra), List.replicate (maxNumIncoming - 1) 0,
        some (0, UInt32.ofNat (2 + extra))⟩ := by
  have limit := two_le_maxNumIncoming
  induction extra with
  | zero =>
      -- the full list of zeros: its two oldest amounts become the aggregate
      rw [Nat.add_zero, zeroLedger_succ_state, zeroLedger_state_of_le (le_refl _),
        Option.bind_some]
      unfold addIncomingEncryptedAmount
      rw [List.length_replicate, if_pos (le_refl _)]
      conv_lhs => rw [show maxNumIncoming = maxNumIncoming - 2 + 1 + 1 by omega,
        List.replicate_succ, List.replicate_succ]
      simp only [replicate_zero_shift, Nat.add_zero]
      rfl
  | succ extra inductionHypothesis =>
      have start : UInt64.ofNat (1 + (extra + 1)) = UInt64.ofNat (1 + extra) + 1 := by
        rw [← Nat.add_assoc, UInt64.ofNat_add]
        rfl
      have count : UInt32.ofNat (2 + (extra + 1)) = UInt32.ofNat (2 + extra) + 1 := by
        rw [← Nat.add_assoc, UInt32.ofNat_add]
        rfl
      rw [← Nat.add_assoc, zeroLedger_succ_state, inductionHypothesis, Option.bind_some,
        addIncomingEncryptedAmount_zero_aggregated, start, count]

/-- After `2 ^ 32 + maxNumIncoming - 1` incoming amounts the count of aggregated amounts has
wrapped to zero. -/
theorem aggregated_count_wraps_to_zero :
    Machine.Reachable step Admissible initialLedger (zeroLedger (2 ^ 32 + maxNumIncoming - 1)) ∧
      ∃ s, (zeroLedger (2 ^ 32 + maxNumIncoming - 1)).state = some s ∧
        s.aggregatedAmount = some (0, 0) := by
  have count : 2 ^ 32 + maxNumIncoming - 1 = maxNumIncoming + 1 + (2 ^ 32 - 2) := by
    have limit := two_le_maxNumIncoming
    omega
  refine ⟨zeroLedger_reachable _, _, by rw [count, zeroLedger_state_aggregated], ?_⟩
  rfl

end Concordium.GlobalState.Persistent.Account.EncryptedAmount
