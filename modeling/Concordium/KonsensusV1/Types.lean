import Mathlib.Data.Nat.Bitwise
import Mathlib.Data.Finset.Sort
import Mathlib.Data.Rat.Defs
import Mathlib.Algebra.Order.Field.Rat
import Concordium.Library.Bits
import Concordium.Library.Word

/-!
Contract: the consensus-v1 data that quorum signing reads and writes, as in
`Concordium.KonsensusV1.Types` and `Concordium.KonsensusV1.TreeState.Types`.

Owns:
- `FinalizerSet` as the source's bit vector over `Natural`, with `addFinalizer`,
  `memberFinalizerSet`, `finalizerSet`, `subsetFinalizerSet` and `finalizerList`, and the facts
  that on sets of `FinalizerIndex` values (`FinalizerSet.Fits`) these are the operations of
  finite sets of indices listed in ascending order (`finalizerList_eq_sort`,
  `finalizerSet_finalizerList`, `subsetFinalizerSet_iff`);
- `QuorumMessage`, `QuorumSignatureMessage`, `QuorumCertificate`;
- `FinalizerInfo`, `FinalizationCommittee`, `finalizerByIndex`, and the
  epoch-indexed committee lookup `getBakersForEpoch` / `bakersForCurrentEpoch`;
- `BlockStatus` over a block pointer reduced to the fields consensus compares.

Does not own: serialization of any of these, BLS or Ed25519 keys (a key is an
opaque number here), or block contents and states.

Hashes, rounds, epochs, finalizer indices and voter power are numbers. `finalizerList` counts
its index as the `Word32` it is, and so wraps on a set with a member at `2 ^ 32` or above
(`finalizerList_wraps_past_word`); the rest only compares and tests bits.
-/

set_option autoImplicit false

namespace Concordium.KonsensusV1.Types

/-! ## Finalizer sets -/

/-- A set of finalizer indices, represented as a bit vector: bit `i` is set iff the
finalizer with index `i` is in the set. -/
structure FinalizerSet where
  theFinalizerSet : Nat
deriving DecidableEq, Repr

/-- The empty set of finalizers. -/
def emptyFinalizerSet : FinalizerSet := ⟨0⟩

/-- `setBit` on the underlying natural number. -/
def addFinalizer (set : FinalizerSet) (index : Nat) : FinalizerSet :=
  ⟨set.theFinalizerSet ||| 2 ^ index⟩

/-- `testBit` on the underlying natural number. -/
def memberFinalizerSet (index : Nat) (set : FinalizerSet) : Bool :=
  set.theFinalizerSet.testBit index

/-- `foldl' addFinalizer (FinalizerSet 0)`. -/
def finalizerSet (indices : List Nat) : FinalizerSet :=
  indices.foldl addFinalizer emptyFinalizerSet

/-- `s1 .&. s2 == s1`. -/
def subsetFinalizerSet (s1 s2 : FinalizerSet) : Bool :=
  s1.theFinalizerSet &&& s2.theFinalizerSet == s1.theFinalizerSet

@[simp] theorem memberFinalizerSet_empty (index : Nat) :
    memberFinalizerSet index emptyFinalizerSet = false := by
  simp [memberFinalizerSet, emptyFinalizerSet]

@[simp] theorem memberFinalizerSet_addFinalizer (index other : Nat)
    (set : FinalizerSet) :
    memberFinalizerSet index (addFinalizer set other) =
      (memberFinalizerSet index set || decide (other = index)) := by
  simp [memberFinalizerSet, addFinalizer, Nat.testBit_two_pow]

/-- Membership in `finalizerSet indices` is list membership. -/
theorem memberFinalizerSet_finalizerSet (index : Nat)
    (indices : List Nat) :
    memberFinalizerSet index (finalizerSet indices) = decide (index ∈ indices) := by
  unfold finalizerSet
  suffices general : ∀ (start : FinalizerSet),
      memberFinalizerSet index (indices.foldl addFinalizer start) =
        (memberFinalizerSet index start || decide (index ∈ indices)) by
    simpa using general emptyFinalizerSet
  induction indices with
  | nil => simp
  | cons head tail inductionHypothesis =>
      intro start
      rw [List.foldl_cons, inductionHypothesis]
      simp only [memberFinalizerSet_addFinalizer, List.mem_cons]
      by_cases same : index = head
      · simp [same]
      · simp [same, Ne.symm same]

/-- `finalizerList`: the indices in the set in ascending order, read off the bit vector from bit
`0` upwards. The index counted along is a `FinalizerIndex`, a `Word32`: past the largest index
it wraps to `0`. -/
def finalizerList (set : FinalizerSet) : List Nat :=
  unroll 0 set.theFinalizerSet
where
  unroll (i x : Nat) : List Nat :=
    if x = 0 then []
    else if x.testBit 0 then i :: unroll (Word.add 32 i 1) (x >>> 1)
    else unroll (Word.add 32 i 1) (x >>> 1)
  termination_by x
  decreasing_by all_goals (rw [Nat.shiftRight_one]; omega)

/-- Every member of the set is a `FinalizerIndex`: no bit at `2 ^ 32` or above is set. -/
def FinalizerSet.Fits (set : FinalizerSet) : Prop :=
  ∀ index, memberFinalizerSet index set = true → index < 2 ^ 32

@[simp] theorem unroll_zero (i : Nat) : finalizerList.unroll i 0 = [] := by
  rw [finalizerList.unroll, if_pos rfl]

/-- Below a set bit of the shifted vector the counter moves on without wrapping. -/
theorem unroll_step_fits {i x : Nat} (fits : ∀ j, x.testBit j = true → i + j < 2 ^ 32)
    (remaining : x >>> 1 ≠ 0) :
    Word.add 32 i 1 = i + 1 ∧ ∀ j, (x >>> 1).testBit j = true → (i + 1) + j < 2 ^ 32 := by
  have shifted : ∀ j, (x >>> 1).testBit j = true → (i + 1) + j < 2 ^ 32 := fun j bit => by
    rw [Nat.testBit_shiftRight] at bit
    have := fits (1 + j) bit
    omega
  obtain ⟨j, bit⟩ := Nat.exists_testBit_of_ne_zero remaining
  exact ⟨Word.add_of_lt (by have := shifted j bit; omega), shifted⟩

/-- While the indices of the set bits fit a `Word32`, the unrolling is that of the positions of
the set bits. -/
theorem unroll_eq_positions {i x : Nat} (fits : ∀ j, x.testBit j = true → i + j < 2 ^ 32) :
    finalizerList.unroll i x = Bits.positions i x := by
  -- each step either ends the walk or moves the counter by one, past which the bits still fit
  have next : ∀ {i x : Nat}, (∀ j, x.testBit j = true → i + j < 2 ^ 32) →
      ((∀ j, (x >>> 1).testBit j = true → Word.add 32 i 1 + j < 2 ^ 32) →
        finalizerList.unroll (Word.add 32 i 1) (x >>> 1) =
          Bits.positions (Word.add 32 i 1) (x >>> 1)) →
      finalizerList.unroll (Word.add 32 i 1) (x >>> 1) = Bits.positions (i + 1) (x >>> 1) := by
    intro i x fits inductionHypothesis
    by_cases remaining : x >>> 1 = 0
    · rw [remaining, unroll_zero, Bits.positions_zero]
    · obtain ⟨stepped, shifted⟩ := unroll_step_fits fits remaining
      rw [stepped] at inductionHypothesis ⊢
      exact inductionHypothesis shifted
  fun_induction finalizerList.unroll i x with
  | case1 i => rw [Bits.positions_zero]
  | case2 i x nonzero low inductionHypothesis =>
      rw [Bits.positions, if_neg nonzero, if_pos low, next fits inductionHypothesis]
  | case3 i x nonzero low inductionHypothesis =>
      rw [Bits.positions, if_neg nonzero, if_neg low, next fits inductionHypothesis]

theorem finalizerList_eq_positions {set : FinalizerSet} (fits : set.Fits) :
    finalizerList set = Bits.positions 0 set.theFinalizerSet :=
  unroll_eq_positions fun j bit => by
    rw [Nat.zero_add]
    exact fits j bit

/-- A set of `FinalizerIndex` values lists exactly its members. -/
theorem mem_finalizerList {set : FinalizerSet} (fits : set.Fits) (index : Nat) :
    index ∈ finalizerList set ↔ memberFinalizerSet index set = true := by
  rw [finalizerList_eq_positions fits, Bits.mem_positions, memberFinalizerSet, Nat.sub_zero]
  simp

theorem finalizerList_ascending {set : FinalizerSet} (fits : set.Fits) :
    (finalizerList set).Pairwise (· < ·) := by
  rw [finalizerList_eq_positions fits]
  exact Bits.positions_ascending 0 set.theFinalizerSet

/-- Two finalizer sets with the same members are equal. -/
theorem finalizerSet_ext {first second : FinalizerSet}
    (same : ∀ index, memberFinalizerSet index first = memberFinalizerSet index second) :
    first = second := by
  cases first
  cases second
  rw [FinalizerSet.mk.injEq]
  exact Nat.eq_of_testBit_eq same

/-- The finalizer list of a set is the ascending list of any finite set of the same members. -/
theorem finalizerList_eq_sort {set : FinalizerSet} (fits : set.Fits) {indices : Finset Nat}
    (same : ∀ index, memberFinalizerSet index set = true ↔ index ∈ indices) :
    finalizerList set = indices.sort (· ≤ ·) := by
  have ascending := finalizerList_ascending fits
  have listed : (finalizerList set).toFinset = indices := by
    ext index
    rw [List.mem_toFinset, mem_finalizerList fits, same]
  rw [← listed, (List.toFinset_sort (· ≤ ·) ascending.nodup).mpr
    (ascending.imp Nat.le_of_lt)]

theorem finalizerSet_finalizerList {set : FinalizerSet} (fits : set.Fits) :
    finalizerSet (finalizerList set) = set :=
  finalizerSet_ext fun index => by
    rw [memberFinalizerSet_finalizerSet, Bool.eq_iff_iff, decide_eq_true_eq,
      mem_finalizerList fits]

/-- The set of a list of `FinalizerIndex` values has `FinalizerIndex` members. -/
theorem finalizerSet_fits {indices : List Nat} (fits : ∀ index ∈ indices, index < 2 ^ 32) :
    (finalizerSet indices).Fits := fun index member => by
  rw [memberFinalizerSet_finalizerSet, decide_eq_true_eq] at member
  exact fits index member

theorem addFinalizer_fits {set : FinalizerSet} (fits : set.Fits) {index : Nat}
    (isIndex : index < 2 ^ 32) : (addFinalizer set index).Fits := fun other member => by
  rw [memberFinalizerSet_addFinalizer, Bool.or_eq_true, decide_eq_true_eq] at member
  rcases member with old | same
  · exact fits other old
  · exact same ▸ isIndex

/-- `subsetFinalizerSet` is inclusion of the members. -/
theorem subsetFinalizerSet_iff (s1 s2 : FinalizerSet) :
    subsetFinalizerSet s1 s2 = true ↔
      ∀ index, memberFinalizerSet index s1 = true → memberFinalizerSet index s2 = true := by
  rw [subsetFinalizerSet, beq_iff_eq]
  constructor
  · intro masked index member
    have bit := congrArg (fun bits => Nat.testBit bits index) masked
    simp only [Nat.testBit_land] at bit
    simp only [memberFinalizerSet] at member ⊢
    rw [member, Bool.true_and] at bit
    exact bit
  · intro included
    apply Nat.eq_of_testBit_eq
    intro index
    rw [Nat.testBit_land]
    cases member : s1.theFinalizerSet.testBit index with
    | false => rfl
    | true =>
        rw [Bool.true_and]
        exact included index member

/-- The operations on finalizer sets are those of finite sets of indices, listed in ascending
order, for sets whose members are `FinalizerIndex` values: building a set from a list of
indices, listing it, testing membership, adding an index and testing inclusion. -/
theorem finalizerSet_operations_agree_with_index_sets :
    (∀ indices : List Nat, (∀ index ∈ indices, index < 2 ^ 32) →
      finalizerList (finalizerSet indices) = indices.toFinset.sort (· ≤ ·)) ∧
      (∀ set : FinalizerSet, set.Fits → finalizerSet (finalizerList set) = set) ∧
      (∀ index (set : FinalizerSet), set.Fits →
        (memberFinalizerSet index set = true ↔ index ∈ finalizerList set)) ∧
      (∀ (set : FinalizerSet) index, set.Fits → index < 2 ^ 32 →
        finalizerList (addFinalizer set index) =
          (insert index (finalizerList set).toFinset).sort (· ≤ ·)) ∧
      (∀ s1 s2 : FinalizerSet, s1.Fits → s2.Fits →
        (subsetFinalizerSet s1 s2 = true ↔ finalizerList s1 ⊆ finalizerList s2)) := by
  refine ⟨fun indices fits => ?_, fun set fits => finalizerSet_finalizerList fits,
    fun index set fits => (mem_finalizerList fits index).symm, fun set index fits isIndex => ?_,
    fun s1 s2 fits1 fits2 => ?_⟩
  · apply finalizerList_eq_sort (finalizerSet_fits fits)
    intro index
    rw [memberFinalizerSet_finalizerSet, decide_eq_true_eq, List.mem_toFinset]
  · apply finalizerList_eq_sort (addFinalizer_fits fits isIndex)
    intro other
    rw [memberFinalizerSet_addFinalizer, Finset.mem_insert, List.mem_toFinset, Bool.or_eq_true,
      decide_eq_true_eq, mem_finalizerList fits]
    exact or_comm.trans (or_congr_left eq_comm)
  · rw [subsetFinalizerSet_iff]
    exact ⟨fun included index listed => (mem_finalizerList fits2 index).mpr
        (included index ((mem_finalizerList fits1 index).mp listed)),
      fun included index member => (mem_finalizerList fits2 index).mp
        (included ((mem_finalizerList fits1 index).mpr member))⟩

/-- The finalizers `0` and `2`. -/
theorem finalizerSet_operations_on_two_finalizers :
    (∀ index ∈ [2, 0], index < 2 ^ 32) ∧
      finalizerList (finalizerSet [2, 0]) = [2, 0].toFinset.sort (· ≤ ·) := by
  have fits : ∀ index ∈ [2, 0], index < 2 ^ 32 := by decide
  exact ⟨fits, finalizerSet_operations_agree_with_index_sets.1 [2, 0] fits⟩

/-- From position `i`, a single bit `k` places up unrolls to the counter moved on `k` times. -/
theorem unroll_two_pow : ∀ (k : Nat) {i : Nat}, i < 2 ^ 32 →
    finalizerList.unroll i (2 ^ k) = [Word.add 32 i k]
  | 0, i, isIndex => by
      rw [finalizerList.unroll, if_neg (by decide), if_pos (by decide),
        show (2 : Nat) ^ 0 >>> 1 = 0 by decide, unroll_zero, Word.add, Nat.add_zero,
        Nat.mod_eq_of_lt isIndex]
  | k + 1, i, _ => by
      have halved : (2 : Nat) ^ (k + 1) >>> 1 = 2 ^ k := by
        rw [Nat.shiftRight_one, Nat.pow_succ, Nat.mul_div_cancel _ (by decide)]
      rw [finalizerList.unroll, if_neg (Nat.pos_iff_ne_zero.mp (Nat.two_pow_pos _)),
        if_neg (by rw [Nat.testBit_two_pow]; simp), halved,
        unroll_two_pow k (Word.add_lt _ _), Word.add_add, Nat.add_comm 1 k]

/-- A set whose only member is `2 ^ 32`, one past the largest `FinalizerIndex`: its list wraps
the index to `0`, which is not a member, and the set of that list is not the set. -/
theorem finalizerList_wraps_past_word :
    finalizerList ⟨2 ^ 2 ^ 32⟩ = [0] ∧ memberFinalizerSet 0 ⟨2 ^ 2 ^ 32⟩ = false ∧
      finalizerSet (finalizerList ⟨2 ^ 2 ^ 32⟩) ≠ ⟨2 ^ 2 ^ 32⟩ := by
  have wrapped : finalizerList ⟨2 ^ 2 ^ 32⟩ = [0] := by
    rw [finalizerList, unroll_two_pow (2 ^ 32) (by decide), Word.add, Nat.zero_add, Nat.mod_self]
  refine ⟨wrapped, ?_, ?_⟩
  · rw [memberFinalizerSet, Nat.testBit_two_pow]
    decide
  · rw [wrapped]
    intro same
    have bits := congrArg FinalizerSet.theFinalizerSet same
    have single : (finalizerSet [0]).theFinalizerSet = 1 := by decide
    rw [single] at bits
    exact absurd bits (Nat.ne_of_lt (Nat.one_lt_two_pow (by decide)))

/-! ## Messages and certificates -/

/-- The message that is multicast by a finalizer when validating and signing blocks.
The signature type `σ` is the aggregate-signature semigroup. -/
structure QuorumMessage (σ : Type) where
  qmSignature : σ
  qmBlock : Nat
  qmFinalizerIndex : Nat
  qmRound : Nat
  qmEpoch : Nat
deriving DecidableEq, Repr

/-- The data a quorum signature signs. -/
structure QuorumSignatureMessage where
  qsmGenesis : Nat
  qsmBlock : Nat
  qsmRound : Nat
  qsmEpoch : Nat
deriving DecidableEq, Repr

/-- `quorumSignatureMessageFor qm genesisHash`. -/
def quorumSignatureMessageFor {σ : Type} (message : QuorumMessage σ) (genesisHash : Nat) :
    QuorumSignatureMessage :=
  { qsmGenesis := genesisHash
    qsmBlock := message.qmBlock
    qsmRound := message.qmRound
    qsmEpoch := message.qmEpoch }

structure QuorumCertificate (σ : Type) where
  qcBlock : Nat
  qcRound : Nat
  qcEpoch : Nat
  qcAggregateSignature : σ
  qcSignatories : FinalizerSet
deriving DecidableEq, Repr

/-! ## Committees -/

/-- Information about a finalizer. Keys are opaque numbers; the signature check that
uses `finalizerBlsKey` is a parameter of the model. -/
structure FinalizerInfo where
  finalizerIndex : Nat
  finalizerWeight : Nat
  finalizerBlsKey : Nat
  finalizerBakerId : Nat
deriving DecidableEq, Repr

/-- The finalization committee: all eligible finalizers, in ascending order of baker id,
and the total voter power. -/
structure FinalizationCommittee where
  committeeFinalizers : List FinalizerInfo
  committeeTotalWeight : Nat
deriving DecidableEq, Repr

/-- `committeeFinalizers finCom Vector.!? fromIntegral (theFinalizerIndex finInd)`. -/
def finalizerByIndex (committee : FinalizationCommittee) (index : Nat) :
    Option FinalizerInfo :=
  committee.committeeFinalizers[index]?

/-- The committees known for the epochs around the last finalized block
(`EpochBakers` restricted to the finalization committees). -/
structure EpochBakers where
  previousEpochBakers : FinalizationCommittee
  currentEpochBakers : FinalizationCommittee
  nextEpochBakers : FinalizationCommittee
  nextPayday : Nat
deriving DecidableEq, Repr

/-- `getBakersForEpoch`, where `lastFinalizedEpoch` is the epoch of the last finalized block.
The third guard uses `Epoch` subtraction, which the source does on `Word64`; here it is
truncated subtraction, which agrees whenever `lastFinalizedEpoch > 0`, and at `0` only
makes the guard `e == 0` repeat the first one. -/
def getBakersForEpoch (bakers : EpochBakers) (lastFinalizedEpoch : Nat) (epoch : Nat) :
    Option FinalizationCommittee :=
  if epoch = lastFinalizedEpoch then some bakers.currentEpochBakers
  else if epoch = lastFinalizedEpoch + 1 then some bakers.nextEpochBakers
  else if epoch = lastFinalizedEpoch - 1 then some bakers.previousEpochBakers
  else if lastFinalizedEpoch ≤ epoch ∧ epoch < bakers.nextPayday then
    some bakers.currentEpochBakers
  else none

/-- `bakersForCurrentEpoch`: the current epoch is the last finalized one or the next. -/
def bakersForCurrentEpoch (bakers : EpochBakers) (lastFinalizedEpoch currentEpoch : Nat) :
    FinalizationCommittee :=
  if currentEpoch = lastFinalizedEpoch then bakers.currentEpochBakers
  else bakers.nextEpochBakers

/-! ## Blocks -/

/-- A block pointer, reduced to the fields that quorum and round logic read. -/
structure BlockPointer where
  bpHash : Nat
  blockRound : Nat
  blockEpoch : Nat
deriving DecidableEq, Repr

inductive BlockStatus where
  | blockAlive (block : BlockPointer)
  | blockFinalized (block : BlockPointer)
  | blockDead
  | blockUnknown
deriving DecidableEq, Repr

end Concordium.KonsensusV1.Types
