import Concordium.KonsensusV1.Consensus.RoundSigning
import Concordium.Library.MatchWalk
import Mathlib.Data.Finset.Sort

/-!
Contract: the check of a timeout certificate, `checkTimeoutCertificate` of
`Concordium.KonsensusV1.Types`, and which weight of signers it compares against the threshold.

Owns:
- `FinalizerRounds`, the source's `Map Round FinalizerSet` as its ascending list, and
  `TimeoutCertificate` with `tcIsSingleEpoch`, `tcMaxEpoch` and `tcMaxRound`;
- `checkTimeoutCertificate` with its `computeMsgKeysIds` and `computeWeight`;
- `collectMsgKeysIds`, what `computeMsgKeysIds` hands its continuation, and
  `checkTimeoutCertificate_eq_of_collect`, the check read through it;
- `signerWeight`, the weight in a committee of the finalizers whose baker id signed, with
  `computeWeight_of_covered` (the weight compared is the signers' weight, as a `Word64`, when
  every signer sits in the QC's committee) and `computeWeight_of_least_missing` (it is `0` when the least signer
  does not).

Does not own: the BLS check (`verifyAggregateHybrid` is a parameter) or the bytes of the signed
messages (a `TimeoutSignatureMessage` stands for its serialization).

## Why the weight can come out short

`computeWeight` walks the ascending signer ids along the QC's committee, ascending by baker id,
and moves on in the signer list only where it meets that signer in the committee
(`MatchWalk.matchWalk`). The signers come from the committees of the certificate's two epochs,
but they are weighed in the committee of the QC's epoch: a signer who is no longer in that
committee is never met, the walk stops at it, and no later signer counts.
-/

set_option autoImplicit false

namespace Concordium.KonsensusV1.Types

open Concordium.KonsensusV1.Consensus.RoundSigning (TimeoutSignatureMessage)
open MatchWalk

variable {σ : Type}

/-- For each QC round, the finalizers whose timeout messages carry a QC of that round: the
source's `Map Round FinalizerSet`, as its list in ascending order of round. -/
structure FinalizerRounds where
  theFinalizerRounds : List (Nat × FinalizerSet)
  ascending : (theFinalizerRounds.map Prod.fst).Pairwise (· < ·)

/-- The rounds of `Map.empty` are ascending. -/
theorem nil_ascending : (([] : List (Nat × FinalizerSet)).map Prod.fst).Pairwise (· < ·) :=
  List.Pairwise.nil

/-- `Map.toAscList . theFinalizerRounds`. -/
def finalizerRoundsList (rounds : FinalizerRounds) : List (Nat × FinalizerSet) :=
  rounds.theFinalizerRounds

structure TimeoutCertificate (σ : Type) where
  tcRound : Nat
  tcMinEpoch : Nat
  tcFinalizerQCRoundsFirstEpoch : FinalizerRounds
  tcFinalizerQCRoundsSecondEpoch : FinalizerRounds
  tcAggregateSignature : σ

/-- `tcIsSingleEpoch`: no finalizer signed with a QC of the second epoch. -/
def tcIsSingleEpoch (tc : TimeoutCertificate σ) : Bool :=
  tc.tcFinalizerQCRoundsSecondEpoch.theFinalizerRounds.isEmpty

/-- `tcMaxEpoch`: the greatest epoch with signatures, `tcMinEpoch` when there are none. -/
def tcMaxEpoch (tc : TimeoutCertificate σ) : Nat :=
  if tcIsSingleEpoch tc then tc.tcMinEpoch else tc.tcMinEpoch + 1

/-- `maxRound` of `tcMaxRound`: the greatest round of the map, `0` when it is empty. -/
def maxRound (rounds : FinalizerRounds) : Nat :=
  ((finalizerRoundsList rounds).getLast?.map Prod.fst).getD 0

/-- `tcMaxRound`: the greatest QC round with signatures, `0` when there are none. -/
def tcMaxRound (tc : TimeoutCertificate σ) : Nat :=
  max (maxRound tc.tcFinalizerQCRoundsFirstEpoch) (maxRound tc.tcFinalizerQCRoundsSecondEpoch)

/-- Signed messages with the keys of their signers, as `Bls.verifyAggregateHybrid` takes them. -/
abbrev MsgKeys := List (TimeoutSignatureMessage × List Nat)

/-- `computeMsgKeysIds` of `checkTimeoutCertificate`: resolve the signers of each QC round in the
epoch's committee and hand the messages with their keys, and the signers' baker ids, to the
continuation; `false` as soon as an index does not resolve. `Set.fromAscList` of the resolved
baker ids is `List.toFinset`. -/
def computeMsgKeysIds (tsmGenesis tcRound : Nat) (finCom : FinalizationCommittee)
    (tsmQCEpoch : Nat) (finRounds : FinalizerRounds) (continuation : MsgKeys → Finset Nat → Bool) :
    Bool :=
  accumulate [] ∅ (finalizerRoundsList finRounds)
where
  accumulate (msgKeys : MsgKeys) (finBakerIds : Finset Nat) : List (Nat × FinalizerSet) → Bool
    | [] => continuation msgKeys finBakerIds
    | (tsmQCRound, finSet) :: rounds =>
        match (finalizerList finSet).mapM (finalizerByIndex finCom) with
        | none => false
        | some fins =>
            accumulate
              (({ tsmGenesis, tsmRound := tcRound, tsmQCRound, tsmQCEpoch },
                  fins.map FinalizerInfo.finalizerBlsKey) :: msgKeys)
              ((fins.map FinalizerInfo.finalizerBakerId).toFinset ∪ finBakerIds)
              rounds

/-- `computeWeight` of `checkTimeoutCertificate`: the weight of `bids` walked along the committee
of the QC's epoch, added as `VoterPower`, a `Word64`. -/
def computeWeight (finComQC : FinalizationCommittee) (bids : List Nat) : Nat :=
  (finComQC.committeeFinalizers.foldl maybeAdd (bids, 0)).2
where
  /-- Adds the weight of a finalizer whose baker id is the next bid, and passes over any other. -/
  maybeAdd : List Nat × Nat → FinalizerInfo → List Nat × Nat :=
    matchWalk 64 FinalizerInfo.finalizerBakerId FinalizerInfo.finalizerWeight

/-- `checkTimeoutCertificate tsmGenesis sigThreshold finCom1 finCom2 finComQC tc`: the committees
are those of the certificate's minimum epoch, of the epoch after it, and of the epoch of the QC
the certificate is checked against. -/
def checkTimeoutCertificate (verifyAggregateHybrid : MsgKeys → σ → Bool) (tsmGenesis : Nat)
    (sigThreshold : ℚ) (finCom1 finCom2 finComQC : FinalizationCommittee)
    (tc : TimeoutCertificate σ) : Bool :=
  computeMsgKeysIds tsmGenesis tc.tcRound finCom1 tc.tcMinEpoch tc.tcFinalizerQCRoundsFirstEpoch
    fun msgKeys1 bids1 =>
      computeMsgKeysIds tsmGenesis tc.tcRound finCom2 (tc.tcMinEpoch + 1)
        tc.tcFinalizerQCRoundsSecondEpoch fun msgKeys2 bids2 =>
          check (msgKeys1 ++ msgKeys2) (bids1 ∪ bids2)
where
  check (msgKeys : MsgKeys) (finBakerIds : Finset Nat) : Bool :=
    verifyAggregateHybrid msgKeys tc.tcAggregateSignature &&
      decide ((computeWeight finComQC (finBakerIds.sort (· ≤ ·)) : ℚ) ≥ targetWeight)
  targetWeight : ℚ := sigThreshold * finComQC.committeeTotalWeight

/-! ## What the continuation receives -/

/-- What `accumulate` hands its continuation, from the given messages and baker ids on, or
`none` where an index does not resolve. -/
def collectMsgKeysIds (tsmGenesis tcRound : Nat) (finCom : FinalizationCommittee)
    (tsmQCEpoch : Nat) (msgKeys : MsgKeys) (finBakerIds : Finset Nat) :
    List (Nat × FinalizerSet) → Option (MsgKeys × Finset Nat)
  | [] => some (msgKeys, finBakerIds)
  | (tsmQCRound, finSet) :: rounds =>
      match (finalizerList finSet).mapM (finalizerByIndex finCom) with
      | none => none
      | some fins =>
          collectMsgKeysIds tsmGenesis tcRound finCom tsmQCEpoch
            (({ tsmGenesis, tsmRound := tcRound, tsmQCRound, tsmQCEpoch },
                fins.map FinalizerInfo.finalizerBlsKey) :: msgKeys)
            ((fins.map FinalizerInfo.finalizerBakerId).toFinset ∪ finBakerIds)
            rounds

theorem accumulate_eq_collect (tsmGenesis tcRound : Nat) (finCom : FinalizationCommittee)
    (tsmQCEpoch : Nat) (continuation : MsgKeys → Finset Nat → Bool) :
    ∀ (rounds : List (Nat × FinalizerSet)) (msgKeys : MsgKeys) (finBakerIds : Finset Nat),
      computeMsgKeysIds.accumulate tsmGenesis tcRound finCom tsmQCEpoch continuation msgKeys
          finBakerIds rounds =
        (collectMsgKeysIds tsmGenesis tcRound finCom tsmQCEpoch msgKeys finBakerIds rounds).elim
          false fun collected => continuation collected.1 collected.2
  | [], _, _ => rfl
  | (tsmQCRound, finSet) :: rounds, msgKeys, finBakerIds => by
      rw [computeMsgKeysIds.accumulate, collectMsgKeysIds]
      -- the two recursions make the same case split on whether the round's indices resolve
      cases (finalizerList finSet).mapM (finalizerByIndex finCom) with
      | none => rfl
      | some fins =>
          exact accumulate_eq_collect tsmGenesis tcRound finCom tsmQCEpoch continuation rounds _ _

theorem computeMsgKeysIds_eq_collect (tsmGenesis tcRound : Nat) (finCom : FinalizationCommittee)
    (tsmQCEpoch : Nat) (finRounds : FinalizerRounds) (continuation : MsgKeys → Finset Nat → Bool) :
    computeMsgKeysIds tsmGenesis tcRound finCom tsmQCEpoch finRounds continuation =
      (collectMsgKeysIds tsmGenesis tcRound finCom tsmQCEpoch [] ∅
          (finalizerRoundsList finRounds)).elim
        false fun collected => continuation collected.1 collected.2 :=
  accumulate_eq_collect tsmGenesis tcRound finCom tsmQCEpoch continuation _ [] ∅

/-- When the signers of both epochs resolve, the check is the aggregate signature check and the
comparison of `computeWeight` over all of their baker ids with the target weight. -/
theorem checkTimeoutCertificate_eq_of_collect {verifyAggregateHybrid : MsgKeys → σ → Bool}
    {tsmGenesis : Nat} {sigThreshold : ℚ} {finCom1 finCom2 finComQC : FinalizationCommittee}
    {tc : TimeoutCertificate σ} {msgKeys1 msgKeys2 : MsgKeys} {bids1 bids2 : Finset Nat}
    (first : collectMsgKeysIds tsmGenesis tc.tcRound finCom1 tc.tcMinEpoch [] ∅
      (finalizerRoundsList tc.tcFinalizerQCRoundsFirstEpoch) = some (msgKeys1, bids1))
    (second : collectMsgKeysIds tsmGenesis tc.tcRound finCom2 (tc.tcMinEpoch + 1) [] ∅
      (finalizerRoundsList tc.tcFinalizerQCRoundsSecondEpoch) = some (msgKeys2, bids2)) :
    checkTimeoutCertificate verifyAggregateHybrid tsmGenesis sigThreshold finCom1 finCom2 finComQC
        tc =
      (verifyAggregateHybrid (msgKeys1 ++ msgKeys2) tc.tcAggregateSignature &&
        decide ((computeWeight finComQC ((bids1 ∪ bids2).sort (· ≤ ·)) : ℚ) ≥
          sigThreshold * finComQC.committeeTotalWeight)) := by
  rw [checkTimeoutCertificate, computeMsgKeysIds_eq_collect, first, Option.elim_some,
    computeMsgKeysIds_eq_collect, second, Option.elim_some]
  rfl

/-! ## The weight compared -/

/-- The weight of the finalizers of `finComQC` whose baker id is among `signers`. -/
def signerWeight (finComQC : FinalizationCommittee) (signers : Finset Nat) : Nat :=
  ((finComQC.committeeFinalizers.filter fun info => info.finalizerBakerId ∈ signers).map
    FinalizerInfo.finalizerWeight).sum

/-- The baker ids of a committee's finalizers, in the committee's order. -/
def committeeBakerIds (committee : FinalizationCommittee) : List Nat :=
  committee.committeeFinalizers.map FinalizerInfo.finalizerBakerId

/-- When the QC's committee ascends by baker id and every signer sits in it, the weight the check
compares is the signers' weight as a `Word64`. -/
theorem computeWeight_of_covered {finComQC : FinalizationCommittee} {signers : Finset Nat}
    (ascending : (committeeBakerIds finComQC).Pairwise (· < ·))
    (covered : ∀ bid ∈ signers, bid ∈ committeeBakerIds finComQC) :
    computeWeight finComQC (signers.sort (· ≤ ·)) = signerWeight finComQC signers % 2 ^ 64 := by
  have sortedCovered : ∀ bid ∈ signers.sort (· ≤ ·), bid ∈ committeeBakerIds finComQC :=
    fun bid listed => covered bid ((Finset.mem_sort _).mp listed)
  have sameSigners : (finComQC.committeeFinalizers.filter fun info =>
        info.finalizerBakerId ∈ signers.sort (· ≤ ·)) =
      finComQC.committeeFinalizers.filter fun info => info.finalizerBakerId ∈ signers :=
    List.filter_congr fun info _ => by simp only [Finset.mem_sort]
  rw [computeWeight, computeWeight.maybeAdd,
    foldl_matchWalk_of_covered_zero _ _ _ ascending (Finset.sortedLT_sort signers).pairwise
      sortedCovered,
    wantedWeight, sameSigners, signerWeight]

/-- A least signer who is not in the QC's committee stops the walk at once: the weight the check
compares is `0`, whatever the other signers weigh. -/
theorem computeWeight_of_least_missing {finComQC : FinalizationCommittee} {signers : Finset Nat}
    {least : Nat} (listed : least ∈ signers) (minimal : ∀ bid ∈ signers, least ≤ bid)
    (missing : least ∉ committeeBakerIds finComQC) :
    computeWeight finComQC (signers.sort (· ≤ ·)) = 0 := by
  have sorted : signers.sort (· ≤ ·) = least :: (signers.erase least).sort (· ≤ ·) := by
    conv_lhs => rw [← Finset.insert_erase listed]
    exact Finset.sort_insert _ (fun bid kept => minimal bid (Finset.mem_of_mem_erase kept))
      (Finset.notMem_erase least signers)
  rw [computeWeight, computeWeight.maybeAdd, sorted, foldl_matchWalk_of_missing _ _ _ _ _ _ missing]

/-- The committee of a certificate's epoch: bakers `1` and `2` as finalizers `0` and `1`. -/
def departingCommittee : FinalizationCommittee :=
  ⟨[⟨0, 1, 0, 1⟩, ⟨1, 1, 0, 2⟩], 2⟩

theorem computeWeight_of_covered_on_departing_committee :
    computeWeight departingCommittee (({1, 2} : Finset Nat).sort (· ≤ ·)) =
        signerWeight departingCommittee {1, 2} % 2 ^ 64 ∧
      signerWeight departingCommittee {1, 2} = 2 :=
  ⟨computeWeight_of_covered (by decide) (by decide), by decide⟩

/-- The committee of the QC's epoch, which baker `1` has left. -/
def remainingCommittee : FinalizationCommittee :=
  ⟨[⟨0, 1, 0, 2⟩], 1⟩

def emptyCommittee : FinalizationCommittee :=
  ⟨[], 0⟩

/-- Both finalizers of `departingCommittee` time out in round `5` with a QC of round `3`. -/
def departedSignerCertificate : TimeoutCertificate Nat where
  tcRound := 5
  tcMinEpoch := 0
  tcFinalizerQCRoundsFirstEpoch := ⟨[(3, finalizerSet [0, 1])], by decide⟩
  tcFinalizerQCRoundsSecondEpoch := ⟨[], by decide⟩
  tcAggregateSignature := 0

theorem checkTimeoutCertificate_ignores_signer_after_departed :
    signerWeight remainingCommittee {1, 2} = 1 ∧
      computeWeight remainingCommittee [1, 2] = 0 ∧
      checkTimeoutCertificate (fun _ _ => true) 0 (2 / 3) departingCommittee emptyCommittee
        remainingCommittee departedSignerCertificate = false := by
  have first : collectMsgKeysIds 0 5 departingCommittee 0 [] ∅
      (finalizerRoundsList departedSignerCertificate.tcFinalizerQCRoundsFirstEpoch) =
        some ([(⟨0, 5, 3, 0⟩, [0, 0])], {1, 2}) := by
    simp [finalizerRoundsList, departedSignerCertificate, collectMsgKeysIds, finalizerSet,
      addFinalizer, emptyFinalizerSet, finalizerList, finalizerList.unroll, Word.add, finalizerByIndex,
      departingCommittee]
  have second : collectMsgKeysIds 0 5 emptyCommittee 1 [] ∅
      (finalizerRoundsList departedSignerCertificate.tcFinalizerQCRoundsSecondEpoch) =
        some ([], ∅) := rfl
  have stalls : computeWeight remainingCommittee (({1, 2} ∪ ∅ : Finset Nat).sort (· ≤ ·)) = 0 :=
    computeWeight_of_least_missing (show 1 ∈ ({1, 2} ∪ ∅ : Finset Nat) by decide) (by decide)
      (by decide)
  refine ⟨by decide, by decide, ?_⟩
  rw [checkTimeoutCertificate_eq_of_collect first second, stalls]
  simp only [remainingCommittee, Bool.true_and, decide_eq_false_iff_not, not_le, Nat.cast_zero,
    Nat.cast_one, mul_one]
  exact div_pos two_pos three_pos

end Concordium.KonsensusV1.Types
