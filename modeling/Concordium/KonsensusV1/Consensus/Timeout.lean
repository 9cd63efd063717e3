import Concordium.KonsensusV1.Types.TimeoutCertificate
import Concordium.Library.AscMap
import Concordium.Library.ListUnion
import Concordium.Library.Word
import Mathlib

/-!
Contract: how a node stores the timeout messages of its current round and decides to form a
timeout certificate: `updateTimeoutMessages`, `processTimeout` and `makeTimeoutCertificate` of
`Concordium.KonsensusV1.Consensus.Timeout`, over `TimeoutMessages` of
`Concordium.KonsensusV1.TreeState.Types`.

Owns:
- `TimeoutMessages` and its documented invariants, `TimeoutMessages.Invariant`;
- `Stored`, the outcomes of `updateTimeoutMessages` that store the message, one per branch of
  the source, from which follow that an update keeps the invariants and holds the message in the
  map of its epoch (`updateTimeoutMessages_keeps_invariants`), and so every run of stored
  messages keeps them (`storeTimeouts_invariant`);
- `bakerIdsFor`, `timeoutBakerIds` (the `union` of the two epochs' signers) and `voterPowerSum`,
  the decision of `processTimeout`, and the certificate `makeTimeoutCertificate` builds;
- `voterPowerSum_of_ascending`: the voter power, a `Word64`, is the signers' weight when the
  joined baker ids ascend and every signer sits in the QC's committee.

Does not own: what follows the decision (`advanceRoundWithTimeout`, `makeBlock`), the checks a
message passed before it gets here, or any state beyond the stored messages, the highest
certified block, the current round, the epoch bakers and the signature threshold.

## Why a signer can go uncounted

`voterPowerSum` walks one list of baker ids along the QC's committee the way `computeWeight`
does (`MatchWalk.matchWalk`), so it needs that list ascending. The list is the `union` of the
two epochs' signers, each ascending; but `union` puts the second epoch's new ids after all of
the first epoch's, and a second-epoch id below a first-epoch one is passed over before the walk
reaches it.
-/

set_option autoImplicit false

namespace Concordium.KonsensusV1.Consensus.Timeout

open Concordium.KonsensusV1.Types
open Concordium.KonsensusV1.Consensus.RoundSigning (TimeoutMessage TimeoutMessageBody)
open MatchWalk

variable {σ : Type}

/-- Timeout messages for the current round, for one epoch or two consecutive ones, each map
keyed by finalizer index. -/
structure TimeoutMessages (σ : Type) where
  tmFirstEpoch : Nat
  tmFirstEpochTimeouts : AscMap Nat (TimeoutMessage σ)
  tmSecondEpochTimeouts : AscMap Nat (TimeoutMessage σ)

/-- The epoch a timeout message "has" in the invariants: the epoch of its QC, not `tmEpoch`. -/
def messageEpoch (tm : TimeoutMessage σ) : Nat :=
  tm.tmBody.tmQuorumCertificate.qcEpoch

/-- Every message of the map has the given epoch and the finalizer index it is stored under. -/
def StoredUnder (epoch : Nat) (timeouts : AscMap Nat (TimeoutMessage σ)) : Prop :=
  ∀ entry ∈ timeouts.toAscList,
    messageEpoch entry.2 = epoch ∧ entry.2.tmBody.tmFinalizerIndex = entry.1

instance storedUnderDecidable (epoch : Nat) (timeouts : AscMap Nat (TimeoutMessage σ)) :
    Decidable (StoredUnder epoch timeouts) :=
  inferInstanceAs (Decidable (∀ entry ∈ timeouts.toAscList,
    messageEpoch entry.2 = epoch ∧ entry.2.tmBody.tmFinalizerIndex = entry.1))

/-- The invariants documented on `TimeoutMessages`, with the range of its `Word64` first
epoch; the second map's epoch is the first's successor as a word. -/
structure TimeoutMessages.Invariant (tms : TimeoutMessages σ) : Prop where
  firstWord : tms.tmFirstEpoch < 2 ^ 64
  firstNonEmpty : tms.tmFirstEpochTimeouts.null = false
  firstStored : StoredUnder tms.tmFirstEpoch tms.tmFirstEpochTimeouts
  secondStored : StoredUnder (Word.add 64 tms.tmFirstEpoch 1) tms.tmSecondEpochTimeouts

/-- `updateTimeoutMessages tms tm`: `none` when the message is from an epoch too early to keep.
Epochs are `Word64`, so the successors of the guards wrap at `2 ^ 64`. -/
def updateTimeoutMessages (tms : Option (TimeoutMessages σ)) (tm : TimeoutMessage σ) :
    Option (TimeoutMessages σ) :=
  let epoch := messageEpoch tm
  let finIndex := tm.tmBody.tmFinalizerIndex
  let singletonTimeout := AscMap.singleton finIndex tm
  let insertTimeout := fun (timeouts : AscMap Nat (TimeoutMessage σ)) => timeouts.insert finIndex tm
  match tms with
  | none => some ⟨epoch, singletonTimeout, AscMap.empty⟩
  | some ⟨tmFirstEpoch, tmFirstEpochTimeouts, tmSecondEpochTimeouts⟩ =>
      if epoch = tmFirstEpoch then
        some ⟨tmFirstEpoch, insertTimeout tmFirstEpochTimeouts, tmSecondEpochTimeouts⟩
      else if epoch = Word.add 64 tmFirstEpoch 1 then
        some ⟨tmFirstEpoch, tmFirstEpochTimeouts, insertTimeout tmSecondEpochTimeouts⟩
      else if Word.add 64 epoch 1 = tmFirstEpoch ∧ tmSecondEpochTimeouts.null = true then
        some ⟨epoch, singletonTimeout, tmFirstEpochTimeouts⟩
      else if epoch = Word.add 64 tmFirstEpoch 2 ∧ tmSecondEpochTimeouts.null = false then
        some ⟨Word.add 64 tmFirstEpoch 1, tmSecondEpochTimeouts, singletonTimeout⟩
      else if epoch ≥ Word.add 64 tmFirstEpoch 2 then
        some ⟨epoch, singletonTimeout, AscMap.empty⟩
      else none

/-! ## The invariants over every run -/

theorem storedUnder_empty (epoch : Nat) : StoredUnder epoch (AscMap.empty : AscMap Nat (TimeoutMessage σ)) :=
  fun _ listed => absurd listed List.not_mem_nil

theorem storedUnder_singleton (tm : TimeoutMessage σ) :
    StoredUnder (messageEpoch tm) (AscMap.singleton tm.tmBody.tmFinalizerIndex tm) := by
  intro entry listed
  rw [AscMap.singleton, List.mem_singleton] at listed
  subst listed
  exact ⟨rfl, rfl⟩

theorem storedUnder_insert {epoch : Nat} {timeouts : AscMap Nat (TimeoutMessage σ)}
    (stored : StoredUnder epoch timeouts) {tm : TimeoutMessage σ} (sameEpoch : messageEpoch tm = epoch) :
    StoredUnder epoch (timeouts.insert tm.tmBody.tmFinalizerIndex tm) := by
  intro entry listed
  rcases AscMap.mem_insert listed with inserted | kept
  · subst inserted
    exact ⟨sameEpoch, rfl⟩
  · exact stored entry kept

/-- The outcomes of `updateTimeoutMessages` that store the message, one per branch of the source
that returns `Just`: the message either joins the map of its epoch or opens a window of epochs
with it. -/
inductive Stored (tm : TimeoutMessage σ) : Option (TimeoutMessages σ) → TimeoutMessages σ → Prop
  | absent : Stored tm none
      ⟨messageEpoch tm, AscMap.singleton tm.tmBody.tmFinalizerIndex tm, AscMap.empty⟩
  | firstEpoch {tmFirstEpoch : Nat} {first second : AscMap Nat (TimeoutMessage σ)} :
      messageEpoch tm = tmFirstEpoch →
      Stored tm (some ⟨tmFirstEpoch, first, second⟩)
        ⟨tmFirstEpoch, first.insert tm.tmBody.tmFinalizerIndex tm, second⟩
  | secondEpoch {tmFirstEpoch : Nat} {first second : AscMap Nat (TimeoutMessage σ)} :
      messageEpoch tm = Word.add 64 tmFirstEpoch 1 →
      Stored tm (some ⟨tmFirstEpoch, first, second⟩)
        ⟨tmFirstEpoch, first, second.insert tm.tmBody.tmFinalizerIndex tm⟩
  | previousEpoch {tmFirstEpoch : Nat} {first second : AscMap Nat (TimeoutMessage σ)} :
      Word.add 64 (messageEpoch tm) 1 = tmFirstEpoch → second.null = true →
      Stored tm (some ⟨tmFirstEpoch, first, second⟩)
        ⟨messageEpoch tm, AscMap.singleton tm.tmBody.tmFinalizerIndex tm, first⟩
  | afterSecond {tmFirstEpoch : Nat} {first second : AscMap Nat (TimeoutMessage σ)} :
      messageEpoch tm = Word.add 64 tmFirstEpoch 2 → second.null = false →
      Stored tm (some ⟨tmFirstEpoch, first, second⟩)
        ⟨Word.add 64 tmFirstEpoch 1, second, AscMap.singleton tm.tmBody.tmFinalizerIndex tm⟩
  | later {tmFirstEpoch : Nat} {first second : AscMap Nat (TimeoutMessage σ)} :
      messageEpoch tm ≥ Word.add 64 tmFirstEpoch 2 →
      Stored tm (some ⟨tmFirstEpoch, first, second⟩)
        ⟨messageEpoch tm, AscMap.singleton tm.tmBody.tmFinalizerIndex tm, AscMap.empty⟩

/-- Every update that returns messages is one of the outcomes of `Stored`. -/
theorem stored_of_update {tms : Option (TimeoutMessages σ)} {tm : TimeoutMessage σ}
    {updated : TimeoutMessages σ} (update : updateTimeoutMessages tms tm = some updated) :
    Stored tm tms updated := by
  cases tms with
  | none =>
      cases update
      exact .absent
  | some current =>
      obtain ⟨tmFirstEpoch, first, second⟩ := current
      simp only [updateTimeoutMessages] at update
      split_ifs at update with sameEpoch nextEpoch previousEpoch skipEpoch laterEpoch <;>
        cases update
      · exact .firstEpoch sameEpoch
      · exact .secondEpoch nextEpoch
      · exact .previousEpoch previousEpoch.1 previousEpoch.2
      · exact .afterSecond skipEpoch.1 skipEpoch.2
      · exact .later laterEpoch

/-- Past a first epoch that is a word, a word epoch that is neither the first, nor its successor,
nor at least the one after is before the first: at the top of the range the successors wrap to
`0` and `1`, and then no epoch is left below them that the earlier guards let through. -/
theorem before_first_of_dropped {epoch first : Nat} (epochWord : epoch < 2 ^ 64)
    (firstWord : first < 2 ^ 64) (notFirst : epoch ≠ first)
    (notSecond : epoch ≠ Word.add 64 first 1) (notLater : ¬ epoch ≥ Word.add 64 first 2) :
    epoch < first := by
  unfold Word.add at notSecond notLater
  omega

/-- An update that returns nothing had stored messages, and a message of an epoch before the
first that could not open a window there. -/
theorem updateTimeoutMessages_eq_none {tms : Option (TimeoutMessages σ)} {tm : TimeoutMessage σ}
    (valid : ∀ current ∈ tms, current.Invariant) (epochWord : messageEpoch tm < 2 ^ 64)
    (dropped : updateTimeoutMessages tms tm = none) :
    ∃ current, tms = some current ∧ messageEpoch tm < current.tmFirstEpoch ∧
      ¬ (Word.add 64 (messageEpoch tm) 1 = current.tmFirstEpoch ∧
        current.tmSecondEpochTimeouts.null = true) := by
  cases tms with
  | none => cases dropped
  | some current =>
      obtain ⟨tmFirstEpoch, first, second⟩ := current
      have firstWord : tmFirstEpoch < 2 ^ 64 := (valid _ rfl).firstWord
      simp only [updateTimeoutMessages] at dropped
      -- every branch but the last returns messages
      split_ifs at dropped with sameEpoch nextEpoch previousEpoch skipEpoch laterEpoch
      exact ⟨⟨tmFirstEpoch, first, second⟩, rfl,
        before_first_of_dropped epochWord firstWord sameEpoch nextEpoch laterEpoch, previousEpoch⟩

/-- Each outcome keeps the documented invariants: the new message is stored under its own epoch
and index, and a map that moves keeps the epoch it was stored for. -/
theorem Stored.invariant {tms : Option (TimeoutMessages σ)} {tm : TimeoutMessage σ}
    {updated : TimeoutMessages σ} (stored : Stored tm tms updated)
    (valid : ∀ current ∈ tms, current.Invariant) (epochWord : messageEpoch tm < 2 ^ 64) :
    updated.Invariant := by
  have singletonNonEmpty : (AscMap.singleton tm.tmBody.tmFinalizerIndex tm).null = false := rfl
  cases stored with
  | absent => exact ⟨epochWord, singletonNonEmpty, storedUnder_singleton tm, storedUnder_empty _⟩
  | firstEpoch sameEpoch =>
      obtain ⟨firstWord, _, firstStored, secondStored⟩ := valid _ rfl
      exact ⟨firstWord, AscMap.null_insert _ _ _, storedUnder_insert firstStored sameEpoch,
        secondStored⟩
  | secondEpoch nextEpoch =>
      obtain ⟨firstWord, firstNonEmpty, firstStored, secondStored⟩ := valid _ rfl
      exact ⟨firstWord, firstNonEmpty, firstStored, storedUnder_insert secondStored nextEpoch⟩
  | previousEpoch previousEpoch _ =>
      -- the first map becomes the second, one epoch after the message's
      obtain ⟨_, _, firstStored, _⟩ := valid _ rfl
      refine ⟨epochWord, singletonNonEmpty, storedUnder_singleton tm, ?_⟩
      rw [previousEpoch]
      exact firstStored
  | afterSecond skipEpoch secondNonEmpty =>
      -- the second map becomes the first, and the message opens the epoch after it
      obtain ⟨_, _, _, secondStored⟩ := valid _ rfl
      refine ⟨Word.add_lt _ _, secondNonEmpty, secondStored, ?_⟩
      rw [Word.add_add, ← skipEpoch]
      exact storedUnder_singleton tm
  | later _ =>
      exact ⟨epochWord, singletonNonEmpty, storedUnder_singleton tm, storedUnder_empty _⟩

/-- Each outcome holds the message under its finalizer index, in the map of its epoch. -/
theorem Stored.holds {tms : Option (TimeoutMessages σ)} {tm : TimeoutMessage σ}
    {updated : TimeoutMessages σ} (stored : Stored tm tms updated) :
    messageEpoch tm = updated.tmFirstEpoch ∧
        updated.tmFirstEpochTimeouts.lookup tm.tmBody.tmFinalizerIndex = some tm ∨
      messageEpoch tm = Word.add 64 updated.tmFirstEpoch 1 ∧
        updated.tmSecondEpochTimeouts.lookup tm.tmBody.tmFinalizerIndex = some tm := by
  cases stored with
  | absent => exact .inl ⟨rfl, by simp [AscMap.lookup_singleton]⟩
  | firstEpoch sameEpoch => exact .inl ⟨sameEpoch, by simp [AscMap.lookup_insert]⟩
  | secondEpoch nextEpoch => exact .inr ⟨nextEpoch, by simp [AscMap.lookup_insert]⟩
  | previousEpoch _ _ => exact .inl ⟨rfl, by simp [AscMap.lookup_singleton]⟩
  | afterSecond skipEpoch _ =>
      exact .inr ⟨by rw [Word.add_add]; exact skipEpoch, by simp [AscMap.lookup_singleton]⟩
  | later _ => exact .inl ⟨rfl, by simp [AscMap.lookup_singleton]⟩

theorem updateTimeoutMessages_invariant {tms : Option (TimeoutMessages σ)} {tm : TimeoutMessage σ}
    {updated : TimeoutMessages σ} (valid : ∀ current ∈ tms, current.Invariant)
    (epochWord : messageEpoch tm < 2 ^ 64) (update : updateTimeoutMessages tms tm = some updated) :
    updated.Invariant :=
  (stored_of_update update).invariant valid epochWord

/-- From no messages or from messages satisfying the documented invariants, an update with a
message of a `Word64` epoch that returns messages keeps the invariants and holds the new message
under its finalizer index, in the map of its epoch; it returns nothing only for a message of an
epoch before the first, other than the epoch just before it when the second map is empty. -/
theorem updateTimeoutMessages_keeps_invariants (tms : Option (TimeoutMessages σ))
    (tm : TimeoutMessage σ) (valid : ∀ current ∈ tms, current.Invariant)
    (epochWord : messageEpoch tm < 2 ^ 64) :
    (∀ updated, updateTimeoutMessages tms tm = some updated →
      updated.Invariant ∧
        (messageEpoch tm = updated.tmFirstEpoch ∧
            updated.tmFirstEpochTimeouts.lookup tm.tmBody.tmFinalizerIndex = some tm ∨
          messageEpoch tm = Word.add 64 updated.tmFirstEpoch 1 ∧
            updated.tmSecondEpochTimeouts.lookup tm.tmBody.tmFinalizerIndex = some tm)) ∧
    (updateTimeoutMessages tms tm = none →
      ∃ current, tms = some current ∧ messageEpoch tm < current.tmFirstEpoch ∧
        ¬ (Word.add 64 (messageEpoch tm) 1 = current.tmFirstEpoch ∧
          current.tmSecondEpochTimeouts.null = true)) := by
  refine ⟨fun updated update => ?_, updateTimeoutMessages_eq_none valid epochWord⟩
  have stored := stored_of_update update
  exact ⟨stored.invariant valid epochWord, stored.holds⟩

/-- The messages stored after processing one more message: unchanged where
`updateTimeoutMessages` reports no change. -/
def storeTimeout (tms : Option (TimeoutMessages σ)) (tm : TimeoutMessage σ) :
    Option (TimeoutMessages σ) :=
  match updateTimeoutMessages tms tm with
  | some updated => some updated
  | none => tms

/-- The documented invariants hold of the stored messages after any sequence of timeout messages
of `Word64` epochs, from no messages or from any stored messages that satisfy them. -/
theorem storeTimeouts_invariant :
    ∀ (messages : List (TimeoutMessage σ)) (tms : Option (TimeoutMessages σ)),
      (∀ tm ∈ messages, messageEpoch tm < 2 ^ 64) → (∀ current ∈ tms, current.Invariant) →
      ∀ stored ∈ messages.foldl storeTimeout tms, stored.Invariant
  | [], _, _, valid => valid
  | tm :: rest, tms, epochWords, valid => by
      rw [List.foldl_cons]
      apply storeTimeouts_invariant rest _ fun later listed => epochWords later (.tail _ listed)
      intro current listed
      rw [storeTimeout] at listed
      split at listed
      · next updated update =>
          cases listed
          exact updateTimeoutMessages_invariant valid (epochWords tm (.head _)) update
      · exact valid current listed

/-! ## The decision to form a certificate -/

/-- `bakerIdsFor finComm timeouts`: the baker ids of the finalizers whose index is a key of the
map and resolves in the committee, in ascending order of index. -/
def bakerIdsFor (finComm : FinalizationCommittee) (timeouts : AscMap Nat (TimeoutMessage σ)) :
    List Nat :=
  timeouts.keys.filterMap fun finIndex =>
    (finalizerByIndex finComm finIndex).map FinalizerInfo.finalizerBakerId

/-- ``firstBakerIds `union` secondBakerIds`` of `processTimeout`: the signers of the second epoch
count only when it has messages. -/
def timeoutBakerIds (getFinalizersForEpoch : Nat → Option FinalizationCommittee)
    (tms : TimeoutMessages σ) : List Nat :=
  let firstBakerIds :=
    match getFinalizersForEpoch tms.tmFirstEpoch with
    | some firstFinComm => bakerIdsFor firstFinComm tms.tmFirstEpochTimeouts
    | none => []
  let secondBakerIds :=
    match !tms.tmSecondEpochTimeouts.null, getFinalizersForEpoch (Word.add 64 tms.tmFirstEpoch 1) with
    | true, some secondFinComm => bakerIdsFor secondFinComm tms.tmSecondEpochTimeouts
    | _, _ => []
  ListUnion.union firstBakerIds secondBakerIds

/-- One step of the fold of `voterPowerSum`: add the weight of a finalizer whose baker id is the
next bid and move on in the bids, pass over any other finalizer, and stop once the bids are
used up. -/
def voterPowerStep : Nat × List Nat → FinalizerInfo → Nat × List Nat
  | (accum, []), _ => (accum, [])
  | (accum, bid :: rest), finalizer =>
      if bid = finalizer.finalizerBakerId then (Word.add 64 accum finalizer.finalizerWeight, rest)
      else (accum, bid :: rest)

/-- `voterPowerSum` of `processTimeout`, over the committee of the highest certified block's
epoch, added as `VoterPower`, a `Word64`. -/
def voterPowerSum (finCommQC : FinalizationCommittee) (bids : List Nat) : Nat :=
  (finCommQC.committeeFinalizers.foldl voterPowerStep (0, bids)).1

/-- The round of each finalizer's QC, as `makeTimeoutCertificate`'s `foldHelper` records it:
`at' roundOfQC . non emptyFinalizerSet %~ flip addFinalizer finIndex`. The `non` would drop an
entry that became empty, which adding a finalizer never makes, so this is an insertion. -/
def foldHelper (finRounds : AscMap Nat FinalizerSet) (finIndex : Nat) (tm : TimeoutMessage σ) :
    AscMap Nat FinalizerSet :=
  let roundOfQC := tm.tmBody.tmQuorumCertificate.qcRound
  finRounds.insert roundOfQC
    (addFinalizer (finRounds.findWithDefault emptyFinalizerSet roundOfQC) finIndex)

def toFinalizerRounds (timeouts : AscMap Nat (TimeoutMessage σ)) : FinalizerRounds :=
  let finRounds := timeouts.foldlWithKey foldHelper AscMap.empty
  ⟨finRounds.toAscList, finRounds.ascending⟩

def toAggSigs (timeouts : AscMap Nat (TimeoutMessage σ)) : List σ :=
  timeouts.elems.map fun tm => tm.tmBody.tmAggregateSignature

/-- `makeTimeoutCertificate currentRound tms`; `fold` of the signatures is `List.prod`, a right
fold from the unit, in the signature monoid. -/
def makeTimeoutCertificate [Monoid σ] (currentRound : Nat) (tms : TimeoutMessages σ) :
    TimeoutCertificate σ where
  tcRound := currentRound
  tcMinEpoch := tms.tmFirstEpoch
  tcFinalizerQCRoundsFirstEpoch := toFinalizerRounds tms.tmFirstEpochTimeouts
  tcFinalizerQCRoundsSecondEpoch := toFinalizerRounds tms.tmSecondEpochTimeouts
  tcAggregateSignature :=
    (toAggSigs tms.tmFirstEpochTimeouts ++ toAggSigs tms.tmSecondEpochTimeouts).prod

/-- `processTimeout tm` on the stored messages: `none` when `updateTimeoutMessages` reports no
change; otherwise the messages to store and the certificate formed, if the signers' voter power
reaches the threshold (the node then advances its round with it). -/
def processTimeout [Monoid σ] (bakers : EpochBakers) (lastFinalizedEpoch : Nat)
    (genesisSigThreshold : ℚ) (currentRound : Nat) (highestCB : QuorumCertificate σ)
    (timeoutMessages : Option (TimeoutMessages σ)) (tm : TimeoutMessage σ) :
    Option (TimeoutMessages σ × Option (TimeoutCertificate σ)) :=
  let getFinalizersForEpoch := getBakersForEpoch bakers lastFinalizedEpoch
  (updateTimeoutMessages timeoutMessages tm).map fun newTimeoutMessages =>
    (newTimeoutMessages,
      (getFinalizersForEpoch highestCB.qcEpoch).bind fun finCommQC =>
        let power := voterPowerSum finCommQC (timeoutBakerIds getFinalizersForEpoch newTimeoutMessages)
        if (power : ℚ) / finCommQC.committeeTotalWeight ≥ genesisSigThreshold then
          some (makeTimeoutCertificate currentRound newTimeoutMessages)
        else none)

/-! ## The voter power -/

/-- The step of `voterPowerSum` is `matchWalk` with the pair the other way round. -/
theorem voterPowerStep_eq_matchWalk (accum : Nat) (bids : List Nat) (finalizer : FinalizerInfo) :
    voterPowerStep (accum, bids) finalizer =
      (matchWalk 64 FinalizerInfo.finalizerBakerId FinalizerInfo.finalizerWeight (bids, accum)
        finalizer).swap := by
  cases bids with
  | nil => rfl
  | cons bid rest =>
      rw [voterPowerStep, matchWalk]
      split_ifs <;> rfl

theorem foldl_voterPowerStep (finalizers : List FinalizerInfo) :
    ∀ (accum : Nat) (bids : List Nat),
      finalizers.foldl voterPowerStep (accum, bids) =
        (finalizers.foldl (matchWalk 64 FinalizerInfo.finalizerBakerId FinalizerInfo.finalizerWeight)
          (bids, accum)).swap := by
  induction finalizers with
  | nil => intro accum bids; rfl
  | cons finalizer rest inductionHypothesis =>
      intro accum bids
      rw [List.foldl_cons, List.foldl_cons, voterPowerStep_eq_matchWalk]
      exact inductionHypothesis _ _

/-- When the baker ids ascend, and so does the QC's committee, and every signer sits in it, the
voter power is the signers' weight as a `Word64`. -/
theorem voterPowerSum_of_ascending {finCommQC : FinalizationCommittee} {bids : List Nat}
    (ascending : (committeeBakerIds finCommQC).Pairwise (· < ·))
    (bidsAscending : bids.Pairwise (· < ·))
    (covered : ∀ bid ∈ bids, bid ∈ committeeBakerIds finCommQC) :
    voterPowerSum finCommQC bids = signerWeight finCommQC bids.toFinset % 2 ^ 64 := by
  have sameSigners : (finCommQC.committeeFinalizers.filter fun info =>
        info.finalizerBakerId ∈ bids) =
      finCommQC.committeeFinalizers.filter fun info => info.finalizerBakerId ∈ bids.toFinset :=
    List.filter_congr fun info _ => by simp only [List.mem_toFinset]
  rw [voterPowerSum, foldl_voterPowerStep,
    foldl_matchWalk_of_covered_zero _ _ _ ascending bidsAscending covered,
    Prod.swap_prod_mk, wantedWeight, sameSigners, signerWeight]

/-! ## Two epochs whose signers interleave -/

/-- Four finalizers of weight `1`, bakers `1` to `4` at indices `0` to `3`, in every epoch. -/
def fourFinalizers : FinalizationCommittee :=
  ⟨[⟨0, 1, 0, 1⟩, ⟨1, 1, 0, 2⟩, ⟨2, 1, 0, 3⟩, ⟨3, 1, 0, 4⟩], 4⟩

theorem voterPowerSum_of_ascending_on_three_signers :
    voterPowerSum fourFinalizers [1, 2, 4] = signerWeight fourFinalizers {1, 2, 4} % 2 ^ 64 ∧
      signerWeight fourFinalizers {1, 2, 4} = 3 :=
  ⟨voterPowerSum_of_ascending (by decide) (by decide) (by decide), by decide⟩

def fourFinalizerBakers : EpochBakers :=
  ⟨fourFinalizers, fourFinalizers, fourFinalizers, 5⟩

/-- The QC of round `9` in epoch `1`, the highest certified block. -/
def epochOneQC : QuorumCertificate Nat :=
  ⟨0, 9, 1, 1, emptyFinalizerSet⟩

/-- The round-`10` timeout message of finalizer `finIndex`, whose QC is of epoch `epoch`. -/
def roundTenTimeout (finIndex epoch : Nat) : TimeoutMessage Nat :=
  ⟨⟨finIndex, 10, 1, ⟨0, 9 - epoch, epoch, 1, emptyFinalizerSet⟩, 1⟩, 0⟩

/-- Finalizers `0` and `3` have timed out with a QC of epoch `0`, finalizer `1` with one of
epoch `1`. -/
def threeTimeouts : TimeoutMessages Nat :=
  ⟨0, ⟨[(0, roundTenTimeout 0 0), (3, roundTenTimeout 3 0)], by decide⟩,
    ⟨[(1, roundTenTimeout 1 1)], by decide⟩⟩

/-- `threeTimeouts` once finalizer `2` has timed out with a QC of epoch `1`. -/
def fourTimeouts : TimeoutMessages Nat :=
  ⟨0, ⟨[(0, roundTenTimeout 0 0), (3, roundTenTimeout 3 0)], by decide⟩,
    ⟨[(1, roundTenTimeout 1 1), (2, roundTenTimeout 2 1)], by decide⟩⟩

theorem processTimeout_misses_interleaved_signers :
    threeTimeouts.Invariant ∧ fourTimeouts.Invariant ∧
      timeoutBakerIds (getBakersForEpoch fourFinalizerBakers 0) fourTimeouts = [1, 4, 2, 3] ∧
      voterPowerSum fourFinalizers [1, 4, 2, 3] = 2 ∧
      signerWeight fourFinalizers {1, 2, 3, 4} = fourFinalizers.committeeTotalWeight ∧
      processTimeout fourFinalizerBakers 0 (2 / 3) 10 epochOneQC (some threeTimeouts)
        (roundTenTimeout 2 1) = some (fourTimeouts, none) := by
  have before : threeTimeouts.Invariant := ⟨by decide, rfl, by decide, by decide⟩
  have after : fourTimeouts.Invariant := ⟨by decide, rfl, by decide, by decide⟩
  have bakerIds : timeoutBakerIds (getBakersForEpoch fourFinalizerBakers 0) fourTimeouts =
      [1, 4, 2, 3] := by decide
  have power : voterPowerSum fourFinalizers [1, 4, 2, 3] = 2 := by decide
  refine ⟨before, after, bakerIds, power, by decide, ?_⟩
  have updated : updateTimeoutMessages (some threeTimeouts) (roundTenTimeout 2 1) =
      some fourTimeouts := rfl
  have committee : getBakersForEpoch fourFinalizerBakers 0 epochOneQC.qcEpoch =
      some fourFinalizers := rfl
  simp only [processTimeout, updated, Option.map_some, committee, Option.bind_some, bakerIds,
    power]
  norm_num [fourFinalizers]

/-- Finalizer `0`'s message of the last epoch but one, `2 ^ 64 - 2`, stored alone. -/
def topEpochTimeouts : TimeoutMessages Nat :=
  ⟨2 ^ 64 - 2, ⟨[(0, roundTenTimeout 0 (2 ^ 64 - 2))], by decide⟩, AscMap.empty⟩

/-- The window opened by finalizer `1`'s message of epoch `5`. -/
def epochFiveTimeouts : TimeoutMessages Nat :=
  ⟨5, AscMap.singleton 1 (roundTenTimeout 1 5), AscMap.empty⟩

/-- At the top of the epochs the guards wrap: with `topEpochTimeouts` stored, epoch `5` is at
least `Word.add 64 (2 ^ 64 - 2) 2 = 0`, so the message opens a new window. -/
theorem updateTimeoutMessages_keeps_invariants_past_top_epoch :
    topEpochTimeouts.Invariant ∧ messageEpoch (roundTenTimeout 1 5) < 2 ^ 64 ∧
      updateTimeoutMessages (some topEpochTimeouts) (roundTenTimeout 1 5) =
        some epochFiveTimeouts ∧ epochFiveTimeouts.Invariant := by
  have valid : topEpochTimeouts.Invariant := ⟨by decide, rfl, by decide, by decide⟩
  have epochWord : messageEpoch (roundTenTimeout 1 5) < 2 ^ 64 := by decide
  have reset : updateTimeoutMessages (some topEpochTimeouts) (roundTenTimeout 1 5) =
      some epochFiveTimeouts := rfl
  refine ⟨valid, epochWord, reset, ?_⟩
  exact ((updateTimeoutMessages_keeps_invariants (some topEpochTimeouts) (roundTenTimeout 1 5)
    (fun current listed => Option.mem_some_iff.mp listed ▸ valid) epochWord).1 _ reset).1

end Concordium.KonsensusV1.Consensus.Timeout
