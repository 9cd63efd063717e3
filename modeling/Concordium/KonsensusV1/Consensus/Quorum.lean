import Concordium.KonsensusV1.Types
import Mathlib.Tactic.NormNum

/-!
Contract: receiving and aggregating quorum messages within one round
(`Concordium.KonsensusV1.Consensus.Quorum`).

Owns:
- `receiveQuorumMessage` with every guard and result of the source, the signature check
  being a parameter (BLS verification is outside the repository);
- `addQuorumMessage`, `makeQuorumCertificate` and the part of `processQuorumMessage` that
  runs before a certificate leaves the round;
- `receiveFinalizationMessage` for quorum messages and its run over a delivery sequence;
- the aggregation invariant: every entry of `smBlockToWeightsAndSignatures` is the
  aggregate of the verified messages that were processed for that block, in order;
- soundness of the certificates a run forms (`deliverQuorumMessages_certificate_sound`): each
  is for a live block of the current round, and its signatories and signature aggregate the
  processed messages for the block, whose summed weights reached the threshold.

Does not own: flagging of misbehaviour (an output with no effect on the state), what
follows a new certificate (`processCertifiedBlock`, `advanceRoundWithQuorum`,
`makeBlock`), and relaying.

The weights are `VoterPower`, a `Word64`, and the model adds them exactly. That is the source's
sum while the weights of one block's signers add up below `2 ^ 64`, as they do whenever the
committee's total weight is a word.
-/

set_option autoImplicit false

namespace Concordium.KonsensusV1.Consensus.Quorum

open Concordium.KonsensusV1.Types

variable {σ : Type}

/-- Reasons that a `QuorumMessage` can be rejected. -/
inductive ReceiveQuorumMessageRejectReason where
  | obsoleteRound
  | notAFinalizer
  | invalidSignature
  | alreadySigned
  | invalidBlock
  | inconsistentRounds
  | inconsistentEpochs
  | duplicate
deriving DecidableEq, Repr

/-- A received and verified quorum message with the weight and baker id of its finalizer,
taken from the committee of the message's epoch. -/
structure VerifiedQuorumMessage (σ : Type) where
  vqmMessage : QuorumMessage σ
  vqmFinalizerWeight : Nat
  vqmFinalizerBakerId : Nat
  vqmBlock : BlockPointer
deriving DecidableEq, Repr

inductive ReceiveQuorumMessageResult (σ : Type) where
  | received (message : VerifiedQuorumMessage σ)
  | receivedNoRelay (message : VerifiedQuorumMessage σ)
  | rejected (reason : ReceiveQuorumMessageRejectReason)
  | catchupRequired
  | consensusShutdown
deriving DecidableEq, Repr

/-- The verified message that `receiveFinalizationMessage` passes to `processQuorumMessage`:
both `Received` and `ReceivedNoRelay` are processed. -/
def ReceiveQuorumMessageResult.toProcess : ReceiveQuorumMessageResult σ →
    Option (VerifiedQuorumMessage σ)
  | .received message => some message
  | .receivedNoRelay message => some message
  | _ => none

/-- Quorum messages collected for a round. The two `Map`s are functions. -/
structure QuorumMessages (σ : Type) where
  smBakerIdToQuorumMessage : Nat → Option (QuorumMessage σ)
  smBlockToWeightsAndSignatures : Nat → Option (Nat × σ × FinalizerSet)

def emptyQuorumMessages : QuorumMessages σ :=
  ⟨fun _ => none, fun _ => none⟩

/-- The part of `SkovData` that receiving and processing a quorum message reads. -/
structure SkovData (σ : Type) where
  isConsensusShutdown : Bool
  currentRound : Nat
  currentEpoch : Nat
  lastFinalizedEpoch : Nat
  epochBakers : EpochBakers
  genesisHash : Nat
  signatureThreshold : ℚ
  blockStatus : Nat → BlockStatus
  currentQuorumMessages : QuorumMessages σ

/-! ## Receiving -/

section Receive

/-- The finalizer of a message, looked up in the committee of the message's epoch. -/
def getFinalizer (message : QuorumMessage σ) (skovData : SkovData σ) : Option FinalizerInfo := do
  let bakers ← getBakersForEpoch skovData.epochBakers skovData.lastFinalizedEpoch message.qmEpoch
  finalizerByIndex bakers message.qmFinalizerIndex

/-- The checks on the block a message points to, once the finalizer and signature passed.
`existing` is the latest message stored for the finalizer's baker id. -/
def checkTargetBlock (message : QuorumMessage σ) (info : FinalizerInfo)
    (existing : Option (QuorumMessage σ)) : BlockStatus → ReceiveQuorumMessageResult σ
  | .blockFinalized _ => .rejected .inconsistentRounds
  | .blockDead => .rejected .invalidBlock
  | .blockUnknown => .catchupRequired
  | .blockAlive targetBlock =>
      if targetBlock.blockRound ≠ message.qmRound then .rejected .inconsistentRounds
      else if targetBlock.blockEpoch ≠ message.qmEpoch then .rejected .inconsistentEpochs
      else
        let verified : VerifiedQuorumMessage σ :=
          { vqmMessage := message
            vqmFinalizerWeight := info.finalizerWeight
            vqmFinalizerBakerId := info.finalizerBakerId
            vqmBlock := targetBlock }
        match existing with
        | some _ => .receivedNoRelay verified
        | none => .received verified

/-- What `checkTargetBlock` hands on for processing is the message with its finalizer's
data and a live target block of the message's round and epoch. -/
theorem checkTargetBlock_toProcess {message : QuorumMessage σ} {info : FinalizerInfo}
    {existing : Option (QuorumMessage σ)} {status : BlockStatus}
    {verified : VerifiedQuorumMessage σ}
    (processed : (checkTargetBlock message info existing status).toProcess = some verified) :
    verified.vqmMessage = message ∧ verified.vqmFinalizerWeight = info.finalizerWeight ∧
      verified.vqmFinalizerBakerId = info.finalizerBakerId ∧
      status = .blockAlive verified.vqmBlock ∧
      verified.vqmBlock.blockRound = message.qmRound ∧
      verified.vqmBlock.blockEpoch = message.qmEpoch := by
  cases status with
  | blockFinalized _ => simp [checkTargetBlock, ReceiveQuorumMessageResult.toProcess] at processed
  | blockDead => simp [checkTargetBlock, ReceiveQuorumMessageResult.toProcess] at processed
  | blockUnknown => simp [checkTargetBlock, ReceiveQuorumMessageResult.toProcess] at processed
  | blockAlive targetBlock =>
      by_cases roundDiffers : targetBlock.blockRound ≠ message.qmRound
      · simp [checkTargetBlock, roundDiffers, ReceiveQuorumMessageResult.toProcess] at processed
      by_cases epochDiffers : targetBlock.blockEpoch ≠ message.qmEpoch
      · simp [checkTargetBlock, roundDiffers, epochDiffers,
          ReceiveQuorumMessageResult.toProcess] at processed
      simp only [ne_eq, Decidable.not_not] at roundDiffers epochDiffers
      cases existing <;>
        simp [checkTargetBlock, roundDiffers, epochDiffers,
          ReceiveQuorumMessageResult.toProcess] at processed <;>
        (subst processed; simp [roundDiffers, epochDiffers])

variable [DecidableEq σ]
variable (checkQuorumSignatureSingle : QuorumSignatureMessage → Nat → σ → Bool)

/-- `receiveQuorumMessage`. Duplicate detection compares with the latest message stored for
the baker only. -/
def receiveQuorumMessage (message : QuorumMessage σ) (skovData : SkovData σ) :
    ReceiveQuorumMessageResult σ :=
  if skovData.isConsensusShutdown then .consensusShutdown
  else if message.qmEpoch > skovData.currentEpoch then .catchupRequired
  else if message.qmRound < skovData.currentRound then .rejected .obsoleteRound
  else
    match getFinalizer message skovData with
    | none => .rejected .notAFinalizer
    | some info =>
        let existing :=
          skovData.currentQuorumMessages.smBakerIdToQuorumMessage info.finalizerBakerId
        if existing = some message then .rejected .duplicate
        else if !checkQuorumSignatureSingle
            (quorumSignatureMessageFor message skovData.genesisHash)
            info.finalizerBlsKey message.qmSignature then
          .rejected .invalidSignature
        else checkTargetBlock message info existing (skovData.blockStatus message.qmBlock)

/-- A message is only ever handed on for processing after every check passed. -/
theorem receiveQuorumMessage_toProcess {message : QuorumMessage σ} {skovData : SkovData σ}
    {verified : VerifiedQuorumMessage σ}
    (processed :
      (receiveQuorumMessage checkQuorumSignatureSingle message skovData).toProcess =
        some verified) :
    ∃ info, getFinalizer message skovData = some info ∧
      verified.vqmMessage = message ∧ verified.vqmFinalizerWeight = info.finalizerWeight ∧
      verified.vqmFinalizerBakerId = info.finalizerBakerId ∧
      skovData.blockStatus message.qmBlock = .blockAlive verified.vqmBlock ∧
      verified.vqmBlock.blockRound = message.qmRound ∧
      verified.vqmBlock.blockEpoch = message.qmEpoch := by
  unfold receiveQuorumMessage at processed
  -- the three early exits hand nothing on
  split_ifs at processed with shutdown future obsolete
  · simp [ReceiveQuorumMessageResult.toProcess] at processed
  · simp [ReceiveQuorumMessageResult.toProcess] at processed
  · simp [ReceiveQuorumMessageResult.toProcess] at processed
  cases finalizerFound : getFinalizer message skovData with
  | none => simp [finalizerFound, ReceiveQuorumMessageResult.toProcess] at processed
  | some info =>
      simp only [finalizerFound] at processed
      split_ifs at processed with duplicate invalidSignature
      · simp [ReceiveQuorumMessageResult.toProcess] at processed
      · simp [ReceiveQuorumMessageResult.toProcess] at processed
      · exact ⟨info, rfl, checkTargetBlock_toProcess processed⟩

end Receive

/-! ## Processing -/

section Process

variable [Append σ]

/-- `justOrIncrement` of `addQuorumMessage`: start an entry for the block, or add the weight,
aggregate the signature and add the finalizer to an existing one. -/
def justOrIncrement (verified : VerifiedQuorumMessage σ) :
    Option (Nat × σ × FinalizerSet) → Option (Nat × σ × FinalizerSet)
  | none =>
      some (verified.vqmFinalizerWeight, verified.vqmMessage.qmSignature,
        finalizerSet [verified.vqmMessage.qmFinalizerIndex])
  | some (aggWeight, aggSig, aggFinalizers) =>
      some (aggWeight + verified.vqmFinalizerWeight, aggSig ++ verified.vqmMessage.qmSignature,
        addFinalizer aggFinalizers verified.vqmMessage.qmFinalizerIndex)

@[simp] theorem justOrIncrement_none (verified : VerifiedQuorumMessage σ) :
    justOrIncrement verified none =
      some (verified.vqmFinalizerWeight, verified.vqmMessage.qmSignature,
        finalizerSet [verified.vqmMessage.qmFinalizerIndex]) := rfl

@[simp] theorem justOrIncrement_some (verified : VerifiedQuorumMessage σ)
    (aggWeight : Nat) (aggSig : σ) (aggFinalizers : FinalizerSet) :
    justOrIncrement verified (some (aggWeight, aggSig, aggFinalizers)) =
      some (aggWeight + verified.vqmFinalizerWeight, aggSig ++ verified.vqmMessage.qmSignature,
        addFinalizer aggFinalizers verified.vqmMessage.qmFinalizerIndex) := rfl

/-- `addQuorumMessage`. Its documented precondition, that the finalizer is not present
already, is not checked. -/
def addQuorumMessage (verified : VerifiedQuorumMessage σ) (messages : QuorumMessages σ) :
    QuorumMessages σ where
  smBakerIdToQuorumMessage bakerId :=
    if bakerId = verified.vqmFinalizerBakerId then some verified.vqmMessage
    else messages.smBakerIdToQuorumMessage bakerId
  smBlockToWeightsAndSignatures hash :=
    if hash = verified.vqmMessage.qmBlock then
      justOrIncrement verified (messages.smBlockToWeightsAndSignatures hash)
    else messages.smBlockToWeightsAndSignatures hash

/-- The total weight that `makeQuorumCertificate` divides by: the committee of the current
epoch. -/
def currentTotalWeight (skovData : SkovData σ) : Nat :=
  (bakersForCurrentEpoch skovData.epochBakers skovData.lastFinalizedEpoch
    skovData.currentEpoch).committeeTotalWeight

/-- `enoughWeight`: the accumulated share of the total weight reaches the threshold. -/
def enoughWeight (skovData : SkovData σ) (accumulatedWeight : Nat) : Prop :=
  skovData.signatureThreshold ≤ (accumulatedWeight : ℚ) / (currentTotalWeight skovData : ℚ)

instance (skovData : SkovData σ) (accumulatedWeight : Nat) :
    Decidable (enoughWeight skovData accumulatedWeight) :=
  inferInstanceAs (Decidable (_ ≤ _))

/-- `makeQuorumCertificate`. -/
def makeQuorumCertificate (qcBlockPointer : BlockPointer) (skovData : SkovData σ) :
    Option (QuorumCertificate σ) :=
  match skovData.currentQuorumMessages.smBlockToWeightsAndSignatures qcBlockPointer.bpHash with
  | none => none
  | some (accumulatedWeight, aggregatedSignature, finalizers) =>
      if enoughWeight skovData accumulatedWeight then
        some
          { qcBlock := qcBlockPointer.bpHash
            qcRound := skovData.currentRound
            qcEpoch := qcBlockPointer.blockEpoch
            qcAggregateSignature := aggregatedSignature
            qcSignatories := finalizers }
      else none

/-- `processQuorumMessage` up to the new certificate: the message is added only when its
round is the current one, and a certificate is made for its block if the weight allows. -/
def processQuorumMessage (verified : VerifiedQuorumMessage σ) (skovData : SkovData σ) :
    SkovData σ × Option (QuorumCertificate σ) :=
  if skovData.currentRound = verified.vqmMessage.qmRound then
    let updated :=
      { skovData with
        currentQuorumMessages := addQuorumMessage verified skovData.currentQuorumMessages }
    (updated, makeQuorumCertificate verified.vqmBlock updated)
  else (skovData, none)

@[simp] theorem processQuorumMessage_round (verified : VerifiedQuorumMessage σ)
    (skovData : SkovData σ) :
    (processQuorumMessage verified skovData).1.currentRound = skovData.currentRound := by
  unfold processQuorumMessage
  split_ifs <;> rfl

omit [Append σ] in
/-- A certificate from `makeQuorumCertificate` is for its block in the current round and
the block's epoch, and carries exactly the entry of that block, whose weight reached the
threshold. -/
theorem makeQuorumCertificate_entry {qcBlockPointer : BlockPointer} {skovData : SkovData σ}
    {certificate : QuorumCertificate σ}
    (made : makeQuorumCertificate qcBlockPointer skovData = some certificate) :
    certificate.qcBlock = qcBlockPointer.bpHash ∧ certificate.qcRound = skovData.currentRound ∧
      certificate.qcEpoch = qcBlockPointer.blockEpoch ∧
      ∃ accumulatedWeight,
        skovData.currentQuorumMessages.smBlockToWeightsAndSignatures qcBlockPointer.bpHash =
          some (accumulatedWeight, certificate.qcAggregateSignature,
            certificate.qcSignatories) ∧
        enoughWeight skovData accumulatedWeight := by
  unfold makeQuorumCertificate at made
  split at made
  · simp at made
  · rename_i accumulatedWeight aggregatedSignature finalizers entryFound
    split_ifs at made with enough
    simp only [Option.some.injEq] at made
    subst made
    exact ⟨rfl, rfl, rfl, accumulatedWeight, entryFound, enough⟩

end Process

/-! ## Aggregation of a log -/

section Aggregate

variable [Append σ]

/-- Signatures aggregated left to right, as repeated `<>` does. -/
def aggregateSignatures (first : σ) (rest : List σ) : σ :=
  rest.foldl (· ++ ·) first

/-- The entry that the processed messages `log` aggregate into for one block: nothing if none
of them is for it, otherwise the sum of their weights, the aggregate of their signatures in
order, and the set of their finalizer indices. -/
def aggregateOf (log : List (VerifiedQuorumMessage σ)) (hash : Nat) :
    Option (Nat × σ × FinalizerSet) :=
  match log.filter (fun verified => verified.vqmMessage.qmBlock = hash) with
  | [] => none
  | first :: rest =>
      some (((first :: rest).map (·.vqmFinalizerWeight)).sum,
        aggregateSignatures first.vqmMessage.qmSignature (rest.map (·.vqmMessage.qmSignature)),
        finalizerSet ((first :: rest).map (·.vqmMessage.qmFinalizerIndex)))

/-- Folding `justOrIncrement` over messages continues an entry additively. -/
theorem foldl_justOrIncrement_some (log : List (VerifiedQuorumMessage σ))
    (weight : Nat) (signature : σ) (finalizers : FinalizerSet) :
    log.foldl (fun entry verified => justOrIncrement verified entry)
        (some (weight, signature, finalizers)) =
      some (weight + (log.map (·.vqmFinalizerWeight)).sum,
        aggregateSignatures signature (log.map (·.vqmMessage.qmSignature)),
        (log.map (·.vqmMessage.qmFinalizerIndex)).foldl addFinalizer finalizers) := by
  induction log generalizing weight signature finalizers with
  | nil => simp [aggregateSignatures]
  | cons head tail inductionHypothesis =>
      rw [List.foldl_cons, justOrIncrement_some, inductionHypothesis]
      simp [aggregateSignatures, Nat.add_assoc]

/-- Folding the additions of a whole log into a collection, read at one block, is folding
`justOrIncrement` over the log's messages for that block. -/
theorem foldl_addQuorumMessage_entry (log : List (VerifiedQuorumMessage σ))
    (messages : QuorumMessages σ) (hash : Nat) :
    (log.foldl (fun collected verified => addQuorumMessage verified collected)
        messages).smBlockToWeightsAndSignatures hash =
      (log.filter (fun verified => verified.vqmMessage.qmBlock = hash)).foldl
        (fun entry verified => justOrIncrement verified entry)
        (messages.smBlockToWeightsAndSignatures hash) := by
  induction log generalizing messages with
  | nil => rfl
  | cons head tail inductionHypothesis =>
      rw [List.foldl_cons, inductionHypothesis, List.filter_cons]
      by_cases forBlock : head.vqmMessage.qmBlock = hash
      · simp [forBlock, addQuorumMessage]
      · have other : hash ≠ head.vqmMessage.qmBlock := Ne.symm forBlock
        simp [forBlock, addQuorumMessage, other]

/-- Starting from no messages, the entries are exactly `aggregateOf` the log. -/
theorem foldl_addQuorumMessage_empty (log : List (VerifiedQuorumMessage σ))
    (hash : Nat) :
    (log.foldl (fun collected verified => addQuorumMessage verified collected)
        emptyQuorumMessages).smBlockToWeightsAndSignatures hash = aggregateOf log hash := by
  rw [foldl_addQuorumMessage_entry, aggregateOf]
  cases log.filter (fun verified => verified.vqmMessage.qmBlock = hash) with
  | nil => rfl
  | cons first rest =>
      rw [List.foldl_cons, show emptyQuorumMessages.smBlockToWeightsAndSignatures hash =
        (none : Option (Nat × σ × FinalizerSet)) from rfl, justOrIncrement_none,
        foldl_justOrIncrement_some]
      simp [finalizerSet]

end Aggregate

/-! ## Runs within one round -/

section Run

variable [DecidableEq σ] [Append σ]
variable (checkQuorumSignatureSingle : QuorumSignatureMessage → Nat → σ → Bool)

/-- `receiveFinalizationMessage` on a quorum message: receive it, and process it when the
result is `Received` or `ReceivedNoRelay`. -/
def receiveFinalizationMessage (message : QuorumMessage σ) (skovData : SkovData σ) :
    SkovData σ × Option (QuorumCertificate σ) :=
  match (receiveQuorumMessage checkQuorumSignatureSingle message skovData).toProcess with
  | some verified => processQuorumMessage verified skovData
  | none => (skovData, none)

/-- The verified message a delivery adds to the round's collection, if any. -/
def addedMessage (message : QuorumMessage σ) (skovData : SkovData σ) :
    Option (VerifiedQuorumMessage σ) :=
  (receiveQuorumMessage checkQuorumSignatureSingle message skovData).toProcess.filter
    (fun verified => skovData.currentRound = verified.vqmMessage.qmRound)

/-- Deliver messages one after another, collecting the certificates formed. -/
def deliverQuorumMessages :
    SkovData σ → List (QuorumMessage σ) → SkovData σ × List (QuorumCertificate σ)
  | skovData, [] => (skovData, [])
  | skovData, message :: rest =>
      let step := receiveFinalizationMessage checkQuorumSignatureSingle message skovData
      let continued := deliverQuorumMessages step.1 rest
      (continued.1, step.2.toList ++ continued.2)

/-- The verified messages a run adds to the collection, in order. -/
def addedMessages : SkovData σ → List (QuorumMessage σ) → List (VerifiedQuorumMessage σ)
  | _, [] => []
  | skovData, message :: rest =>
      (addedMessage checkQuorumSignatureSingle message skovData).toList ++
        addedMessages (receiveFinalizationMessage checkQuorumSignatureSingle message skovData).1
          rest

/-- One delivery changes the collection exactly by adding the message it adds. -/
theorem receiveFinalizationMessage_quorumMessages (message : QuorumMessage σ)
    (skovData : SkovData σ) :
    (receiveFinalizationMessage checkQuorumSignatureSingle message skovData).1 =
      { skovData with
        currentQuorumMessages :=
          (addedMessage checkQuorumSignatureSingle message skovData).toList.foldl
            (fun collected verified => addQuorumMessage verified collected)
            skovData.currentQuorumMessages } := by
  unfold receiveFinalizationMessage addedMessage
  cases (receiveQuorumMessage checkQuorumSignatureSingle message skovData).toProcess with
  | none => rfl
  | some verified =>
      by_cases current : skovData.currentRound = verified.vqmMessage.qmRound
      · simp [processQuorumMessage, current, Option.filter]
      · simp [processQuorumMessage, current, Option.filter]

/-- A delivery keeps the round. -/
@[simp] theorem receiveFinalizationMessage_currentRound (message : QuorumMessage σ)
    (skovData : SkovData σ) :
    (receiveFinalizationMessage checkQuorumSignatureSingle message skovData).1.currentRound =
      skovData.currentRound := by
  rw [receiveFinalizationMessage_quorumMessages]

/-- A delivery keeps the block table. -/
@[simp] theorem receiveFinalizationMessage_blockStatus (message : QuorumMessage σ)
    (skovData : SkovData σ) :
    (receiveFinalizationMessage checkQuorumSignatureSingle message skovData).1.blockStatus =
      skovData.blockStatus := by
  rw [receiveFinalizationMessage_quorumMessages]

/-- A delivery keeps the threshold and the committee that `enoughWeight` reads. -/
@[simp] theorem enoughWeight_receiveFinalizationMessage (message : QuorumMessage σ)
    (skovData : SkovData σ) :
    enoughWeight (receiveFinalizationMessage checkQuorumSignatureSingle message skovData).1 =
      enoughWeight skovData := by
  rw [receiveFinalizationMessage_quorumMessages]
  rfl

/-- A certificate formed by one delivery is for the live block, of the current round, of the
message the delivery adds, and carries the entry of that block once the message is added. -/
theorem receiveFinalizationMessage_certificate {message : QuorumMessage σ}
    {skovData : SkovData σ} {certificate : QuorumCertificate σ}
    (formed : (receiveFinalizationMessage checkQuorumSignatureSingle message skovData).2 =
      some certificate) :
    ∃ verified, addedMessage checkQuorumSignatureSingle message skovData = some verified ∧
      skovData.blockStatus verified.vqmMessage.qmBlock = .blockAlive verified.vqmBlock ∧
      verified.vqmBlock.blockRound = skovData.currentRound ∧
      certificate.qcBlock = verified.vqmBlock.bpHash ∧
      certificate.qcRound = skovData.currentRound ∧
      certificate.qcEpoch = verified.vqmBlock.blockEpoch ∧
      ∃ weight,
        (addQuorumMessage verified skovData.currentQuorumMessages).smBlockToWeightsAndSignatures
            certificate.qcBlock =
          some (weight, certificate.qcAggregateSignature, certificate.qcSignatories) ∧
        enoughWeight skovData weight := by
  unfold receiveFinalizationMessage at formed
  cases processed :
      (receiveQuorumMessage checkQuorumSignatureSingle message skovData).toProcess with
  | none => simp [processed] at formed
  | some verified =>
      simp only [processed] at formed
      obtain ⟨info, -, sameMessage, -, -, alive, sameRound, -⟩ :=
        receiveQuorumMessage_toProcess checkQuorumSignatureSingle processed
      unfold processQuorumMessage at formed
      -- a message of another round is not added and forms nothing, which closes that branch
      split_ifs at formed with current
      · obtain ⟨block, round, epoch, weight, entry, enough⟩ := makeQuorumCertificate_entry formed
        refine ⟨verified, ?_, ?_, ?_, block, round, epoch, weight, ?_, enough⟩
        · simp [addedMessage, processed, Option.filter, current]
        · rw [sameMessage]
          exact alive
        · rw [sameRound, current, sameMessage]
        · rw [block]
          exact entry

/-- A run changes the collection exactly by adding its added messages in order. -/
theorem deliverQuorumMessages_quorumMessages (skovData : SkovData σ)
    (messages : List (QuorumMessage σ)) :
    (deliverQuorumMessages checkQuorumSignatureSingle skovData messages).1 =
      { skovData with
        currentQuorumMessages :=
          (addedMessages checkQuorumSignatureSingle skovData messages).foldl
            (fun collected verified => addQuorumMessage verified collected)
            skovData.currentQuorumMessages } := by
  induction messages generalizing skovData with
  | nil => rfl
  | cons message rest inductionHypothesis =>
      simp only [deliverQuorumMessages, addedMessages, List.foldl_append]
      rw [inductionHypothesis, receiveFinalizationMessage_quorumMessages]

/-- **Aggregation invariant.** Within a round that started with no quorum messages, every
entry of `smBlockToWeightsAndSignatures` is the aggregate of the messages the run added for
that block: the sum of their weights, their signatures in order and their finalizer set. -/
theorem deliverQuorumMessages_entry (skovData : SkovData σ)
    (messages : List (QuorumMessage σ))
    (startsEmpty : skovData.currentQuorumMessages = emptyQuorumMessages) (hash : Nat) :
    (deliverQuorumMessages checkQuorumSignatureSingle skovData
        messages).1.currentQuorumMessages.smBlockToWeightsAndSignatures hash =
      aggregateOf (addedMessages checkQuorumSignatureSingle skovData messages) hash := by
  rw [deliverQuorumMessages_quorumMessages, startsEmpty]
  exact foldl_addQuorumMessage_empty _ hash

/-- **Certificates of a run.** Every certificate a run forms is for the current round and for
the live block, of that round, of a message the run added; and it carries the entry that the
messages added up to it make of the starting collection for its block, whose weight reached
the threshold. -/
theorem deliverQuorumMessages_certificates (skovData : SkovData σ)
    (messages : List (QuorumMessage σ)) {certificate : QuorumCertificate σ}
    (formed :
      certificate ∈ (deliverQuorumMessages checkQuorumSignatureSingle skovData messages).2) :
    certificate.qcRound = skovData.currentRound ∧
      (∃ verified ∈ addedMessages checkQuorumSignatureSingle skovData messages,
        skovData.blockStatus verified.vqmMessage.qmBlock = .blockAlive verified.vqmBlock ∧
        verified.vqmBlock.blockRound = skovData.currentRound ∧
        certificate.qcBlock = verified.vqmBlock.bpHash ∧
        certificate.qcEpoch = verified.vqmBlock.blockEpoch) ∧
      ∃ added, added <+: addedMessages checkQuorumSignatureSingle skovData messages ∧
        ∃ weight,
          (added.foldl (fun collected verified => addQuorumMessage verified collected)
              skovData.currentQuorumMessages).smBlockToWeightsAndSignatures certificate.qcBlock =
            some (weight, certificate.qcAggregateSignature, certificate.qcSignatories) ∧
          enoughWeight skovData weight := by
  induction messages generalizing skovData with
  | nil => simp [deliverQuorumMessages] at formed
  | cons message rest inductionHypothesis =>
      simp only [deliverQuorumMessages, List.mem_append] at formed
      rw [addedMessages]
      rcases formed with now | later
      · -- formed by this delivery, from the message it adds alone
        obtain ⟨verified, added, alive, blockRound, block, round, epoch, weight, entry, enough⟩ :=
          receiveFinalizationMessage_certificate checkQuorumSignatureSingle
            (Option.mem_toList.mp now)
        rw [added]
        exact ⟨round, ⟨verified, List.mem_cons_self, alive, blockRound, block, epoch⟩,
          [verified], List.prefix_append _ _, weight, entry, enough⟩
      · -- formed later: the delivery changed the collection and nothing else
        obtain ⟨round, ⟨verified, listed, alive, blockRound, block, epoch⟩, added, isPrefix,
          weight, entry, enough⟩ := inductionHypothesis _ later
        rw [receiveFinalizationMessage_currentRound] at round blockRound
        rw [receiveFinalizationMessage_blockStatus] at alive
        rw [enoughWeight_receiveFinalizationMessage] at enough
        rw [receiveFinalizationMessage_quorumMessages, ← List.foldl_append] at entry
        exact ⟨round, ⟨verified, List.mem_append_right _ listed, alive, blockRound, block, epoch⟩,
          _ ++ added, List.prefix_self_append_iff.mpr isPrefix, weight, entry, enough⟩

/-- **Soundness of the certificates of a round.** In a round that started with no quorum
messages, over a block table keyed by hash, every certificate a run of deliveries forms is
for the current round and for a live block of that round and of the certificate's epoch; and
its signature and signatories are the aggregate, for its block, of the messages the run added
up to it, whose summed weights reached the threshold. -/
theorem deliverQuorumMessages_certificate_sound (skovData : SkovData σ)
    (messages : List (QuorumMessage σ))
    (startsEmpty : skovData.currentQuorumMessages = emptyQuorumMessages)
    (statusKeyed :
      ∀ hash block, skovData.blockStatus hash = .blockAlive block → block.bpHash = hash)
    {certificate : QuorumCertificate σ}
    (formed :
      certificate ∈ (deliverQuorumMessages checkQuorumSignatureSingle skovData messages).2) :
    certificate.qcRound = skovData.currentRound ∧
      (∃ block, skovData.blockStatus certificate.qcBlock = .blockAlive block ∧
        block.blockRound = skovData.currentRound ∧ block.blockEpoch = certificate.qcEpoch) ∧
      ∃ added, added <+: addedMessages checkQuorumSignatureSingle skovData messages ∧
        ∃ weight, aggregateOf added certificate.qcBlock =
            some (weight, certificate.qcAggregateSignature, certificate.qcSignatories) ∧
          enoughWeight skovData weight := by
  obtain ⟨round, ⟨verified, -, alive, blockRound, block, epoch⟩, added, isPrefix, weight, entry,
    enough⟩ := deliverQuorumMessages_certificates checkQuorumSignatureSingle skovData messages formed
  have keyed : verified.vqmBlock.bpHash = verified.vqmMessage.qmBlock := statusKeyed _ _ alive
  refine ⟨round, ⟨verified.vqmBlock, ?_, blockRound, epoch.symm⟩, added, isPrefix, weight, ?_,
    enough⟩
  · rw [block, keyed]
    exact alive
  · rw [← foldl_addQuorumMessage_empty, ← startsEmpty]
    exact entry

end Run

/-- The committee weight of a set of finalizers: the sum of `finalizerWeight` over the
committee's finalizers whose index is in the set. -/
def signerWeight (committee : FinalizationCommittee) (finalizers : FinalizerSet) : Nat :=
  ((committee.committeeFinalizers.filter
    (fun info => memberFinalizerSet info.finalizerIndex finalizers)).map
      FinalizerInfo.finalizerWeight).sum

/-! ## A finalizer counted twice

Three finalizers of weight one, threshold `2/3`, two live blocks of the current round.
Finalizer `0` signs block `101`, then block `102` (double signing, `ReceivedNoRelay`), then
its first message is delivered again. The third delivery is compared only with the latest
stored message (`102`'s), passes, and is added a second time. -/

def doubleSigningCommittee : FinalizationCommittee :=
  ⟨[⟨0, 1, 0, 10⟩, ⟨1, 1, 1, 11⟩, ⟨2, 1, 2, 12⟩], 3⟩

def doubleSigningState : SkovData (List Nat) where
  isConsensusShutdown := false
  currentRound := 5
  currentEpoch := 0
  lastFinalizedEpoch := 0
  epochBakers := ⟨doubleSigningCommittee, doubleSigningCommittee, doubleSigningCommittee, 1⟩
  genesisHash := 0
  signatureThreshold := 2 / 3
  blockStatus hash :=
    if hash = 101 then .blockAlive ⟨101, 5, 0⟩
    else if hash = 102 then .blockAlive ⟨102, 5, 0⟩
    else .blockUnknown
  currentQuorumMessages := emptyQuorumMessages

def doubleSigningFirst : QuorumMessage (List Nat) := ⟨[1], 101, 0, 5, 0⟩

def doubleSigningSecond : QuorumMessage (List Nat) := ⟨[2], 102, 0, 5, 0⟩

theorem receiveFinalizationMessage_counts_finalizer_twice :
    let run := deliverQuorumMessages (fun _ _ _ => true) doubleSigningState
      [doubleSigningFirst, doubleSigningSecond, doubleSigningFirst]
    run.1.currentQuorumMessages.smBlockToWeightsAndSignatures 101 =
        some (2, [1, 1], finalizerSet [0]) ∧
      signerWeight doubleSigningCommittee (finalizerSet [0]) = 1 ∧
      run.2 = [⟨101, 5, 0, [1, 1], finalizerSet [0]⟩] ∧
      ¬ enoughWeight run.1 (signerWeight doubleSigningCommittee (finalizerSet [0])) := by
  have sameSet : addFinalizer (finalizerSet [0]) 0 = finalizerSet [0] := by decide
  refine ⟨?_, by decide, ?_, ?_⟩
  · rw [deliverQuorumMessages_entry _ _ _ rfl]
    decide
  · simp [deliverQuorumMessages, receiveFinalizationMessage, receiveQuorumMessage,
      doubleSigningState, doubleSigningFirst, doubleSigningSecond, getFinalizer,
      getBakersForEpoch, finalizerByIndex, doubleSigningCommittee, checkTargetBlock,
      ReceiveQuorumMessageResult.toProcess, processQuorumMessage, makeQuorumCertificate,
      addQuorumMessage, emptyQuorumMessages, enoughWeight, currentTotalWeight,
      bakersForCurrentEpoch, sameSet]
    norm_num
  · have signers : signerWeight doubleSigningCommittee (finalizerSet [0]) = 1 := by decide
    rw [signers, deliverQuorumMessages_quorumMessages]
    simp [enoughWeight, currentTotalWeight, bakersForCurrentEpoch, doubleSigningState,
      doubleSigningCommittee]
    norm_num

/-! ## Two honest signers

In the same round, finalizers `0` and `1` each sign block `101` once: the second message
brings the weight to the threshold, and the certificate carries both signatures. -/

def honestSignersMessages : List (QuorumMessage (List Nat)) :=
  [⟨[1], 101, 0, 5, 0⟩, ⟨[3], 101, 1, 5, 0⟩]

theorem deliverQuorumMessages_certificate_sound_on_two_signers :
    doubleSigningState.currentQuorumMessages = emptyQuorumMessages ∧
      (∀ hash block, doubleSigningState.blockStatus hash = .blockAlive block →
        block.bpHash = hash) ∧
      (deliverQuorumMessages (fun _ _ _ => true) doubleSigningState honestSignersMessages).2 =
        [⟨101, 5, 0, [1, 3], finalizerSet [0, 1]⟩] ∧
      (∃ block, doubleSigningState.blockStatus 101 = .blockAlive block ∧
        block.blockRound = doubleSigningState.currentRound ∧ block.blockEpoch = 0) ∧
      ∃ added, added <+: addedMessages (fun _ _ _ => true) doubleSigningState
          honestSignersMessages ∧
        ∃ weight, aggregateOf added 101 = some (weight, [1, 3], finalizerSet [0, 1]) ∧
          enoughWeight doubleSigningState weight := by
  have keyed : ∀ hash block, doubleSigningState.blockStatus hash = .blockAlive block →
      block.bpHash = hash := by
    intro hash block alive
    simp only [doubleSigningState] at alive
    split_ifs at alive with first second
    · cases alive
      exact first.symm
    · cases alive
      exact second.symm
  have bothSigners : addFinalizer (finalizerSet [0]) 1 = finalizerSet [0, 1] := by decide
  have run :
      (deliverQuorumMessages (fun _ _ _ => true) doubleSigningState honestSignersMessages).2 =
        [⟨101, 5, 0, [1, 3], finalizerSet [0, 1]⟩] := by
    simp [bothSigners, deliverQuorumMessages, receiveFinalizationMessage, receiveQuorumMessage,
      doubleSigningState, honestSignersMessages, getFinalizer, getBakersForEpoch,
      finalizerByIndex, doubleSigningCommittee, checkTargetBlock,
      ReceiveQuorumMessageResult.toProcess, processQuorumMessage, makeQuorumCertificate,
      addQuorumMessage, emptyQuorumMessages, enoughWeight, currentTotalWeight,
      bakersForCurrentEpoch]
    norm_num
  have formed : (⟨101, 5, 0, [1, 3], finalizerSet [0, 1]⟩ : QuorumCertificate (List Nat)) ∈
      (deliverQuorumMessages (fun _ _ _ => true) doubleSigningState honestSignersMessages).2 := by
    rw [run]
    exact List.mem_singleton_self _
  obtain ⟨-, alive, sound⟩ := deliverQuorumMessages_certificate_sound (fun _ _ _ => true)
    doubleSigningState honestSignersMessages rfl keyed formed
  exact ⟨rfl, keyed, run, alive, sound⟩

end Concordium.KonsensusV1.Consensus.Quorum
