import Concordium.KonsensusV1.Types.FinalizationEntry
import Concordium.KonsensusV1.Consensus.RoundSigning

/-!
Contract: the wire format of timeout messages in `Concordium.KonsensusV1.Types`, whose decoder
checks the invariants of the body: it reads back exactly the bodies whose certificate is of an
earlier round and of no later epoch, and refuses the encoding of every other body; and the same
for a timeout message, the body followed by the sender's signature.

Owns:
- `putTimeoutMessageBody` and `getTimeoutMessageBody`, with the two checks of the source;
- `TimeoutMessageBodyFits` (every field within its width) and `WellFormedTimeoutMessageBody`
  (the two checked conditions), and the format `timeoutMessageBodyFormat` of the well-formed
  bodies;
- `putTimeoutMessage`, `getTimeoutMessage` and `timeoutMessageBodySignatureBytes`.

Does not own: BLS and Ed25519 signatures, whose formats are parameters; the failure messages of
the decoder, a failed read being `none`.
-/

set_option autoImplicit false

namespace Concordium.KonsensusV1.Types

open Serialize
open Concordium.KonsensusV1.Consensus.RoundSigning (TimeoutMessageBody TimeoutMessage)

variable {σ : Type} (signature : Format σ)

/-- The finalizer index as a `Word32`, the round and the epoch as `Word64`s, the quorum
certificate and the aggregate signature. -/
def putTimeoutMessageBody (body : TimeoutMessageBody σ) : List UInt8 :=
  (wordBE 4).put body.tmFinalizerIndex ++ word64Format.put body.tmRound ++
    word64Format.put body.tmEpoch ++ (quorumCertificateFormat signature).put body.tmQuorumCertificate ++
    signature.put body.tmAggregateSignature

/-- The fields in order, with the two checks on the certificate before the signature. -/
def getTimeoutMessageBody : Get (TimeoutMessageBody σ) := do
  let tmFinalizerIndex ← (wordBE 4).get
  let tmRound ← word64Format.get
  let tmEpoch ← word64Format.get
  let tmQuorumCertificate ← (quorumCertificateFormat signature).get
  unless tmQuorumCertificate.qcRound < tmRound do Get.fail
  if tmQuorumCertificate.qcEpoch > tmEpoch then Get.fail
  let tmAggregateSignature ← signature.get
  pure { tmFinalizerIndex, tmRound, tmEpoch, tmQuorumCertificate, tmAggregateSignature }

/-- Every field of the body can be written by its format. -/
structure TimeoutMessageBodyFits (body : TimeoutMessageBody σ) : Prop where
  finalizerIndex : (wordBE 4).Admissible body.tmFinalizerIndex
  round : word64Format.Admissible body.tmRound
  epoch : word64Format.Admissible body.tmEpoch
  quorumCertificate : (quorumCertificateFormat signature).Admissible body.tmQuorumCertificate
  aggregateSignature : signature.Admissible body.tmAggregateSignature

/-- The invariant of a body: the certificate is of an earlier round and of no later epoch. -/
def WellFormedTimeoutMessageBody (body : TimeoutMessageBody σ) : Prop :=
  body.tmQuorumCertificate.qcRound < body.tmRound ∧ body.tmQuorumCertificate.qcEpoch ≤ body.tmEpoch

instance (body : TimeoutMessageBody σ) : Decidable (WellFormedTimeoutMessageBody body) :=
  inferInstanceAs (Decidable (_ ∧ _))

theorem getTimeoutMessageBody_putTimeoutMessageBody (body : TimeoutMessageBody σ)
    (fits : TimeoutMessageBodyFits signature body) (rest : List UInt8) :
    getTimeoutMessageBody signature (putTimeoutMessageBody signature body ++ rest) =
      if WellFormedTimeoutMessageBody body then some (body, rest) else none := by
  simp only [putTimeoutMessageBody, List.append_assoc, getTimeoutMessageBody]
  rw [(wordBE 4).bind_get_put fits.finalizerIndex, word64Format.bind_get_put fits.round,
    word64Format.bind_get_put fits.epoch,
    (quorumCertificateFormat signature).bind_get_put fits.quorumCertificate]
  -- the two checks of the source, in their order
  by_cases earlierRound : body.tmQuorumCertificate.qcRound < body.tmRound
  · by_cases laterEpoch : body.tmQuorumCertificate.qcEpoch > body.tmEpoch
    · have illFormed : ¬WellFormedTimeoutMessageBody body := fun wellFormed =>
        absurd wellFormed.2 (Nat.not_le.mpr laterEpoch)
      rw [if_pos earlierRound, if_pos laterEpoch, if_neg illFormed]
      rfl
    · rw [if_pos earlierRound, if_neg laterEpoch, signature.bind_get_put fits.aggregateSignature,
        if_pos ⟨earlierRound, Nat.not_lt.mp laterEpoch⟩]
      rfl
  · have illFormed : ¬WellFormedTimeoutMessageBody body := fun wellFormed =>
      earlierRound wellFormed.1
    rw [if_neg earlierRound, if_neg illFormed]
    rfl

/-- Every body the decoder reads fits its fields, satisfies the invariant and was read from its
own encoding. -/
theorem putTimeoutMessageBody_of_getTimeoutMessageBody (input : List UInt8)
    (body : TimeoutMessageBody σ) (rest : List UInt8)
    (read : getTimeoutMessageBody signature input = some (body, rest)) :
    (TimeoutMessageBodyFits signature body ∧ WellFormedTimeoutMessageBody body) ∧
      input = putTimeoutMessageBody signature body ++ rest := by
  unfold getTimeoutMessageBody at read
  obtain ⟨tmFinalizerIndex, afterIndex, finalizerIndex, atIndex, readRound⟩ :=
    (wordBE 4).bind_get_eq_some read
  obtain ⟨tmRound, afterRound, round, atRound, readEpoch⟩ :=
    word64Format.bind_get_eq_some readRound
  obtain ⟨tmEpoch, afterEpoch, epoch, atEpoch, readCertificate⟩ :=
    word64Format.bind_get_eq_some readEpoch
  obtain ⟨tmQuorumCertificate, afterCertificate, quorumCertificate, atCertificate, readChecks⟩ :=
    (quorumCertificateFormat signature).bind_get_eq_some readCertificate
  -- a failed check reads nothing; past both, the signature is read
  by_cases earlierRound : tmQuorumCertificate.qcRound < tmRound
  · by_cases laterEpoch : tmQuorumCertificate.qcEpoch > tmEpoch
    · rw [if_pos earlierRound, if_pos laterEpoch] at readChecks
      cases readChecks
    · rw [if_pos earlierRound, if_neg laterEpoch] at readChecks
      obtain ⟨tmAggregateSignature, afterSignature, aggregateSignature, atSignature, readDone⟩ :=
        signature.bind_get_eq_some readChecks
      obtain ⟨rfl, rfl⟩ := pure_run_eq_some readDone
      refine ⟨⟨⟨finalizerIndex, round, epoch, quorumCertificate, aggregateSignature⟩,
        earlierRound, Nat.not_lt.mp laterEpoch⟩, ?_⟩
      rw [atIndex, atRound, atEpoch, atCertificate, atSignature]
      simp only [putTimeoutMessageBody, List.append_assoc]
  · rw [if_neg earlierRound] at readChecks
    cases readChecks

/-- The format of the bodies that satisfy the invariant. -/
def timeoutMessageBodyFormat : Format (TimeoutMessageBody σ) where
  Admissible body := TimeoutMessageBodyFits signature body ∧ WellFormedTimeoutMessageBody body
  put := putTimeoutMessageBody signature
  get := getTimeoutMessageBody signature
  get_put body rest admissible := by
    rw [getTimeoutMessageBody_putTimeoutMessageBody signature body admissible.1 rest,
      if_pos admissible.2]
  put_get := putTimeoutMessageBody_of_getTimeoutMessageBody signature

/-! ## Timeout messages -/

variable (blockSignature : Format Nat)

def putTimeoutMessage (message : TimeoutMessage σ) : List UInt8 :=
  putTimeoutMessageBody signature message.tmBody ++ blockSignature.put message.tmSignature

def getTimeoutMessage : Get (TimeoutMessage σ) := do
  let tmBody ← getTimeoutMessageBody signature
  let tmSignature ← blockSignature.get
  pure { tmBody, tmSignature }

/-- The bytes a sender signs: a fixed prefix, the encoding of the body, and the genesis hash. -/
def timeoutMessageBodySignatureBytes (body : TimeoutMessageBody σ) (genesisHash : Nat) :
    List UInt8 :=
  "TIMEOUTMESSAGE.".toUTF8.toList ++ putTimeoutMessageBody signature body ++
    hashFormat.put genesisHash

theorem getTimeoutMessage_putTimeoutMessage (message : TimeoutMessage σ)
    (fits : TimeoutMessageBodyFits signature message.tmBody)
    (signatureFits : blockSignature.Admissible message.tmSignature) (rest : List UInt8) :
    getTimeoutMessage signature blockSignature
        (putTimeoutMessage signature blockSignature message ++ rest) =
      if WellFormedTimeoutMessageBody message.tmBody then some (message, rest) else none := by
  unfold putTimeoutMessage getTimeoutMessage
  rw [List.append_assoc, bind_run, getTimeoutMessageBody_putTimeoutMessageBody signature _ fits]
  by_cases wellFormed : WellFormedTimeoutMessageBody message.tmBody
  · rw [if_pos wellFormed, if_pos wellFormed]
    show (blockSignature.get >>= _) (blockSignature.put message.tmSignature ++ rest) = _
    rw [blockSignature.bind_get_put signatureFits]
    rfl
  · rw [if_neg wellFormed, if_neg wellFormed]

/-- Decoding a timeout-message body accepts exactly the well-formed bodies: the encoding of a
body whose certificate is of an earlier round and of no later epoch is read back, and that of
any other body is refused; every body read satisfies the invariant and was read from its own
encoding; and a timeout message, the body and the sender's signature, is read back exactly when
its body is well formed. -/
theorem timeoutMessage_decoding_accepts_well_formed :
    (∀ (body : TimeoutMessageBody σ) (rest : List UInt8), TimeoutMessageBodyFits signature body →
      getTimeoutMessageBody signature (putTimeoutMessageBody signature body ++ rest) =
        if WellFormedTimeoutMessageBody body then some (body, rest) else none) ∧
      (∀ (input : List UInt8) (body : TimeoutMessageBody σ) (rest : List UInt8),
        getTimeoutMessageBody signature input = some (body, rest) →
          WellFormedTimeoutMessageBody body ∧ input = putTimeoutMessageBody signature body ++ rest) ∧
      (∀ (message : TimeoutMessage σ) (rest : List UInt8),
        TimeoutMessageBodyFits signature message.tmBody →
          blockSignature.Admissible message.tmSignature →
          getTimeoutMessage signature blockSignature
              (putTimeoutMessage signature blockSignature message ++ rest) =
            if WellFormedTimeoutMessageBody message.tmBody then some (message, rest) else none) :=
  ⟨fun body rest fits => getTimeoutMessageBody_putTimeoutMessageBody signature body fits rest,
    fun input body rest read =>
      let ⟨⟨_, wellFormed⟩, encoded⟩ :=
        putTimeoutMessageBody_of_getTimeoutMessageBody signature input body rest read
      ⟨wellFormed, encoded⟩,
    fun message rest fits signatureFits =>
      getTimeoutMessage_putTimeoutMessage signature blockSignature message fits signatureFits rest⟩

/-- Finalizer `0`'s timeout of round `2` in epoch `1`, on the certificate of round `1` in epoch
`0`, every signature a `Word64`. -/
def roundTwoTimeoutMessage : TimeoutMessage Nat :=
  ⟨⟨0, 2, 1, ⟨5, 1, 0, 7, ⟨0⟩⟩, 3⟩, 9⟩

/-- The round-two timeout message fits its formats, is well formed and is read back. -/
theorem timeoutMessage_decoding_accepts_round_two_message :
    TimeoutMessageBodyFits word64Format roundTwoTimeoutMessage.tmBody ∧
      WellFormedTimeoutMessageBody roundTwoTimeoutMessage.tmBody ∧
      getTimeoutMessage word64Format word64Format
          (putTimeoutMessage word64Format word64Format roundTwoTimeoutMessage ++ []) =
        some (roundTwoTimeoutMessage, []) := by
  have word : ∀ value : Nat, value < 2 ^ 64 → word64Format.Admissible value :=
    fun value below => (word64Format_admissible value).mpr below
  have fits : TimeoutMessageBodyFits word64Format roundTwoTimeoutMessage.tmBody :=
    ⟨show 0 < 256 ^ 4 by decide, word 2 (by decide), word 1 (by decide),
      ⟨(hashFormat_admissible 5).mpr (by decide), word 1 (by decide), word 0 (by decide),
        word 7 (by decide), (finalizerSetFormat_admissible ⟨0⟩).mpr (by decide)⟩,
      word 3 (by decide)⟩
  have wellFormed : WellFormedTimeoutMessageBody roundTwoTimeoutMessage.tmBody := by decide
  refine ⟨fits, wellFormed, ?_⟩
  rw [(timeoutMessage_decoding_accepts_well_formed word64Format word64Format).2.2
    roundTwoTimeoutMessage [] fits (word 9 (by decide)), if_pos wellFormed]

end Concordium.KonsensusV1.Types
