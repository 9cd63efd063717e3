import Concordium.KonsensusV1.Types
import Concordium.Library.Word

/-!
Contract: what one consensus node signs, over any sequence of the events that decide it.

Owns:
- `PersistentRoundStatus` with `prsLastSignedRound` and `prsNextSignableRound`
  (`TreeState.Types`), and the round-status fields signing reads;
- `validateBlock` (`Consensus.Blocks`) and `uponTimeoutEvent` (`Consensus.Timeout`) as
  signing steps, the one-shot timer of `resetTimer` that calls `uponTimeoutEvent`,
  `onNewRound`, `advanceRoundWithQuorum`, `advanceRoundWithTimeout` and
  `checkedUpdateHighestCertifiedBlock` (`Consensus`), and a restart that keeps the
  persistent round status, installs a rebuilt round status and re-runs `startEvents`;
- the signing log of a run, and what every run guarantees about its rounds.

Rounds are `Word64`: the next signable round and the round a round advance moves to are `1 + r`
on words, which is `0` at the top round `r = 2 ^ 64 - 1`. After signing for the top round the
next signable round is `0` and the node could sign a quorum message for any round, so the
results about runs are for runs below the top round (`Event.RoundsFit`, `Node.BelowTop`).

Does not own: the network, the processing that follows signing (`processQuorumMessage`,
`processTimeout`: their round advances are events of the run), the timeout duration, and
the cryptography (signing functions are parameters; they are deterministic, so a message
is determined by what it signs).
-/

set_option autoImplicit false

namespace Concordium.KonsensusV1.Consensus.RoundSigning

open Concordium.KonsensusV1.Types

variable {σ : Type}

structure TimeoutSignatureMessage where
  tsmGenesis : Nat
  tsmRound : Nat
  tsmQCRound : Nat
  tsmQCEpoch : Nat
deriving DecidableEq, Repr

structure TimeoutMessageBody (σ : Type) where
  tmFinalizerIndex : Nat
  tmRound : Nat
  tmEpoch : Nat
  tmQuorumCertificate : QuorumCertificate σ
  tmAggregateSignature : σ
deriving DecidableEq, Repr

structure TimeoutMessage (σ : Type) where
  tmBody : TimeoutMessageBody σ
  tmSignature : Nat
deriving DecidableEq, Repr

/-- Round status information that is persisted to the database. The latest timeout
certificate is kept as its round. -/
structure PersistentRoundStatus (σ : Type) where
  prsLastSignedQuorumMessage : Option (QuorumMessage σ)
  prsLastSignedTimeoutMessage : Option (TimeoutMessage σ)
  prsLastBakedRound : Nat
  prsLatestTimeout : Option Nat
deriving DecidableEq, Repr

def initialPersistentRoundStatus : PersistentRoundStatus σ :=
  ⟨none, none, 0, none⟩

/-- The last round for which a quorum or timeout message was signed. -/
def prsLastSignedRound (status : PersistentRoundStatus σ) : Nat :=
  max (status.prsLastSignedQuorumMessage.elim 0 QuorumMessage.qmRound)
    (status.prsLastSignedTimeoutMessage.elim 0 (fun message => message.tmBody.tmRound))

/-- The round after the last signed one, on `Word64` rounds: at the top round it wraps to `0`. -/
def prsNextSignableRound (status : PersistentRoundStatus σ) : Nat :=
  Word.add 64 1 (prsLastSignedRound status)

/-- The round-status fields that signing reads; the highest certified block is kept as its
quorum certificate, and the previous round's timeout as its certificate's round. -/
structure RoundStatus (σ : Type) where
  rsCurrentRound : Nat
  rsCurrentEpoch : Nat
  rsHighestCertifiedBlock : QuorumCertificate σ
  rsPreviousRoundTimeout : Option Nat
deriving DecidableEq, Repr

/-- The check at the end of start-up: the current round follows the previous round's
timeout certificate if there is one, and the highest certified block otherwise. -/
def expectedCurrentRound (status : RoundStatus σ) : Nat :=
  match status.rsPreviousRoundTimeout with
  | some timeoutRound => Word.add 64 1 timeoutRound
  | none => Word.add 64 1 status.rsHighestCertifiedBlock.qcRound

structure Node (σ : Type) where
  isConsensusShutdown : Bool
  roundStatus : RoundStatus σ
  persistentRoundStatus : PersistentRoundStatus σ
  -- the pending timer of `resetTimer`, which calls `uponTimeoutEvent` when it fires
  timerArmed : Bool

/-- The node's keys, as the signing functions they give, and its finalizer index in the
committee of an epoch (`withFinalizerForEpoch`). -/
structure BakerContext (σ : Type) where
  genesisHash : Nat
  signQuorumSignatureMessage : QuorumSignatureMessage → σ
  signTimeoutSignatureMessage : TimeoutSignatureMessage → σ
  signTimeoutMessage : TimeoutMessageBody σ → Nat → Nat
  finalizerForEpoch : Nat → Option Nat

inductive SignedMessage (σ : Type) where
  | quorum (message : QuorumMessage σ)
  | timeout (message : TimeoutMessage σ)
deriving DecidableEq, Repr

def SignedMessage.round : SignedMessage σ → Nat
  | .quorum message => message.qmRound
  | .timeout message => message.tmBody.tmRound

inductive Event (σ : Type) where
  | validateBlock (block : BlockPointer) (finalizerIndex : Nat)
  | timerFires
  | advanceRoundWithQuorum (certificate : QuorumCertificate σ)
  | advanceRoundWithTimeout (timeoutRound : Nat) (certificate : QuorumCertificate σ)
  | checkedUpdateHighestCertifiedBlock (certificate : QuorumCertificate σ)
  | restart (rebuilt : RoundStatus σ)

section Steps

variable (context : BakerContext σ)

/-- `validateBlock` on a live block, with the finalizer's index for the block's epoch. -/
def validateBlock (block : BlockPointer) (finalizerIndex : Nat) (node : Node σ) :
    Node σ × Option (SignedMessage σ) :=
  if block.blockRound = node.roundStatus.rsCurrentRound ∧
      prsNextSignableRound node.persistentRoundStatus ≤ block.blockRound ∧
      block.blockEpoch = node.roundStatus.rsCurrentEpoch then
    let signatureMessage : QuorumSignatureMessage :=
      ⟨context.genesisHash, block.bpHash, block.blockRound, block.blockEpoch⟩
    let quorumMessage : QuorumMessage σ :=
      ⟨context.signQuorumSignatureMessage signatureMessage, block.bpHash, finalizerIndex,
        block.blockRound, block.blockEpoch⟩
    ({ node with
        persistentRoundStatus :=
          { node.persistentRoundStatus with prsLastSignedQuorumMessage := some quorumMessage } },
      some (.quorum quorumMessage))
  else (node, none)

/-- `uponTimeoutEvent`: time out the current round with the highest certificate, unless a
message was signed for a higher round. -/
def uponTimeoutEvent (node : Node σ) : Node σ × Option (SignedMessage σ) :=
  if node.isConsensusShutdown then (node, none)
  else
    let highestQC := node.roundStatus.rsHighestCertifiedBlock
    match context.finalizerForEpoch highestQC.qcEpoch with
    | none => (node, none)
    | some finalizerIndex =>
        let curRound := node.roundStatus.rsCurrentRound
        if curRound ≥ prsLastSignedRound node.persistentRoundStatus then
          let timeoutSignature := context.signTimeoutSignatureMessage
            ⟨context.genesisHash, curRound, highestQC.qcRound, highestQC.qcEpoch⟩
          let body : TimeoutMessageBody σ :=
            ⟨finalizerIndex, curRound, node.roundStatus.rsCurrentEpoch, highestQC,
              timeoutSignature⟩
          let timeoutMessage : TimeoutMessage σ :=
            ⟨body, context.signTimeoutMessage body context.genesisHash⟩
          ({ node with
              persistentRoundStatus :=
                { node.persistentRoundStatus with
                  prsLastSignedTimeoutMessage := some timeoutMessage } },
            some (.timeout timeoutMessage))
        else (node, none)

/-- `onNewRound` re-arms the timer (the collected messages it clears are not modelled). -/
def onNewRound (node : Node σ) : Node σ :=
  { node with timerArmed := true }

def advanceRoundWithQuorum (certificate : QuorumCertificate σ) (node : Node σ) : Node σ :=
  let node := onNewRound node
  { node with
    roundStatus :=
      { node.roundStatus with
        rsCurrentRound := Word.add 64 1 certificate.qcRound
        rsPreviousRoundTimeout := none
        rsHighestCertifiedBlock := certificate } }

def advanceRoundWithTimeout (timeoutRound : Nat) (certificate : QuorumCertificate σ)
    (node : Node σ) : Node σ :=
  let node := onNewRound node
  let highest :=
    if node.roundStatus.rsHighestCertifiedBlock.qcRound < certificate.qcRound then certificate
    else node.roundStatus.rsHighestCertifiedBlock
  { node with
    roundStatus :=
      { node.roundStatus with
        rsCurrentRound := Word.add 64 1 timeoutRound
        rsPreviousRoundTimeout := some timeoutRound
        rsHighestCertifiedBlock := highest }
    persistentRoundStatus :=
      { node.persistentRoundStatus with prsLatestTimeout := some timeoutRound } }

def checkedUpdateHighestCertifiedBlock (certificate : QuorumCertificate σ) (node : Node σ) :
    Node σ :=
  if node.roundStatus.rsHighestCertifiedBlock.qcRound < certificate.qcRound then
    { node with roundStatus := { node.roundStatus with rsHighestCertifiedBlock := certificate } }
  else node

/-- A restart keeps the persistent round status, installs the rebuilt round status and runs
`startEvents`, which arms the timer. -/
def restart (rebuilt : RoundStatus σ) (node : Node σ) : Node σ :=
  { node with roundStatus := rebuilt, timerArmed := true }

/-- One event: the new state and the message signed, if any. The timer fires only when it
is armed, and firing disarms it. -/
def step (node : Node σ) : Event σ → Node σ × Option (SignedMessage σ)
  | .validateBlock block finalizerIndex => validateBlock context block finalizerIndex node
  | .timerFires =>
      if node.timerArmed then uponTimeoutEvent context { node with timerArmed := false }
      else (node, none)
  | .advanceRoundWithQuorum certificate => (advanceRoundWithQuorum certificate node, none)
  | .advanceRoundWithTimeout timeoutRound certificate =>
      (advanceRoundWithTimeout timeoutRound certificate node, none)
  | .checkedUpdateHighestCertifiedBlock certificate =>
      (checkedUpdateHighestCertifiedBlock certificate node, none)
  | .restart rebuilt => (restart rebuilt node, none)

/-- The preconditions the callers promise: round advances are to a round at least the
current one, and a restart's round status passes the start-up check. -/
def Admissible (node : Node σ) : Event σ → Prop
  | .advanceRoundWithQuorum certificate =>
      node.roundStatus.rsCurrentRound ≤ certificate.qcRound
  | .advanceRoundWithTimeout timeoutRound _ => node.roundStatus.rsCurrentRound ≤ timeoutRound
  | .restart rebuilt => rebuilt.rsCurrentRound = expectedCurrentRound rebuilt
  | _ => True

instance admissibleDecidable (node : Node σ) : (event : Event σ) → Decidable (Admissible node event)
  | .validateBlock _ _ => inferInstanceAs (Decidable True)
  | .timerFires => inferInstanceAs (Decidable True)
  | .advanceRoundWithQuorum certificate =>
      inferInstanceAs (Decidable (node.roundStatus.rsCurrentRound ≤ certificate.qcRound))
  | .advanceRoundWithTimeout timeoutRound _ =>
      inferInstanceAs (Decidable (node.roundStatus.rsCurrentRound ≤ timeoutRound))
  | .checkedUpdateHighestCertifiedBlock _ => inferInstanceAs (Decidable True)
  | .restart rebuilt =>
      inferInstanceAs (Decidable (rebuilt.rsCurrentRound = expectedCurrentRound rebuilt))

/-- The messages signed by a run, in order, and its final state. -/
def run : Node σ → List (Event σ) → Node σ × List (SignedMessage σ)
  | node, [] => (node, [])
  | node, event :: rest =>
      let next := step context node event
      let continued := run next.1 rest
      (continued.1, next.2.toList ++ continued.2)

def AdmissibleRun : Node σ → List (Event σ) → Prop
  | _, [] => True
  | node, event :: rest =>
      Admissible node event ∧ AdmissibleRun (step context node event).1 rest

/-- The round an event moves the node to is below the top round `2 ^ 64 - 1`, so that the
round after it does not wrap either. -/
def Event.RoundsFit : Event σ → Prop
  | .advanceRoundWithQuorum certificate => certificate.qcRound + 1 < 2 ^ 64 - 1
  | .advanceRoundWithTimeout timeoutRound _ => timeoutRound + 1 < 2 ^ 64 - 1
  | .restart rebuilt => rebuilt.rsCurrentRound < 2 ^ 64 - 1
  | _ => True

/-- The node's current round and its last signed round are below the top round, so that the
next signable round is one past the last signed one. -/
structure Node.BelowTop (node : Node σ) : Prop where
  current : node.roundStatus.rsCurrentRound < 2 ^ 64 - 1
  lastSigned : prsLastSignedRound node.persistentRoundStatus < 2 ^ 64 - 1

/-! ## One step -/

/-- Below the top round, the round after `r` is `1 + r`. -/
theorem nextRound_of_lt {r : Nat} (fits : r < 2 ^ 64 - 1) : Word.add 64 1 r = 1 + r :=
  Word.add_of_lt (by omega)

/-- Two rounds below the top, the round after `r` is still below the top round. -/
theorem nextRound_lt {r : Nat} (fits : r + 1 < 2 ^ 64 - 1) : Word.add 64 1 r < 2 ^ 64 - 1 := by
  rw [nextRound_of_lt (by omega)]
  omega

section LastSigned

variable (status : PersistentRoundStatus σ)

theorem prsNextSignableRound_of_lt (below : prsLastSignedRound status < 2 ^ 64 - 1) :
    prsNextSignableRound status = 1 + prsLastSignedRound status :=
  nextRound_of_lt below

theorem prsLastSignedRound_setQuorum (quorumMessage : QuorumMessage σ)
    (above : prsLastSignedRound status < quorumMessage.qmRound) :
    prsLastSignedRound { status with prsLastSignedQuorumMessage := some quorumMessage } =
      quorumMessage.qmRound := by
  unfold prsLastSignedRound at above ⊢
  simp only [Option.elim_some]
  omega

theorem prsLastSignedRound_setTimeout (timeoutMessage : TimeoutMessage σ)
    (notBelow : prsLastSignedRound status ≤ timeoutMessage.tmBody.tmRound) :
    prsLastSignedRound { status with prsLastSignedTimeoutMessage := some timeoutMessage } =
      timeoutMessage.tmBody.tmRound := by
  unfold prsLastSignedRound at notBelow ⊢
  simp only [Option.elim_some]
  omega

end LastSigned

/-- `validateBlock` either does nothing or signs a quorum message for the block's round, which
is at least the next signable round, and records it. -/
theorem validateBlock_cases (block : BlockPointer) (finalizerIndex : Nat)
    (node : Node σ) :
    validateBlock context block finalizerIndex node = (node, none) ∨
      ∃ quorumMessage : QuorumMessage σ,
        prsNextSignableRound node.persistentRoundStatus ≤ quorumMessage.qmRound ∧
        quorumMessage.qmRound = node.roundStatus.rsCurrentRound ∧
        validateBlock context block finalizerIndex node =
          ({ node with
              persistentRoundStatus :=
                { node.persistentRoundStatus with
                  prsLastSignedQuorumMessage := some quorumMessage } },
            some (.quorum quorumMessage)) := by
  unfold validateBlock
  split_ifs with eligible
  · obtain ⟨sameRound, signable, -⟩ := eligible
    exact .inr ⟨_, signable, sameRound, rfl⟩
  · exact .inl rfl

/-- `uponTimeoutEvent` either does nothing or signs a timeout message for the current round,
with the highest certificate, and records it; the round is at least the last signed one. -/
theorem uponTimeoutEvent_cases (node : Node σ) :
    uponTimeoutEvent context node = (node, none) ∨
      ∃ timeoutMessage : TimeoutMessage σ,
        prsLastSignedRound node.persistentRoundStatus ≤ timeoutMessage.tmBody.tmRound ∧
        timeoutMessage.tmBody.tmRound = node.roundStatus.rsCurrentRound ∧
        timeoutMessage.tmBody.tmQuorumCertificate = node.roundStatus.rsHighestCertifiedBlock ∧
        uponTimeoutEvent context node =
          ({ node with
              persistentRoundStatus :=
                { node.persistentRoundStatus with
                  prsLastSignedTimeoutMessage := some timeoutMessage } },
            some (.timeout timeoutMessage)) := by
  unfold uponTimeoutEvent
  split_ifs with shutdown
  · exact .inl rfl
  cases found : context.finalizerForEpoch node.roundStatus.rsHighestCertifiedBlock.qcEpoch with
  | none => exact .inl (by simp only [found])
  | some finalizerIndex =>
      simp only [found]
      split_ifs with notBelow
      · exact .inr ⟨_, notBelow, rfl, rfl, rfl⟩
      · exact .inl rfl

theorem validateBlock_keeps_round (block : BlockPointer) (finalizerIndex : Nat)
    (node : Node σ) :
    (validateBlock context block finalizerIndex node).1.roundStatus = node.roundStatus ∧
      (validateBlock context block finalizerIndex node).1.timerArmed = node.timerArmed := by
  rcases validateBlock_cases context block finalizerIndex node with
    unchanged | ⟨quorumMessage, -, -, signs⟩
  · rw [unchanged]
    exact ⟨rfl, rfl⟩
  · rw [signs]
    exact ⟨rfl, rfl⟩

theorem uponTimeoutEvent_keeps_round (node : Node σ) :
    (uponTimeoutEvent context node).1.roundStatus = node.roundStatus ∧
      (uponTimeoutEvent context node).1.timerArmed = node.timerArmed := by
  rcases uponTimeoutEvent_cases context node with
    unchanged | ⟨timeoutMessage, -, -, -, signs⟩
  · rw [unchanged]
    exact ⟨rfl, rfl⟩
  · rw [signs]
    exact ⟨rfl, rfl⟩

/-- What one event does to signing below the top round: either it signs nothing and leaves the
last signed round alone, or it signs one message for the current round, at or above the last
signed round (strictly above for a quorum message), which becomes the last signed round. -/
theorem step_cases {node : Node σ} (below : node.BelowTop) (event : Event σ) :
    ((step context node event).2 = none ∧
        prsLastSignedRound (step context node event).1.persistentRoundStatus =
          prsLastSignedRound node.persistentRoundStatus) ∨
      ∃ message, (step context node event).2 = some message ∧
        prsLastSignedRound node.persistentRoundStatus ≤ message.round ∧
        (∀ quorumMessage, message = .quorum quorumMessage →
          prsLastSignedRound node.persistentRoundStatus < message.round) ∧
        prsLastSignedRound (step context node event).1.persistentRoundStatus = message.round ∧
        message.round = node.roundStatus.rsCurrentRound := by
  cases event with
  | validateBlock block finalizerIndex =>
      rcases validateBlock_cases context block finalizerIndex node with
        unchanged | ⟨quorumMessage, signable, current, signs⟩
      · exact .inl (by simp [step, unchanged])
      · -- the next signable round does not wrap: it is one past the last signed round
        have above : prsLastSignedRound node.persistentRoundStatus < quorumMessage.qmRound := by
          rw [prsNextSignableRound_of_lt _ below.lastSigned] at signable
          omega
        refine .inr ⟨.quorum quorumMessage, by simp [step, signs], above.le, fun _ _ => above,
          ?_, current⟩
        simp only [step, signs, SignedMessage.round]
        exact prsLastSignedRound_setQuorum _ quorumMessage above
  | timerFires =>
      by_cases armed : node.timerArmed
      · rcases uponTimeoutEvent_cases context { node with timerArmed := false } with
          unchanged | ⟨timeoutMessage, notBelow, current, -, signs⟩
        · exact .inl (by simp [step, armed, unchanged])
        · refine .inr ⟨.timeout timeoutMessage, by simp [step, armed, signs], notBelow,
            by simp, ?_, current⟩
          simp only [step, armed, if_true, signs, SignedMessage.round]
          exact prsLastSignedRound_setTimeout _ timeoutMessage notBelow
      · exact .inl (by simp [step, armed])
  | advanceRoundWithQuorum certificate => exact .inl ⟨rfl, rfl⟩
  | advanceRoundWithTimeout timeoutRound certificate => exact .inl ⟨rfl, rfl⟩
  | checkedUpdateHighestCertifiedBlock certificate =>
      refine .inl ⟨rfl, ?_⟩
      simp only [step, checkedUpdateHighestCertifiedBlock]
      split_ifs <;> rfl
  | restart rebuilt => exact .inl ⟨rfl, rfl⟩

/-- An event whose rounds fit keeps the node below the top round: a message it signs is for
the current round, and the round it moves to is below the top one. -/
theorem step_belowTop {node : Node σ} {event : Event σ} (below : node.BelowTop)
    (fits : event.RoundsFit) : (step context node event).1.BelowTop := by
  have lastSigned :
      prsLastSignedRound (step context node event).1.persistentRoundStatus < 2 ^ 64 - 1 := by
    rcases step_cases context below event with
      ⟨-, unchanged⟩ | ⟨message, -, -, -, lastSigned, current⟩
    · rw [unchanged]
      exact below.lastSigned
    · rw [lastSigned, current]
      exact below.current
  refine ⟨?_, lastSigned⟩
  cases event with
  | validateBlock block finalizerIndex =>
      rw [step, (validateBlock_keeps_round context block finalizerIndex node).1]
      exact below.current
  | timerFires =>
      by_cases armed : node.timerArmed
      · simp only [step, armed, if_true, (uponTimeoutEvent_keeps_round context _).1]
        exact below.current
      · simp only [step, armed]
        exact below.current
  | advanceRoundWithQuorum certificate => exact nextRound_lt fits
  | advanceRoundWithTimeout timeoutRound certificate => exact nextRound_lt fits
  | checkedUpdateHighestCertifiedBlock certificate =>
      simp only [step, checkedUpdateHighestCertifiedBlock]
      split_ifs
      · exact below.current
      · exact below.current
  | restart rebuilt => exact fits

theorem step_lastSigned_mono {node : Node σ} (below : node.BelowTop) (event : Event σ) :
    prsLastSignedRound node.persistentRoundStatus ≤
      prsLastSignedRound (step context node event).1.persistentRoundStatus := by
  rcases step_cases context below event with
    ⟨-, unchanged⟩ | ⟨message, -, atLeast, -, lastSigned, -⟩
  · exact unchanged.ge
  · rw [lastSigned]
    exact atLeast

theorem step_signed_round {node : Node σ} (below : node.BelowTop) {event : Event σ}
    {message : SignedMessage σ} (signed : (step context node event).2 = some message) :
    prsLastSignedRound node.persistentRoundStatus ≤ message.round ∧
      (∀ quorumMessage, message = .quorum quorumMessage →
        prsLastSignedRound node.persistentRoundStatus < message.round) ∧
      prsLastSignedRound (step context node event).1.persistentRoundStatus = message.round := by
  rcases step_cases context below event with
    ⟨none, -⟩ | ⟨other, some, atLeast, quorumAbove, lastSigned, -⟩
  · rw [none] at signed
    cases signed
  · rw [some, Option.some.injEq] at signed
    subst signed
    exact ⟨atLeast, quorumAbove, lastSigned⟩

/-! ## Whole runs -/

/-- `earlier` and `later` were signed in this order: rounds never decrease, and a quorum
message is for a round above every earlier message. -/
def SignedInOrder (earlier later : SignedMessage σ) : Prop :=
  earlier.round ≤ later.round ∧
    ∀ quorumMessage, later = .quorum quorumMessage → earlier.round < later.round

/-- Every message a run below the top round signs is at or above the last signed round of its
start state, strictly above it for quorum messages. -/
theorem run_signed_above {node : Node σ} (below : node.BelowTop) {events : List (Event σ)}
    (fits : ∀ event ∈ events, event.RoundsFit) :
    ∀ message ∈ (run context node events).2,
      prsLastSignedRound node.persistentRoundStatus ≤ message.round ∧
        ∀ quorumMessage, message = .quorum quorumMessage →
          prsLastSignedRound node.persistentRoundStatus < message.round := by
  induction events generalizing node with
  | nil => simp [run]
  | cons event rest inductionHypothesis =>
      intro message member
      simp only [run, List.mem_append] at member
      have mono := step_lastSigned_mono context below event
      obtain ⟨firstFits, restFits⟩ := List.forall_mem_cons.mp fits
      have stillBelow := step_belowTop context below firstFits
      rcases member with here | later
      · obtain ⟨atLeast, quorumAbove, -⟩ :=
          step_signed_round context below (Option.mem_toList.mp here)
        exact ⟨atLeast, quorumAbove⟩
      · obtain ⟨atLeast, quorumAbove⟩ := inductionHypothesis stillBelow restFits message later
        exact ⟨le_trans mono atLeast,
          fun quorumMessage isQuorum => lt_of_le_of_lt mono (quorumAbove quorumMessage isQuorum)⟩

/-- **Signing order.** Over every run below the top round, with any interleaving of round
advances, certificate updates and restarts: the rounds of successive signed messages never
decrease, and every quorum message is for a round strictly above all messages signed before it.
In particular no two quorum messages share a round, and no quorum message is signed for a round
`r` after a timeout message for a round `≥ r`. -/
theorem run_signedInOrder {node : Node σ} (below : node.BelowTop) {events : List (Event σ)}
    (fits : ∀ event ∈ events, event.RoundsFit) :
    (run context node events).2.Pairwise SignedInOrder := by
  induction events generalizing node with
  | nil => simp [run]
  | cons event rest inductionHypothesis =>
      obtain ⟨firstFits, restFits⟩ := List.forall_mem_cons.mp fits
      have stillBelow := step_belowTop context below firstFits
      simp only [run]
      rw [List.pairwise_append]
      refine ⟨?_, inductionHypothesis stillBelow restFits, ?_⟩
      · cases (step context node event).2 <;> simp
      · -- the message of the first step is the last signed one when the rest starts
        intro earlier earlierMember later laterMember
        obtain ⟨-, -, lastSigned⟩ :=
          step_signed_round context below (Option.mem_toList.mp earlierMember)
        obtain ⟨atLeast, quorumAbove⟩ :=
          run_signed_above context stillBelow restFits later laterMember
        rw [lastSigned] at atLeast quorumAbove
        exact ⟨atLeast, quorumAbove⟩

/-! ## Timeouts without restarts

The timer is one-shot: firing disarms it and only a round advance re-arms it, and round
advances go strictly up. So without a restart the node times out each round at most once. -/

def Event.IsRestart : Event σ → Prop
  | .restart _ => True
  | _ => False

def SignedMessage.IsTimeout : SignedMessage σ → Prop
  | .timeout _ => True
  | .quorum _ => False

/-- The lowest round the node can next time out: the current round while the timer is
armed, the round after it once the timer has fired. -/
def nextTimeoutRound (node : Node σ) : Nat :=
  if node.timerArmed then node.roundStatus.rsCurrentRound
  else node.roundStatus.rsCurrentRound + 1

/-- One admissible event other than a restart, whose rounds fit, never lowers
`nextTimeoutRound`, and a timeout message it signs is for exactly that round, after which the
bound moves past it. -/
theorem step_nextTimeoutRound {node : Node σ} {event : Event σ}
    (admissible : Admissible node event) (fits : event.RoundsFit)
    (notRestart : ¬ event.IsRestart) :
    nextTimeoutRound node ≤ nextTimeoutRound (step context node event).1 ∧
      ∀ message, (step context node event).2 = some message → message.IsTimeout →
        message.round = nextTimeoutRound node ∧
          nextTimeoutRound (step context node event).1 = message.round + 1 := by
  cases event with
  | validateBlock block finalizerIndex =>
      obtain ⟨sameStatus, sameTimer⟩ := validateBlock_keeps_round context block finalizerIndex node
      refine ⟨by simp [step, nextTimeoutRound, sameStatus, sameTimer], ?_⟩
      intro message signed isTimeout
      rcases validateBlock_cases context block finalizerIndex node with
        unchanged | ⟨quorumMessage, -, -, signs⟩
      · simp [step, unchanged] at signed
      · simp only [step, signs, Option.some.injEq] at signed
        subst signed
        exact isTimeout.elim
  | timerFires =>
      by_cases armed : node.timerArmed
      · obtain ⟨sameStatus, sameTimer⟩ :=
          uponTimeoutEvent_keeps_round context { node with timerArmed := false }
        have bound : nextTimeoutRound (step context node .timerFires).1 =
            node.roundStatus.rsCurrentRound + 1 := by
          simp [step, armed, nextTimeoutRound, sameStatus, sameTimer]
        refine ⟨by rw [bound]; simp [nextTimeoutRound, armed], ?_⟩
        intro message signed isTimeout
        rcases uponTimeoutEvent_cases context { node with timerArmed := false } with
          unchanged | ⟨timeoutMessage, -, currentRound, -, signs⟩
        · simp [step, armed, unchanged] at signed
        · simp only [step, armed, if_true, signs, Option.some.injEq] at signed
          subst signed
          have timeoutRound : (SignedMessage.timeout timeoutMessage).round =
              node.roundStatus.rsCurrentRound := currentRound
          rw [bound, timeoutRound]
          simp [nextTimeoutRound, armed]
      · refine ⟨by simp [step, armed], ?_⟩
        intro message signed
        simp [step, armed] at signed
  | advanceRoundWithQuorum certificate =>
      have later : node.roundStatus.rsCurrentRound ≤ certificate.qcRound := admissible
      have advanced : certificate.qcRound + 1 < 2 ^ 64 - 1 := fits
      refine ⟨?_, by simp [step]⟩
      simp only [step, advanceRoundWithQuorum, onNewRound, nextTimeoutRound, if_true,
        nextRound_of_lt (show certificate.qcRound < 2 ^ 64 - 1 by omega)]
      split_ifs <;> omega
  | advanceRoundWithTimeout timeoutRound certificate =>
      have later : node.roundStatus.rsCurrentRound ≤ timeoutRound := admissible
      have advanced : timeoutRound + 1 < 2 ^ 64 - 1 := fits
      refine ⟨?_, by simp [step]⟩
      simp only [step, advanceRoundWithTimeout, onNewRound, nextTimeoutRound, if_true,
        nextRound_of_lt (show timeoutRound < 2 ^ 64 - 1 by omega)]
      split_ifs <;> omega
  | checkedUpdateHighestCertifiedBlock certificate =>
      refine ⟨?_, by simp [step]⟩
      simp only [step, checkedUpdateHighestCertifiedBlock]
      split_ifs
      · simp [nextTimeoutRound]
      · exact le_refl _
  | restart rebuilt => exact (notRestart trivial).elim

theorem run_timeout_above {node : Node σ} {events : List (Event σ)}
    (admissible : AdmissibleRun context node events) (fits : ∀ event ∈ events, event.RoundsFit)
    (noRestart : ∀ event ∈ events, ¬ event.IsRestart) :
    ∀ message ∈ (run context node events).2, message.IsTimeout →
      nextTimeoutRound node ≤ message.round := by
  induction events generalizing node with
  | nil => simp [run]
  | cons event rest inductionHypothesis =>
      obtain ⟨first, later⟩ := admissible
      obtain ⟨firstFits, restFits⟩ := List.forall_mem_cons.mp fits
      obtain ⟨firstNoRestart, restNoRestart⟩ := List.forall_mem_cons.mp noRestart
      have stepBound := step_nextTimeoutRound context first firstFits firstNoRestart
      intro message member isTimeout
      simp only [run, List.mem_append] at member
      rcases member with here | inRest
      · exact (stepBound.2 _ (Option.mem_toList.mp here) isTimeout).1.ge
      · have restBound := inductionHypothesis later restFits restNoRestart message inRest isTimeout
        exact le_trans stepBound.1 restBound

/-- Without restarts, the timeout messages of an admissible run below the top round are for
strictly increasing rounds: the node never signs two timeout messages for one round. -/
theorem run_timeouts_increase {node : Node σ} {events : List (Event σ)}
    (admissible : AdmissibleRun context node events) (fits : ∀ event ∈ events, event.RoundsFit)
    (noRestart : ∀ event ∈ events, ¬ event.IsRestart) :
    (run context node events).2.Pairwise
      (fun earlier later => earlier.IsTimeout → later.IsTimeout → earlier.round < later.round) := by
  induction events generalizing node with
  | nil => simp [run]
  | cons event rest inductionHypothesis =>
      obtain ⟨first, later⟩ := admissible
      obtain ⟨firstFits, restFits⟩ := List.forall_mem_cons.mp fits
      obtain ⟨firstNoRestart, restNoRestart⟩ := List.forall_mem_cons.mp noRestart
      have stepBound := step_nextTimeoutRound context first firstFits firstNoRestart
      simp only [run]
      rw [List.pairwise_append]
      refine ⟨?_, inductionHypothesis later restFits restNoRestart, ?_⟩
      · cases (step context node event).2 <;> simp
      · -- the first timeout moves the bound past its round, and the rest stays above it
        intro earlier earlierMember laterMessage laterMember earlierTimeout laterTimeout
        have moved := (stepBound.2 _ (Option.mem_toList.mp earlierMember) earlierTimeout).2
        have above := run_timeout_above context later restFits restNoRestart laterMessage
          laterMember laterTimeout
        omega

end Steps

instance admissibleRunDecidable (context : BakerContext σ) :
    (node : Node σ) → (events : List (Event σ)) → Decidable (AdmissibleRun context node events)
  | _, [] => inferInstanceAs (Decidable True)
  | node, event :: rest =>
      have := admissibleRunDecidable context (step context node event).1 rest
      inferInstanceAs (Decidable (Admissible node event ∧ _))

/-! ## A second timeout message for one round after a restart

From genesis the node advances to round 5 by a timeout certificate for round 4 whose
certified block is of round 2, and times out round 5. It then learns a certified block of
round 3 (a block of round 5 whose parent it certifies), which updates the highest certificate
without advancing the round. After a restart the rebuilt round status is again round 5
(from the persisted timeout certificate), with the round-3 certificate as the highest.
`startEvents` arms the timer, and `uponTimeoutEvent` admits the equal round. -/

def restartContext : BakerContext Nat where
  genesisHash := 0
  signQuorumSignatureMessage message := message.qsmRound
  signTimeoutSignatureMessage message := 100 * message.tsmQCRound + message.tsmRound
  signTimeoutMessage body _ := body.tmRound
  finalizerForEpoch _ := some 0

def roundCertificate (round : Nat) : QuorumCertificate Nat :=
  ⟨round, round, 0, 0, emptyFinalizerSet⟩

def genesisNode : Node Nat where
  isConsensusShutdown := false
  roundStatus := ⟨1, 0, roundCertificate 0, none⟩
  persistentRoundStatus := initialPersistentRoundStatus
  timerArmed := true

def restartEvents : List (Event Nat) :=
  [.advanceRoundWithTimeout 4 (roundCertificate 2), .timerFires,
    .checkedUpdateHighestCertifiedBlock (roundCertificate 3),
    .restart ⟨5, 0, roundCertificate 3, some 4⟩, .timerFires]

theorem uponTimeoutEvent_signs_round_twice_after_restart :
    AdmissibleRun restartContext genesisNode restartEvents ∧
      ∃ first second : TimeoutMessage Nat,
        (run restartContext genesisNode restartEvents).2 = [.timeout first, .timeout second] ∧
        first.tmBody.tmRound = 5 ∧ second.tmBody.tmRound = 5 ∧ first ≠ second := by
  refine ⟨by decide, _, _, rfl, rfl, rfl, by decide⟩

/-! ## Two rounds from genesis -/

/-- From genesis the node signs the block of round `1` and times the round out, advances by a
timeout certificate for round `1`, and signs the block of round `2` and times that round out. -/
def signAndTimeOutEvents : List (Event Nat) :=
  [.validateBlock ⟨3, 1, 0⟩ 0, .timerFires, .advanceRoundWithTimeout 1 (roundCertificate 0),
    .validateBlock ⟨4, 2, 0⟩ 0, .timerFires]

theorem run_signedInOrder_on_two_rounds :
    genesisNode.BelowTop ∧ (∀ event ∈ signAndTimeOutEvents, event.RoundsFit) ∧
      (run restartContext genesisNode signAndTimeOutEvents).2.map SignedMessage.round =
        [1, 1, 2, 2] ∧
      (run restartContext genesisNode signAndTimeOutEvents).2.Pairwise SignedInOrder := by
  have below : genesisNode.BelowTop := ⟨by decide, by decide⟩
  have fits : ∀ event ∈ signAndTimeOutEvents, event.RoundsFit := by
    simp [signAndTimeOutEvents, Event.RoundsFit]
  exact ⟨below, fits, rfl, run_signedInOrder restartContext below fits⟩

/-- From genesis the node times out round `1`, advances by a timeout certificate for round `1`
and times out round `2`. -/
def twoTimeoutsEvents : List (Event Nat) :=
  [.timerFires, .advanceRoundWithTimeout 1 (roundCertificate 0), .timerFires]

theorem run_timeouts_increase_on_two_rounds :
    AdmissibleRun restartContext genesisNode twoTimeoutsEvents ∧
      (∀ event ∈ twoTimeoutsEvents, event.RoundsFit) ∧
      (∀ event ∈ twoTimeoutsEvents, ¬ event.IsRestart) ∧
      ((run restartContext genesisNode twoTimeoutsEvents).2.map SignedMessage.round = [1, 2]) ∧
      (run restartContext genesisNode twoTimeoutsEvents).2.Pairwise
        (fun earlier later => earlier.IsTimeout → later.IsTimeout → earlier.round < later.round) := by
  have admissible : AdmissibleRun restartContext genesisNode twoTimeoutsEvents := by decide
  have fits : ∀ event ∈ twoTimeoutsEvents, event.RoundsFit := by
    simp [twoTimeoutsEvents, Event.RoundsFit]
  have noRestart : ∀ event ∈ twoTimeoutsEvents, ¬ event.IsRestart := by
    simp [twoTimeoutsEvents, Event.IsRestart]
  exact ⟨admissible, fits, noRestart, rfl,
    run_timeouts_increase restartContext admissible fits noRestart⟩

end Concordium.KonsensusV1.Consensus.RoundSigning
