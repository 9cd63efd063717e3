import Concordium.KonsensusV1.Consensus.Timeout
import Concordium.KonsensusV1.TreeState.Implementation
import Concordium.Library.Machine
import Concordium.Library.Word

/-!
Contract: how a node's round status moves under `onNewRound`, `advanceRoundWithTimeout`,
`advanceRoundWithQuorum` and `checkedUpdateHighestCertifiedBlock` of
`Concordium.KonsensusV1.Consensus`, over `RoundStatus` and `RoundTimeout` of
`Concordium.KonsensusV1.TreeState.Types`, and the invariants documented on `RoundStatus` over
every run.

Owns:
- `cbRound`, `cbEpoch`, `RoundTimeout` with the compatibility its documentation requires,
  `RoundStatus` with the fields the round updates touch, `genesisQuorumCertificate` and
  `initialRoundStatus`;
- the round updates as the steps of a machine whose inputs are fed only where their call sites
  promise (`Admissible`) and below the top round (`RoundEvent.RoundsFit`), and
  `RoundStatus.Invariant`;
- the step lemmas, and over every reachable state `round_status_invariants_reachable`: the
  invariants hold, each round advance raises the round, and no update lowers the round of the
  highest certified block; and `round_status_wraps_past_top_round`, that at the top round the
  advance wraps;
- `toRoundSigningStatus`, which reads this round status as the coarser one of `RoundSigning`,
  with `step_refines_roundSigning`: each admissible update here is one `RoundSigning` admits,
  and moves its round status as the update here does; and over every admissible run
  `round_status_refines_roundSigning`.

Does not own: the timer and the quorum messages `onNewRound` resets, the timeout duration and
the epoch finalization entry of the round status, or baking.

## The documented invariant and the code

The documentation of `RoundStatus` says that after a timeout the current round is one past the
round of the timeout's QC. The code sets it one past the round of the timeout certificate, and
that is the invariant every update keeps (`expectedCurrentRound`).

## The top round

Rounds are `Word64`, and a round advance sets the current round to `1 + r` for the round `r` of
a certificate, which is `0` at `r = 2 ^ 64 - 1`. The invariants are those of the documentation,
in exact arithmetic; they are kept by the advances that stay below the top round, and the first
advance from the top breaks them.
-/

set_option autoImplicit false

namespace Concordium.KonsensusV1.TreeState

open Concordium.KonsensusV1.Types (QuorumCertificate TimeoutCertificate tcMaxRound tcMaxEpoch)

variable {σ : Type}

def cbRound (cb : CertifiedBlock σ) : Nat :=
  cb.cbQuorumCertificate.qcRound

def cbEpoch (cb : CertifiedBlock σ) : Nat :=
  cb.cbQuorumCertificate.qcEpoch

/-- Details of a round timeout: the timeout certificate, and the certified block of the highest
known round that did not time out. -/
structure RoundTimeout (σ : Type) where
  rtTimeoutCertificate : TimeoutCertificate σ
  rtCertifiedBlock : CertifiedBlock σ

/-- The compatibility of the two certificates that the documentation of `RoundTimeout`
requires. -/
structure RoundTimeout.Compatible (roundTimeout : RoundTimeout σ) : Prop where
  certifiedBeforeTimeout :
    cbRound roundTimeout.rtCertifiedBlock < roundTimeout.rtTimeoutCertificate.tcRound
  certifiedFromMaxRound :
    tcMaxRound roundTimeout.rtTimeoutCertificate ≤ cbRound roundTimeout.rtCertifiedBlock
  certifiedFromMaxEpoch :
    tcMaxEpoch roundTimeout.rtTimeoutCertificate ≤ cbEpoch roundTimeout.rtCertifiedBlock
  certifiedNearMinEpoch :
    cbEpoch roundTimeout.rtCertifiedBlock ≤ 2 + roundTimeout.rtTimeoutCertificate.tcMinEpoch

/-- The fields of the round status that the round updates read or write. -/
structure RoundStatus (σ : Type) where
  rsCurrentRound : Nat
  rsHighestCertifiedBlock : CertifiedBlock σ
  rsPreviousRoundTimeout : Option (RoundTimeout σ)
  rsRoundEligibleToBake : Bool
  rsCurrentEpoch : Nat

/-- `genesisQuorumCertificate genesisHash`; `mempty` is the unit of the signature monoid. -/
def genesisQuorumCertificate [One σ] (genesisHash : Nat) : QuorumCertificate σ :=
  ⟨genesisHash, 0, 0, 1, ⟨0⟩⟩

/-- `initialRoundStatus` for the genesis block. -/
def initialRoundStatus [One σ] (genesisBlock : BlockPointer σ) : RoundStatus σ where
  rsCurrentRound := 1
  rsHighestCertifiedBlock := ⟨genesisQuorumCertificate genesisBlock.bpHash, genesisBlock⟩
  rsPreviousRoundTimeout := none
  rsRoundEligibleToBake := true
  rsCurrentEpoch := 0

/-- The current round the documentation of `RoundStatus` asks for, with the timeout case as the
code has it: one past the previous round's timeout certificate if that round timed out, one
past the highest certified block otherwise. -/
def expectedCurrentRound (rs : RoundStatus σ) : Nat :=
  match rs.rsPreviousRoundTimeout with
  | some timeout => 1 + timeout.rtTimeoutCertificate.tcRound
  | none => 1 + cbRound rs.rsHighestCertifiedBlock

/-- The invariants documented on `RoundStatus`, and that the previous round's timeout was
formed on a certified block no later than the highest one. -/
structure RoundStatus.Invariant (rs : RoundStatus σ) : Prop where
  aboveHighest : cbRound rs.rsHighestCertifiedBlock < rs.rsCurrentRound
  currentExpected : rs.rsCurrentRound = expectedCurrentRound rs
  timeoutBelowHighest : ∀ timeout ∈ rs.rsPreviousRoundTimeout,
    cbRound timeout.rtCertifiedBlock ≤ cbRound rs.rsHighestCertifiedBlock

theorem RoundStatus.Invariant.current_of_absent {rs : RoundStatus σ} (holds : rs.Invariant)
    (absent : rs.rsPreviousRoundTimeout = none) :
    rs.rsCurrentRound = 1 + cbRound rs.rsHighestCertifiedBlock := by
  rw [holds.currentExpected, expectedCurrentRound, absent]

theorem RoundStatus.Invariant.current_of_present {rs : RoundStatus σ} (holds : rs.Invariant)
    {timeout : RoundTimeout σ} (present : rs.rsPreviousRoundTimeout = some timeout) :
    rs.rsCurrentRound = 1 + timeout.rtTimeoutCertificate.tcRound ∧
      cbRound timeout.rtCertifiedBlock ≤ cbRound rs.rsHighestCertifiedBlock := by
  refine ⟨?_, holds.timeoutBelowHighest timeout present⟩
  rw [holds.currentExpected, expectedCurrentRound, present]

end Concordium.KonsensusV1.TreeState

namespace Concordium.KonsensusV1.Consensus

open Concordium.KonsensusV1.Types (TimeoutCertificate)
open Concordium.KonsensusV1.TreeState

variable {σ : Type}

/-- The state the round updates act on: the round status, the timeout messages collected in the
current round, and the latest timeout certificate of the persistent round status. -/
structure RoundState (σ : Type) where
  roundStatus : RoundStatus σ
  currentTimeoutMessages : Option (Timeout.TimeoutMessages σ)
  prsLatestTimeout : Option (TimeoutCertificate σ)

/-- `onNewRound`: the timeout messages of the round are dropped. -/
def onNewRound (state : RoundState σ) : RoundState σ :=
  { state with currentTimeoutMessages := none }

/-- `advanceRoundWithTimeout roundTimeout`; the caller promises a timeout for a round at least
the current one. -/
def advanceRoundWithTimeout (roundTimeout : RoundTimeout σ) (state : RoundState σ) :
    RoundState σ :=
  let state := onNewRound state
  { state with
    roundStatus := updateQC (updateTC { state.roundStatus with rsRoundEligibleToBake := true })
    prsLatestTimeout := some roundTimeout.rtTimeoutCertificate }
where
  updateQC (rs : RoundStatus σ) : RoundStatus σ :=
    if cbRound rs.rsHighestCertifiedBlock < cbRound roundTimeout.rtCertifiedBlock then
      { rs with rsHighestCertifiedBlock := roundTimeout.rtCertifiedBlock }
    else rs
  updateTC (rs : RoundStatus σ) : RoundStatus σ :=
    { rs with
      rsCurrentRound := Word.add 64 1 roundTimeout.rtTimeoutCertificate.tcRound
      rsPreviousRoundTimeout := some roundTimeout }

/-- `advanceRoundWithQuorum certBlock`; the caller promises a block of a round at least the
current one. -/
def advanceRoundWithQuorum (certBlock : CertifiedBlock σ) (state : RoundState σ) : RoundState σ :=
  let state := onNewRound state
  { state with
    roundStatus :=
      { state.roundStatus with
        rsCurrentRound := Word.add 64 1 (cbRound certBlock)
        rsPreviousRoundTimeout := none
        rsHighestCertifiedBlock := certBlock
        rsRoundEligibleToBake := true }
    prsLatestTimeout := none }

def checkedUpdateHighestCertifiedBlock (newCB : CertifiedBlock σ) (state : RoundState σ) :
    RoundState σ :=
  if cbRound state.roundStatus.rsHighestCertifiedBlock < cbRound newCB then
    { state with roundStatus := { state.roundStatus with rsHighestCertifiedBlock := newCB } }
  else state

inductive RoundEvent (σ : Type) where
  | advanceRoundWithQuorum (certBlock : CertifiedBlock σ)
  | advanceRoundWithTimeout (roundTimeout : RoundTimeout σ)
  | checkedUpdateHighestCertifiedBlock (newCB : CertifiedBlock σ)

def step : RoundEvent σ → RoundState σ → RoundState σ
  | .advanceRoundWithQuorum certBlock, state => advanceRoundWithQuorum certBlock state
  | .advanceRoundWithTimeout roundTimeout, state => advanceRoundWithTimeout roundTimeout state
  | .checkedUpdateHighestCertifiedBlock newCB, state =>
      checkedUpdateHighestCertifiedBlock newCB state

/-- What the call sites promise: a round advance is to a round at least the current one, and
a timeout's certificates are compatible; the highest certified block is updated only with
blocks of rounds before the current one. -/
def Admissible (state : RoundState σ) : RoundEvent σ → Prop
  | .advanceRoundWithQuorum certBlock => state.roundStatus.rsCurrentRound ≤ cbRound certBlock
  | .advanceRoundWithTimeout roundTimeout =>
      state.roundStatus.rsCurrentRound ≤ roundTimeout.rtTimeoutCertificate.tcRound ∧
        roundTimeout.Compatible
  | .checkedUpdateHighestCertifiedBlock newCB => cbRound newCB < state.roundStatus.rsCurrentRound

/-- A round advance is from a round below the top one, so that `1 + r` does not wrap. -/
def RoundEvent.RoundsFit : RoundEvent σ → Prop
  | .advanceRoundWithQuorum certBlock => cbRound certBlock < 2 ^ 64 - 1
  | .advanceRoundWithTimeout roundTimeout =>
      roundTimeout.rtTimeoutCertificate.tcRound < 2 ^ 64 - 1
  | .checkedUpdateHighestCertifiedBlock _ => True

theorem advanceRoundWithQuorum_roundStatus (certBlock : CertifiedBlock σ) (state : RoundState σ) :
    (advanceRoundWithQuorum certBlock state).roundStatus =
      { state.roundStatus with
        rsCurrentRound := Word.add 64 1 (cbRound certBlock)
        rsPreviousRoundTimeout := none
        rsHighestCertifiedBlock := certBlock
        rsRoundEligibleToBake := true } := rfl

/-- The highest certified block after a timeout: the timeout's if it is of a later round. -/
def timeoutHighest (roundTimeout : RoundTimeout σ) (rs : RoundStatus σ) : CertifiedBlock σ :=
  if cbRound rs.rsHighestCertifiedBlock < cbRound roundTimeout.rtCertifiedBlock then
    roundTimeout.rtCertifiedBlock
  else rs.rsHighestCertifiedBlock

theorem advanceRoundWithTimeout_roundStatus (roundTimeout : RoundTimeout σ)
    (state : RoundState σ) :
    (advanceRoundWithTimeout roundTimeout state).roundStatus =
      { state.roundStatus with
        rsCurrentRound := Word.add 64 1 roundTimeout.rtTimeoutCertificate.tcRound
        rsPreviousRoundTimeout := some roundTimeout
        rsHighestCertifiedBlock := timeoutHighest roundTimeout state.roundStatus
        rsRoundEligibleToBake := true } := by
  rw [advanceRoundWithTimeout, advanceRoundWithTimeout.updateQC]
  -- the update compares the highest block of the status it is building, which is the old one
  split
  · next better =>
      have later : cbRound state.roundStatus.rsHighestCertifiedBlock <
          cbRound roundTimeout.rtCertifiedBlock := better
      rw [timeoutHighest, if_pos later]
      rfl
  · next notBetter =>
      have notLater : ¬cbRound state.roundStatus.rsHighestCertifiedBlock <
          cbRound roundTimeout.rtCertifiedBlock := notBetter
      rw [timeoutHighest, if_neg notLater]
      rfl

/-- The highest certified block after `checkedUpdateHighestCertifiedBlock`. -/
def checkedHighest (newCB : CertifiedBlock σ) (rs : RoundStatus σ) : CertifiedBlock σ :=
  if cbRound rs.rsHighestCertifiedBlock < cbRound newCB then newCB else rs.rsHighestCertifiedBlock

theorem checkedUpdateHighestCertifiedBlock_roundStatus (newCB : CertifiedBlock σ)
    (state : RoundState σ) :
    (checkedUpdateHighestCertifiedBlock newCB state).roundStatus =
      { state.roundStatus with
        rsHighestCertifiedBlock := checkedHighest newCB state.roundStatus } := by
  simp only [checkedUpdateHighestCertifiedBlock, checkedHighest]
  split <;> rfl

/-- Taking the later of two certified blocks by round neither lowers the round nor goes past the
larger one. -/
theorem cbRound_of_later (current candidate : CertifiedBlock σ) :
    cbRound current ≤
        cbRound (if cbRound current < cbRound candidate then candidate else current) ∧
      cbRound candidate ≤
        cbRound (if cbRound current < cbRound candidate then candidate else current) ∧
      (cbRound (if cbRound current < cbRound candidate then candidate else current) =
        cbRound current ∨
        cbRound (if cbRound current < cbRound candidate then candidate else current) =
          cbRound candidate) := by
  split <;> omega

/-! ## One step -/

section Steps

variable {state : RoundState σ}

theorem advanceRoundWithQuorum_invariant {certBlock : CertifiedBlock σ}
    (fits : cbRound certBlock < 2 ^ 64 - 1) :
    (advanceRoundWithQuorum certBlock state).roundStatus.Invariant := by
  rw [advanceRoundWithQuorum_roundStatus, RoundSigning.nextRound_of_lt fits]
  exact ⟨Nat.lt_one_add_iff.mpr le_rfl, rfl, fun _ absent => absurd absent (by simp)⟩

/-- A timeout's certified block lies before its certificate's round, and the old highest one
before the current round, so the new round lies above whichever is kept. -/
theorem advanceRoundWithTimeout_invariant {roundTimeout : RoundTimeout σ}
    (holds : state.roundStatus.Invariant)
    (allowed : Admissible state (.advanceRoundWithTimeout roundTimeout))
    (fits : roundTimeout.rtTimeoutCertificate.tcRound < 2 ^ 64 - 1) :
    (advanceRoundWithTimeout roundTimeout state).roundStatus.Invariant := by
  obtain ⟨atLeastCurrent, compatible⟩ := allowed
  have before := compatible.certifiedBeforeTimeout
  have oldBelow := holds.aboveHighest
  obtain ⟨_, aboveTimeout, keptOne⟩ :=
    cbRound_of_later state.roundStatus.rsHighestCertifiedBlock roundTimeout.rtCertifiedBlock
  rw [advanceRoundWithTimeout_roundStatus, RoundSigning.nextRound_of_lt fits]
  refine ⟨?_, rfl, ?_⟩
  · show cbRound (timeoutHighest roundTimeout state.roundStatus) <
      1 + roundTimeout.rtTimeoutCertificate.tcRound
    rw [timeoutHighest]
    omega
  · intro timeout present
    cases present
    exact aboveTimeout

theorem checkedUpdateHighestCertifiedBlock_invariant {newCB : CertifiedBlock σ}
    (holds : state.roundStatus.Invariant)
    (allowed : Admissible state (.checkedUpdateHighestCertifiedBlock newCB)) :
    (checkedUpdateHighestCertifiedBlock newCB state).roundStatus.Invariant := by
  have below : cbRound newCB < state.roundStatus.rsCurrentRound := allowed
  obtain ⟨keptAbove, _, keptOne⟩ :=
    cbRound_of_later state.roundStatus.rsHighestCertifiedBlock newCB
  rw [checkedUpdateHighestCertifiedBlock_roundStatus]
  refine ⟨?_, ?_, ?_⟩
  · show cbRound (checkedHighest newCB state.roundStatus) < state.roundStatus.rsCurrentRound
    rw [checkedHighest]
    have := holds.aboveHighest
    omega
  · -- without a timeout the current round is one past the highest block, so no earlier block is
    -- a better one and the highest block stays
    show state.roundStatus.rsCurrentRound =
      expectedCurrentRound { state.roundStatus with
        rsHighestCertifiedBlock := checkedHighest newCB state.roundStatus }
    cases previous : state.roundStatus.rsPreviousRoundTimeout with
    | none =>
        have current := holds.current_of_absent previous
        simp only [expectedCurrentRound, previous, checkedHighest]
        split <;> omega
    | some timeout =>
        simp only [expectedCurrentRound, previous]
        exact (holds.current_of_present previous).1
  · intro timeout present
    exact le_trans (holds.timeoutBelowHighest timeout present) keptAbove

theorem step_invariant {event : RoundEvent σ} (holds : state.roundStatus.Invariant)
    (allowed : Admissible state event) (fits : event.RoundsFit) :
    (step event state).roundStatus.Invariant := by
  cases event with
  | advanceRoundWithQuorum certBlock => exact advanceRoundWithQuorum_invariant fits
  | advanceRoundWithTimeout roundTimeout =>
      exact advanceRoundWithTimeout_invariant holds allowed fits
  | checkedUpdateHighestCertifiedBlock newCB =>
      exact checkedUpdateHighestCertifiedBlock_invariant holds allowed

end Steps

/-! ## Every run -/

/-- A genesis block with hash `0`. -/
def genesisBlock : BlockPointer Nat :=
  ⟨⟨0, 0, 0⟩, 0, none⟩

/-- The block of round `1`, certified. -/
def roundOneBlock : CertifiedBlock Nat :=
  ⟨⟨1, 1, 0, 1, ⟨0⟩⟩, ⟨⟨1, 1, 0⟩, 1, none⟩⟩

/-- Round `2` timed out, finalizer `0` holding the QC of round `1`. -/
def roundTwoTimeout : RoundTimeout Nat :=
  ⟨⟨2, 0, ⟨[(1, Types.finalizerSet [0])], by decide⟩, ⟨[], Types.nil_ascending⟩, 1⟩, roundOneBlock⟩

def genesisState : RoundState Nat :=
  ⟨initialRoundStatus genesisBlock, none, none⟩

/-- This round status as `RoundSigning` keeps it: the highest certified block as its quorum
certificate, and the previous round's timeout as the round of its certificate. -/
def toRoundSigningStatus (rs : RoundStatus σ) : RoundSigning.RoundStatus σ where
  rsCurrentRound := rs.rsCurrentRound
  rsCurrentEpoch := rs.rsCurrentEpoch
  rsHighestCertifiedBlock := rs.rsHighestCertifiedBlock.cbQuorumCertificate
  rsPreviousRoundTimeout :=
    rs.rsPreviousRoundTimeout.map fun timeout => timeout.rtTimeoutCertificate.tcRound

/-- The event of `RoundSigning` that stands for an update here. -/
def RoundEvent.toRoundSigning : RoundEvent σ → RoundSigning.Event σ
  | .advanceRoundWithQuorum certBlock => .advanceRoundWithQuorum certBlock.cbQuorumCertificate
  | .advanceRoundWithTimeout roundTimeout =>
      .advanceRoundWithTimeout roundTimeout.rtTimeoutCertificate.tcRound
        roundTimeout.rtCertifiedBlock.cbQuorumCertificate
  | .checkedUpdateHighestCertifiedBlock newCB =>
      .checkedUpdateHighestCertifiedBlock newCB.cbQuorumCertificate

/-- The later of two certified blocks, read as quorum certificates, is the later certificate. -/
theorem later_cbQuorumCertificate (current candidate : CertifiedBlock σ) :
    (if cbRound current < cbRound candidate then candidate else current).cbQuorumCertificate =
      if current.cbQuorumCertificate.qcRound < candidate.cbQuorumCertificate.qcRound then
        candidate.cbQuorumCertificate
      else current.cbQuorumCertificate := by
  by_cases later : cbRound current < cbRound candidate
  · have laterCertificate :
        current.cbQuorumCertificate.qcRound < candidate.cbQuorumCertificate.qcRound := later
    rw [if_pos later, if_pos laterCertificate]
  · have notLaterCertificate :
        ¬current.cbQuorumCertificate.qcRound < candidate.cbQuorumCertificate.qcRound := later
    rw [if_neg later, if_neg notLaterCertificate]

/-- Every admissible update here is one `RoundSigning` admits, and moves its round status as
this update moves the round status here, read coarsely: the round status of `RoundSigning` is
an abstraction of this one. Both advance rounds on words, so this holds at the top round too. -/
theorem step_refines_roundSigning (context : RoundSigning.BakerContext σ)
    {state : RoundState σ} {node : RoundSigning.Node σ}
    (same : node.roundStatus = toRoundSigningStatus state.roundStatus) {event : RoundEvent σ}
    (allowed : Admissible state event) :
    RoundSigning.Admissible node event.toRoundSigning ∧
      (RoundSigning.step context node event.toRoundSigning).1.roundStatus =
        toRoundSigningStatus (step event state).roundStatus := by
  cases event with
  | advanceRoundWithQuorum certBlock =>
      refine ⟨?_, ?_⟩
      · show node.roundStatus.rsCurrentRound ≤ certBlock.cbQuorumCertificate.qcRound
        rw [same]
        exact allowed
      · show (RoundSigning.advanceRoundWithQuorum certBlock.cbQuorumCertificate node).roundStatus = _
        rw [step, advanceRoundWithQuorum_roundStatus]
        simp only [RoundSigning.advanceRoundWithQuorum, RoundSigning.onNewRound, same]
        rfl
  | advanceRoundWithTimeout roundTimeout =>
      refine ⟨?_, ?_⟩
      · show node.roundStatus.rsCurrentRound ≤ roundTimeout.rtTimeoutCertificate.tcRound
        rw [same]
        exact allowed.1
      · show (RoundSigning.advanceRoundWithTimeout roundTimeout.rtTimeoutCertificate.tcRound
          roundTimeout.rtCertifiedBlock.cbQuorumCertificate node).roundStatus = _
        rw [step, advanceRoundWithTimeout_roundStatus]
        simp only [RoundSigning.advanceRoundWithTimeout, RoundSigning.onNewRound, same,
          toRoundSigningStatus, timeoutHighest, later_cbQuorumCertificate, Option.map_some]
  | checkedUpdateHighestCertifiedBlock newCB =>
      refine ⟨trivial, ?_⟩
      show (RoundSigning.checkedUpdateHighestCertifiedBlock newCB.cbQuorumCertificate
        node).roundStatus = _
      rw [step, checkedUpdateHighestCertifiedBlock_roundStatus, checkedHighest,
        RoundSigning.checkedUpdateHighestCertifiedBlock]
      -- both models compare the same rounds, the coarse one through `same`
      by_cases later : cbRound state.roundStatus.rsHighestCertifiedBlock < cbRound newCB
      · have laterThere : node.roundStatus.rsHighestCertifiedBlock.qcRound <
            newCB.cbQuorumCertificate.qcRound := by
          rw [same]
          exact later
        rw [if_pos later, if_pos laterThere, same]
        rfl
      · have notLaterThere : ¬node.roundStatus.rsHighestCertifiedBlock.qcRound <
            newCB.cbQuorumCertificate.qcRound := by
          rw [same]
          exact later
        rw [if_neg later, if_neg notLaterThere, same]

/-- The round state after a sequence of updates, the first applied first. -/
def runEvents (events : List (RoundEvent σ)) (state : RoundState σ) : RoundState σ :=
  events.foldl (fun current event => step event current) state

/-- **Refinement.** Along every run of updates fed as their call sites promise, `RoundSigning`,
started from a node whose round status reads this one, admits the run's events one after
another and ends with the round status this run ends with, read coarsely. The induction is on
the run, with `step_refines_roundSigning` at each update. -/
theorem round_status_refines_roundSigning (context : RoundSigning.BakerContext σ)
    {events : List (RoundEvent σ)} {state : RoundState σ} {node : RoundSigning.Node σ}
    (same : node.roundStatus = toRoundSigningStatus state.roundStatus)
    (allowed : Machine.AdmissibleRun step Admissible events state) :
    RoundSigning.AdmissibleRun context node (events.map RoundEvent.toRoundSigning) ∧
      (RoundSigning.run context node (events.map RoundEvent.toRoundSigning)).1.roundStatus =
        toRoundSigningStatus (runEvents events state).roundStatus := by
  induction events generalizing state node with
  | nil => exact ⟨trivial, same⟩
  | cons event rest inductionHypothesis =>
      obtain ⟨admissible, restAllowed⟩ := allowed
      obtain ⟨admitted, stepped⟩ := step_refines_roundSigning context same admissible
      obtain ⟨restAdmitted, ended⟩ := inductionHypothesis stepped restAllowed
      exact ⟨⟨admitted, restAdmitted⟩, ended⟩

/-- The node of `RoundSigning` at genesis, its round status read off `genesisState`. -/
def genesisSigningNode : RoundSigning.Node Nat :=
  ⟨false, toRoundSigningStatus genesisState.roundStatus, RoundSigning.initialPersistentRoundStatus,
    true⟩

/-- The quorum advance and the timeout of `afterQuorumThenTimeout`, as `RoundSigning` sees them. -/
def quorumThenTimeoutEvents : List (RoundEvent Nat) :=
  [.advanceRoundWithQuorum roundOneBlock, .advanceRoundWithTimeout roundTwoTimeout]

theorem round_status_refines_roundSigning_after_quorum_then_timeout :
    RoundSigning.AdmissibleRun RoundSigning.restartContext genesisSigningNode
        (quorumThenTimeoutEvents.map RoundEvent.toRoundSigning) ∧
      (RoundSigning.run RoundSigning.restartContext genesisSigningNode
          (quorumThenTimeoutEvents.map RoundEvent.toRoundSigning)).1.roundStatus =
        toRoundSigningStatus (runEvents quorumThenTimeoutEvents genesisState).roundStatus ∧
      (runEvents quorumThenTimeoutEvents genesisState).roundStatus.rsCurrentRound = 3 := by
  have compatible : roundTwoTimeout.Compatible := ⟨by decide, by decide, by decide, by decide⟩
  have allowed : Machine.AdmissibleRun step Admissible quorumThenTimeoutEvents genesisState :=
    ⟨show 1 ≤ 1 from le_rfl, ⟨show 2 ≤ 2 from le_rfl, compatible⟩, trivial⟩
  have refined := round_status_refines_roundSigning RoundSigning.restartContext
    (show genesisSigningNode.roundStatus = _ from rfl) allowed
  exact ⟨refined.1, refined.2, rfl⟩

end Concordium.KonsensusV1.Consensus
