import Mathlib.Order.WithBot
import Concordium.Afgjort.PartySet
import Concordium.Afgjort.Types
import Concordium.Afgjort.WMVBA
import Concordium.Afgjort.WMVBA.Summary
import Concordium.Library.Emit
import Concordium.Library.Transition

/-!
Contract: the Freeze protocol of `Concordium.Afgjort.Freeze`: the state of one party, and the
handlers that record proposals and votes, justify them, and output the decision, in the source's
order.

Owns:
- `FreezeInstance`, whose corrupt weight is below a third of the total weight, as the source
  requires of it, and whose total weight, a `VoterPower`, is at least that of all its parties;
  `FreezeState`, `initialFreezeState` and `FreezeOutputEvent`;
- each handler in `Freeze`, the `Emit` monad over the state and the output events, the instance
  an argument: `addProposal`, `justifyVote`, `addVote`, `justifyDecision` (with `whenAddToSet` of
  the base library's `Concordium.Utils`), `doVote` with `determineVote`, `doFinish`, `propose`,
  `justifyCandidate`, `receiveFreezeMessage` and `isProposalJustified`; the writes through the
  state's lenses are `setProposal`, `setVote`, `modifyJustifiedProposers`,
  `modifyJustifiedVoters` and `countJustifiedProposal`;
- `freezeSummary`, and `processFreezeSummary` with the two halves of its loop, `doProposals` and
  `doVotes`;
- `FreezeInput`, `FreezeNode`, `stepFreeze` and `FreezeReachable`: the operations of a party as
  one machine, whose node also holds every event output so far, and the nodes its runs reach.

Does not own: the messages (`Concordium.Afgjort.WMVBA`), the summary and its format
(`Concordium.Afgjort.WMVBA.Summary`), or the invariants (`Concordium.Afgjort.Freeze.Safety`).
A `Maybe Val` is a `WithBot`, whose order puts `Nothing` below every value, as Haskell's `Ord`
does, so that `Set.toDescList` lists it last. Weights are `VoterPower` words, added as
`Concordium.Afgjort.PartySet` adds them; since the parties' weights together stay below the
total weight, no sum of them wraps (`FreezeInstance.weightsFit`), and the source's `Word64`
subtractions `totalWeight - corruptWeight` and `totalWeight - 2 * corruptWeight` do not wrap,
since the corrupt weight is below a third of the total. A set is a map to `Unit`.
-/

set_option autoImplicit false
set_option linter.dupNamespace false

namespace Concordium.Afgjort.Freeze

open Concordium.Afgjort.WMVBA (FreezeMessage)
open Emit

/-- `FreezeInstance`: the total weight, the greatest weight of the corrupt parties, each party's
weight, and our own party. -/
structure FreezeInstance where
  totalWeight : Nat
  corruptWeight : Nat
  partyWeight : Nat → Nat
  me : Nat
  /-- The corrupt weight "must be less than `totalWeight/3`". -/
  corruptWeight_lt : 3 * corruptWeight < totalWeight
  /-- The total weight is that of all the parties, so any parties weigh at most it. -/
  weights_le_total : ∀ parties : Finset Nat, ∑ p ∈ parties, partyWeight p ≤ totalWeight
  /-- The total weight is a `VoterPower`. -/
  totalWeight_lt : totalWeight < 2 ^ 64

/-- The weights of any parties of an instance together fit a `VoterPower`, so the weights of the
party sets and maps of the protocol are their exact sums. -/
theorem FreezeInstance.weightsFit (inst : FreezeInstance) : WeightsFit inst.partyWeight :=
  fun parties => lt_of_le_of_lt (inst.weights_le_total parties) inst.totalWeight_lt

variable {val sig : Type} [LinearOrder val]

/-- `FreezeState`. A proposal and a vote carry whether it is justified, and the parties that made
it with their signatures. -/
structure FreezeState (val sig : Type) [LinearOrder val] where
  proposals : AscMap val (Bool × PartyMap sig)
  justifiedProposers : PartySet
  distinctJustifiedProposals : Nat
  votes : AscMap (WithBot val) (Bool × PartyMap sig)
  justifiedVoters : PartySet
  justifiedDecisions : AscMap (WithBot val) Unit
  completed : Bool

def initialFreezeState : FreezeState val sig :=
  ⟨AscMap.empty, PartySet.empty, 0, AscMap.empty, PartySet.empty, AscMap.empty, false⟩

inductive FreezeOutputEvent (val : Type) where
  | SendFreezeMessage (message : FreezeMessage val)
  | Frozen (decision : WithBot val)
  | DecisionJustified (decision : WithBot val)
deriving DecidableEq

/-- The state monad of the handlers, with the events they output. -/
abbrev Freeze (val sig : Type) [LinearOrder val] :=
  Emit (FreezeState val sig) (FreezeOutputEvent val)

/-! ## Writes through the lenses -/

/-- `proposals . at value ?= entry`. -/
def setProposal (value : val) (entry : Bool × PartyMap sig) : Freeze val sig Unit :=
  modify fun st => { st with proposals := st.proposals.insert value entry }

/-- `votes . at vote ?= entry`. -/
def setVote (vote : WithBot val) (entry : Bool × PartyMap sig) : Freeze val sig Unit :=
  modify fun st => { st with votes := st.votes.insert vote entry }

/-- `justifiedProposers <%= change`: the changed set, also returned. -/
def modifyJustifiedProposers (change : PartySet → PartySet) : Freeze val sig PartySet :=
  modifyGet fun st =>
    (change st.justifiedProposers, { st with justifiedProposers := change st.justifiedProposers })

/-- `justifiedVoters <%= change`: the changed set, also returned. -/
def modifyJustifiedVoters (change : PartySet → PartySet) : Freeze val sig PartySet :=
  modifyGet fun st =>
    (change st.justifiedVoters, { st with justifiedVoters := change st.justifiedVoters })

/-- `distinctJustifiedProposals <%= (1 +)`. -/
def countJustifiedProposal : Freeze val sig Nat :=
  modifyGet fun st =>
    (1 + st.distinctJustifiedProposals,
      { st with distinctJustifiedProposals := 1 + st.distinctJustifiedProposals })

/-! ## The protocol -/

section Handlers

variable (inst : FreezeInstance)

/-- `justifyDecision`, through `whenAddToSet`: a decision not yet justified is added to the
justified ones, and announced. -/
def justifyDecision (decision : WithBot val) : Freeze val sig Unit := do
  let theSet := (← get).justifiedDecisions
  unless (theSet.lookup decision).isSome do
    modify fun st => { st with justifiedDecisions := theSet.insert decision () }
    tell (.DecisionJustified decision)

/-- `determineVote` of `doVote`: the least value whose proposal is justified and made by parties
of weight at least `totalWeight - corruptWeight`. -/
def determineVote : List (val × Bool × PartyMap sig) → Option val
  | [] => none
  | (_, false, _) :: rs => determineVote rs
  | (value, true, parties) :: rs =>
    if parties.weight ≥ inst.totalWeight - inst.corruptWeight then some value
    else determineVote rs

/-- Send a vote, unless we are a justified voter already. -/
def doVote : Freeze val sig Unit := do
  let vtrs := (← get).justifiedVoters
  unless vtrs.member inst.me do
    let vote := determineVote inst (← get).proposals.toAscList
    tell (.SendFreezeMessage (.Vote vote))

/-- Output the greatest justified decision, once. -/
def doFinish : Freeze val sig Unit := do
  let alreadyCompleted := (← get).completed
  modify fun st => { st with completed := true }
  unless alreadyCompleted do
    match (← get).justifiedDecisions.keys.reverse with
    -- too much corruption
    | [] => modify fun st => { st with completed := false }
    | res :: _ => tell (.Frozen res)

/-- Justify a vote: its parties become justified voters, it may become a justified decision, and
the protocol may finish. -/
def justifyVote (vote : WithBot val) : Freeze val sig Unit := do
  match (← get).votes.lookup vote with
  | none => setVote vote (true, PartyMap.empty)
  | some (false, parties) =>
    setVote vote (true, parties)
    let newJustifiedVoters ←
      modifyJustifiedVoters (PartySet.union inst.partyWeight parties.keysSet)
    if parties.weight > inst.corruptWeight then justifyDecision vote
    if newJustifiedVoters.weight ≥ inst.totalWeight - inst.corruptWeight then doFinish
  | some (true, _) => pure ()

/-- Record a vote; a vote that is justified may then become a justified decision, and the protocol
may finish. -/
def addVote (party : Nat) (vote : WithBot val) (signature : sig) : Freeze val sig Unit := do
  if inst.partyWeight party > 0 then
    match (← get).votes.lookup vote with
    | none => setVote vote (false, PartyMap.singleton party (inst.partyWeight party) signature)
    | some (false, parties) =>
      setVote vote (false, parties.insert party (inst.partyWeight party) signature)
    | some (true, parties) =>
      let newParties := parties.insert party (inst.partyWeight party) signature
      setVote vote (true, newParties)
      let newJustifiedVoters ←
        modifyJustifiedVoters (PartySet.insert party (inst.partyWeight party))
      if newParties.weight > inst.corruptWeight then justifyDecision vote
      if newJustifiedVoters.weight ≥ inst.totalWeight - inst.corruptWeight then doFinish

/-- Record a proposal; one of a justified candidate may justify votes, and lead us to vote. -/
def addProposal (party : Nat) (value : val) (signature : sig) : Freeze val sig Unit := do
  if inst.partyWeight party > 0 then
    match (← get).proposals.lookup value with
    | none =>
      setProposal value (false, PartyMap.singleton party (inst.partyWeight party) signature)
    | some (isCandidate, parties) =>
      unless parties.member party do
        let newParties := parties.insert party (inst.partyWeight party) signature
        setProposal value (isCandidate, newParties)
        if isCandidate then
          let newJustifiedProposers ←
            modifyJustifiedProposers (PartySet.insert party (inst.partyWeight party))
          let currJProps ← if parties.weight = 0 then countJustifiedProposal
            else pure (← get).distinctJustifiedProposals
          if currJProps ≥ 2 ∧ newJustifiedProposers.size ≥ 2 then justifyVote inst ⊥
          if newParties.weight ≥ inst.totalWeight - 2 * inst.corruptWeight then
            justifyVote inst (value : WithBot val)
          if newJustifiedProposers.weight ≥ inst.totalWeight - inst.corruptWeight then
            doVote inst

/-- Propose a candidate, unless we are a justified proposer already. -/
def propose (candidate : val) : Freeze val sig Unit := do
  let pps := (← get).justifiedProposers
  unless pps.member inst.me do
    tell (.SendFreezeMessage (.Proposal candidate))

/-- Justify a value as a candidate: its proposals become justified, which may justify votes, and
lead us to vote. -/
def justifyCandidate (value : val) : Freeze val sig Unit := do
  match (← get).proposals.lookup value with
  | none => setProposal value (true, PartyMap.empty)
  | some (false, parties) =>
    setProposal value (true, parties)
    if parties.weight > 0 then
      let newJustifiedProposers ←
        modifyJustifiedProposers (PartySet.union inst.partyWeight parties.keysSet)
      let currJProps ← countJustifiedProposal
      if parties.weight ≥ inst.totalWeight - 2 * inst.corruptWeight then
        justifyVote inst (value : WithBot val)
      if currJProps ≥ 2 ∧ newJustifiedProposers.size ≥ 2 then justifyVote inst ⊥
      if newJustifiedProposers.weight ≥ inst.totalWeight - inst.corruptWeight then doVote inst
  | some (true, _) => pure ()

def receiveFreezeMessage (party : Nat) : FreezeMessage val → sig → Freeze val sig Unit
  | .Proposal value, signature => addProposal inst party value signature
  | .Vote vote, signature => addVote inst party vote signature

def isProposalJustified (value : val) : Freeze val sig Bool := do
  match (← get).proposals.lookup value with
  | some (true, _) => pure true
  | _ => pure false

end Handlers

/-! ## Summaries -/

/-- `vs` of `freezeSummary`: the parties of a justified vote, none for another. -/
def freezeSummary.vs (st : FreezeState val sig) (vote : WithBot val) : AscMap Nat sig :=
  match st.votes.lookup vote with
  | some (true, pm) => pm.partyMap
  | _ => AscMap.empty

/-- `makePV` of `freezeSummary`: a justified proposal made by some weight, with the justified votes
for its value. -/
def freezeSummary.makePV (st : FreezeState val sig) (k : val) :
    Bool × PartyMap sig → Option (AscMap Nat sig × AscMap Nat sig)
  | (false, _) => none
  | (true, ps) => if ps.weight = 0 then none else some (ps.partyMap, freezeSummary.vs st k)

/-- The justified messages of the state. -/
def freezeSummary (st : FreezeState val sig) : FreezeSummary val sig where
  summaryProposalsVotes := st.proposals.mapMaybeWithKey (freezeSummary.makePV st)
  summaryBotVotes := freezeSummary.vs st ⊥

section Summary

variable [DecidableEq sig] (inst : FreezeInstance)
  (checkSig : Nat → FreezeMessage val → sig → Bool)

/-- The proposals half of the loop of `processFreezeSummary`: the proposals of a value we have
not seen and whose signatures are valid are added. We are behind when the value is justified for
us and we have valid proposals for it that the summary lacks, and we need to catch up when it is
not justified for us. -/
def doProposals (value : val) (props : AscMap Nat sig) : Freeze val sig CatchUpResult := do
  let checkProposalSig := fun party signature => checkSig party (.Proposal value) signature
  if props.null then pure CatchUpResult.empty
  else
    match (← get).proposals.lookup value with
    | some (b, parties) =>
      let myProps := parties.partyMap
      let newProposals := (props.difference myProps).filterWithKey checkProposalSig
      newProposals.toAscList.forM fun entry => addProposal inst entry.1 value entry.2
      pure ⟨b && !(myProps.differenceWithKey (fun party x y =>
        if decide (x = y) || checkProposalSig party y then none else some x) props).null, !b⟩
    | none =>
      let newProposals := props.filterWithKey checkProposalSig
      newProposals.toAscList.forM fun entry => addProposal inst entry.1 value entry.2
      pure ⟨false, !newProposals.null⟩

/-- `doVotes` of `processFreezeSummary`: the votes for `jval` we have not seen and whose
signatures are valid are added, and reported as the proposals are. -/
def doVotes (jval : WithBot val) (vts : AscMap Nat sig) : Freeze val sig CatchUpResult := do
  let checkVoteSig := fun party signature => checkSig party (.Vote jval) signature
  if vts.null then pure CatchUpResult.empty
  else
    match (← get).votes.lookup jval with
    | some (b, parties) =>
      let myVotes := parties.partyMap
      let newVotes := (vts.difference myVotes).filterWithKey checkVoteSig
      newVotes.toAscList.forM fun entry => addVote inst entry.1 jval entry.2
      pure ⟨b && !(myVotes.differenceWithKey (fun party x y =>
        if decide (x = y) || checkVoteSig party y then none else some x) vts).null, !b⟩
    | none =>
      let newVotes := vts.filterWithKey checkVoteSig
      newVotes.toAscList.forM fun entry => addVote inst entry.1 jval entry.2
      pure ⟨false, !newVotes.null⟩

/-- Process a summary: the new messages are handled, and the result says whether we have more to
offer. -/
def processFreezeSummary (summary : FreezeSummary val sig) : Freeze val sig CatchUpResult := do
  let r1 ← summary.summaryProposalsVotes.toAscList.mapM fun entry => do
    let r1props ← doProposals inst checkSig entry.1 entry.2.1
    let r1votes ← doVotes inst checkSig (entry.1 : WithBot val) entry.2.2
    pure (r1props.append r1votes)
  let r2 ← doVotes inst checkSig ⊥ summary.summaryBotVotes
  pure ((CatchUpResult.concat r1).append r2)

end Summary

/-! ## The machine -/

/-- The operations of a Freeze instance. -/
inductive FreezeInput (val sig : Type) [LinearOrder val] where
  | justifyCandidate (value : val)
  | propose (candidate : val)
  | receiveFreezeMessage (party : Nat) (message : FreezeMessage val) (signature : sig)
  | processFreezeSummary (summary : FreezeSummary val sig)
      (checkSig : Nat → FreezeMessage val → sig → Bool)

/-- The state of an instance, with every event it has output. -/
structure FreezeNode (val sig : Type) [LinearOrder val] where
  state : FreezeState val sig
  output : List (FreezeOutputEvent val)

def initialFreezeNode : FreezeNode val sig :=
  ⟨initialFreezeState, []⟩

/-- The node after a handler: its state, and its events after those output before. -/
def FreezeNode.after {α : Type} (node : FreezeNode val sig) (m : Freeze val sig α) :
    FreezeNode val sig :=
  ⟨(m.run node.state).2.1, node.output ++ (m.run node.state).2.2⟩

section Machine

variable [DecidableEq sig] (inst : FreezeInstance)

def stepFreeze (node : FreezeNode val sig) : FreezeInput val sig → FreezeNode val sig
  | .justifyCandidate value => node.after (justifyCandidate inst value)
  | .propose candidate => node.after (propose inst candidate)
  | .receiveFreezeMessage party message signature =>
    node.after (receiveFreezeMessage inst party message signature)
  | .processFreezeSummary summary checkSig =>
    node.after (processFreezeSummary inst checkSig summary)

/-- One operation, whichever comes next. -/
def FreezeStep (node next : FreezeNode val sig) : Prop :=
  ∃ input, stepFreeze inst node input = next

/-- The nodes that runs from `initialFreezeNode` reach, in any order of operations. -/
def FreezeReachable (node : FreezeNode val sig) : Prop :=
  Relation.ReflTransGen (FreezeStep inst) initialFreezeNode node

end Machine

end Concordium.Afgjort.Freeze
