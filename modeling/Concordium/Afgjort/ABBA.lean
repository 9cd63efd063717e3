import Mathlib.Data.Prod.Lex
import Concordium.Afgjort.CSS.State
import Concordium.Afgjort.WMVBA
import Concordium.Afgjort.WMVBA.Summary
import Concordium.Library.Emit

/-!
Contract: the ABBA state machine of `Concordium.Afgjort.ABBA`, one CSS instance a phase:
`PhaseState`, `ABBAState`, and the handlers `beginABBA`, `justifyABBAChoice`,
`receiveABBAMessage`, `triggerABBAAction` and `processABBASummary`, in the source's order.

Owns:
- `Ticket` and `checkTicketProof` of `Concordium.Afgjort.Lottery`, over the VRF, which the
  instance gives (`ABBAInstance`); `addChoice` of `Concordium.Afgjort.Types`;
- `PhaseState`, `ABBAState`, the lens `phaseState` (`ABBAState.phaseState`, written through by
  `modifyPhaseState`), `DelayedABBAAction` and `ABBAOutputEvent`;
- each handler in `ABBA`, the `Emit` monad over the state and the output events, the instance an
  argument: `liftCSSReceiveMessage`, `liftCSSJustifyChoice` and `liftCSSFinishReporting` run CSS
  on a phase that has begun and buffer what comes before, `handleCSSEvents`, `handleJustified`,
  `beginPhase`, `handleCoreSet` with its two `error`s as `HandleCoreSetError`, and the summary's
  phases processed by `processPhaseSummary`;
- `ABBANode` and `stepABBA`: the five operations as one machine whose state also holds the
  delays output whose actions have not fired, any of which may fire next; `ABBAReachable`, the
  nodes a run reaches from `initialABBANode`.

Does not own: CSS (`Concordium.Afgjort.CSS.State`), the invariants
(`Concordium.Afgjort.ABBA.Tickets`), or `abbaSummary`, which nothing here reads. The phase
states, a map from phases that the handlers read and write key by key, are a function of the
phase. Weights are numbers, as in CSS. Ticket values are `Double`s, which the source compares
by `Ord`; here they are of any linearly ordered type, as the values a VRF hash gives are.
`liftMsg` has no `Input` case where the source has `undefined`: CSS sends no `Input`
(`Settles.noInput`). A signature check of a summary reads the message without its ticket
proof, where the source passes `undefined` for it.
-/

set_option autoImplicit false
set_option linter.dupNamespace false

namespace Concordium.Afgjort.ABBA

open Concordium.Afgjort.CSS Concordium.Afgjort.WMVBA Emit

/-- `Phase`, a `Word32`. -/
abbrev Phase := UInt32

/-- `addChoice`: the choices justified so far, `some none` once both are. -/
def addChoice (c : Bool) : Option (Option Bool) → Option (Option Bool)
  | none => some (some c)
  | some none => some none
  | some (some c') => if c = c' then some (some c') else some none

/-! ## The lottery and the instance -/

structure Ticket (value proof : Type) where
  ticketValue : value
  ticketProof : proof

/-- `ABBAInstance`, with the lottery of each phase through its VRF: `lotteryId phase` is the
instance identifier `baid` and the phase, and `pubKeys` and `privateKey` are the keys. -/
structure ABBAInstance (value proof : Type) where
  totalWeight : Nat
  corruptWeight : Nat
  partyWeight : Nat → Nat
  maxParty : Nat
  /-- `VRF.verify (pubKeys party) ("AL" <> lotteryId phase)` on the proof. -/
  verifyLottery : Phase → Nat → proof → Bool
  /-- `calculateTicketValue`: the value of a proof, for a weight and the total weight. -/
  calculateTicketValue : proof → Nat → Nat → value
  /-- `makeTicketProof (lotteryId phase) privateKey`: our own ticket proof for `phase`. -/
  makeTicketProof : Phase → proof

variable {sig value proof : Type}

/-- `checkTicketProof (lotteryId phase) (pubKeys party) tp (partyWeight party) totalWeight`. -/
def checkTicketProof (inst : ABBAInstance value proof) (phase : Phase) (party : Nat) (tp : proof) :
    Option (Ticket value proof) :=
  if inst.verifyLottery phase party tp then
    some ⟨inst.calculateTicketValue tp (inst.partyWeight party) inst.totalWeight, tp⟩
  else none

/-- The CSS instance of a phase. -/
def ABBAInstance.cssInstance (inst : ABBAInstance value proof) : CSSInstance :=
  ⟨inst.totalWeight, inst.corruptWeight, inst.partyWeight⟩

/-! ## The state -/

variable [LinearOrder value]

structure PhaseState (sig value proof : Type) [LinearOrder value] where
  lotteryTickets : AscMap (value ×ₗ Nat) (Ticket value proof)
  /-- Before the phase begins, the choices justified and the messages received for it; then
  its CSS state. -/
  phaseCSSState : (Option (Option Bool) × List (Nat × CSSMessage × sig)) ⊕ CSSState sig
  /-- `_topInputWeight` and `_botInputWeight`: the parties nominating each choice, `none` once
  they weigh more than `corruptWeight`. -/
  inputWeight : Bool → Option PartySet

def initialPhaseState : PhaseState sig value proof where
  lotteryTickets := AscMap.empty
  phaseCSSState := .inl (none, [])
  inputWeight := fun _ => some PartySet.empty

structure ABBAState (sig value proof : Type) [LinearOrder value] where
  currentPhase : Phase
  phaseStates : Phase → Option (PhaseState sig value proof)
  currentGrade : UInt8
  /-- `_topWeAreDone` and `_botWeAreDone`. -/
  weAreDone : Bool → PartyMap sig
  completed : Bool

def initialABBAState : ABBAState sig value proof where
  currentPhase := 0
  phaseStates := Function.update (fun _ => none) 0
    (some { (initialPhaseState : PhaseState sig value proof) with
      phaseCSSState := .inr initialCSSState })
  currentGrade := 0
  weAreDone := fun _ => PartyMap.empty
  completed := false

/-- The lens `phaseState p`: the state of phase `p`, the initial one where there is none. -/
def ABBAState.phaseState (st : ABBAState sig value proof) (p : Phase) :
    PhaseState sig value proof :=
  (st.phaseStates p).getD initialPhaseState

/-- Writing through `phaseState p`. -/
def ABBAState.setPhaseState (st : ABBAState sig value proof) (p : Phase)
    (ps : PhaseState sig value proof) : ABBAState sig value proof :=
  { st with phaseStates := Function.update st.phaseStates p (some ps) }

inductive DelayedABBAAction where
  | HandleCoreSet (phase : Phase) (cs : NominationSet)
  | CSSFinishReporting (phase : Phase)
  | CompletePhase (phase : Phase) (nextBit : Bool) (grade : UInt8)
deriving DecidableEq, Repr

inductive ABBAOutputEvent (proof : Type) where
  | SendABBAMessage (message : ABBAMessage proof)
  | ABBAComplete (choice : Bool)
  | ABBADelay (ticks : UInt32) (action : DelayedABBAAction)
deriving DecidableEq

/-- The state monad of the handlers, with the events they output. -/
abbrev ABBA (sig value proof : Type) [LinearOrder value] :=
  Emit (ABBAState sig value proof) (ABBAOutputEvent proof)

/-- The two `error`s of `handleCoreSet`. -/
inductive HandleCoreSetError where
  | wrongPhase (phase currentPhase : Phase)
  | noLotteryTicket
deriving DecidableEq, Repr

def HandleCoreSetError.message : HandleCoreSetError → String
  | .wrongPhase phase currentPhase =>
    "handleCoreSet on phase " ++ toString phase ++ " but current phase is " ++
      toString currentPhase
  | .noLotteryTicket => "Finalization failure: no lottery ticket could be verified"

/-! ## The handlers -/

section Handlers

variable (inst : ABBAInstance value proof)

/-- `phaseState p %= change`. -/
def modifyPhaseState (p : Phase) (change : PhaseState sig value proof → PhaseState sig value proof) :
    ABBA sig value proof Unit :=
  modify fun st => st.setPhaseState p (change (st.phaseState p))

/-- `phaseState p . phaseCSSState .= s`. -/
def setPhaseCSSState (p : Phase)
    (s : (Option (Option Bool) × List (Nat × CSSMessage × sig)) ⊕ CSSState sig) :
    ABBA sig value proof Unit :=
  modifyPhaseState p fun ps => { ps with phaseCSSState := s }

/-- `liftMsg` of `handleCSSEvents`. -/
def liftMsg (phase : Phase) : CSSMessage → Option (ABBAMessage proof)
  | .input _ => none
  | .seen ns => some (.CSSSeen phase ns)
  | .doneReporting cs => some (.CSSDoneReporting phase cs)

def handleCSSEvents (phase : Phase) : List CSSOutputEvent → ABBA sig value proof Unit
  | [] => pure ()
  | .SendCSSMessage m :: evs => do
    match liftMsg phase m with
    | some msg => tell (.SendABBAMessage msg)
    | none => pure ()
    handleCSSEvents phase evs
  | .SelectCoreSet cs :: evs => do
    tell (.ABBADelay phase (.HandleCoreSet phase cs))
    handleCSSEvents phase evs
  | .WaitThenFinishReporting :: evs => do
    tell (.ABBADelay phase (.CSSFinishReporting phase))
    handleCSSEvents phase evs

def liftCSSReceiveMessage (phase : Phase) (src : Nat) (msg : CSSMessage) (signature : sig) :
    ABBA sig value proof Unit := do
  match ((← get).phaseState phase).phaseCSSState with
  | .inl (justif, msgs) => setPhaseCSSState phase (.inl (justif, msgs ++ [(src, msg, signature)]))
  | .inr cssstate =>
    let result := receiveCSSMessage inst.cssInstance inst.maxParty src msg signature cssstate
    setPhaseCSSState phase (.inr result.1)
    handleCSSEvents phase result.2

def liftCSSJustifyChoice (phase : Phase) (c : Bool) : ABBA sig value proof Unit := do
  match ((← get).phaseState phase).phaseCSSState with
  | .inl (justif, msgs) => setPhaseCSSState phase (.inl (addChoice c justif, msgs))
  | .inr cssstate =>
    let result := justifyChoice inst.cssInstance inst.maxParty c cssstate
    setPhaseCSSState phase (.inr result.1)
    handleCSSEvents phase result.2

def liftCSSFinishReporting (phase : Phase) : ABBA sig value proof Unit := do
  match ((← get).phaseState phase).phaseCSSState with
  | .inl _ => pure ()
  | .inr cssstate =>
    let result := finishReporting cssstate
    setPhaseCSSState phase (.inr result.1)
    handleCSSEvents phase result.2

def unlessCompleted (a : ABBA sig value proof Unit) : ABBA sig value proof Unit := do
  unless (← get).completed do a

def beginABBA (c : Bool) : ABBA sig value proof Unit :=
  unlessCompleted do
    if (← get).currentPhase = 0 then
      tell (.SendABBAMessage (.Justified 0 c (inst.makeTicketProof 0)))

def justifyABBAChoice (c : Bool) : ABBA sig value proof Unit :=
  unlessCompleted (liftCSSJustifyChoice inst 0 c)

/-- The input of `src` for `c` in `phase` is recorded with its ticket, and counted towards
justifying `c` in the next phase. -/
def handleJustified (src : Nat) (phase : Phase) (ticket : Ticket value proof) (c : Bool)
    (signature : sig) : ABBA sig value proof Unit := do
  liftCSSReceiveMessage inst phase src (.input c) signature
  modifyPhaseState phase fun ps =>
    { ps with lotteryTickets := ps.lotteryTickets.insert (toLex (ticket.ticketValue, src)) ticket }
  match ((← get).phaseState phase).inputWeight c with
  | none => pure ()
  | some ps =>
    let inserted := ps.insertLookup src (inst.partyWeight src)
    unless inserted.1 do
      if inserted.2.weight > inst.corruptWeight then
        modifyPhaseState phase fun pst =>
          { pst with inputWeight := Function.update pst.inputWeight c none }
        liftCSSJustifyChoice inst (phase + 1) c
      else
        modifyPhaseState phase fun pst =>
          { pst with inputWeight := Function.update pst.inputWeight c (some inserted.2) }

def receiveABBAMessage (src : Nat) : ABBAMessage proof → sig → ABBA sig value proof Unit
  | .Justified phase c ticketProof, signature =>
    unlessCompleted do
      match checkTicketProof inst phase src ticketProof with
      | none => pure ()
      | some ticket => handleJustified inst src phase ticket c signature
  | .CSSSeen phase ns, signature =>
    unlessCompleted (liftCSSReceiveMessage inst phase src (.seen ns) signature)
  | .CSSDoneReporting phase m, signature =>
    unlessCompleted (liftCSSReceiveMessage inst phase src (.doneReporting m) signature)
  | .WeAreDone c, signature =>
    unlessCompleted do
      let oldWAD := (← get).weAreDone c
      unless oldWAD.member src do
        let newWAD := oldWAD.insert src (inst.partyWeight src) signature
        modify fun st => { st with weAreDone := Function.update st.weAreDone c newWAD }
        if newWAD.weight ≥ inst.totalWeight - inst.corruptWeight ∧
            oldWAD.weight < inst.totalWeight - inst.corruptWeight then
          modify fun st => { st with completed := true }
          tell (.ABBAComplete c)

/-- Start CSS for the phase, and pass it everything received for it so far. -/
def beginPhase (phase : Phase) : ABBA sig value proof Unit := do
  match ((← get).phaseState phase).phaseCSSState with
  | .inl (justif, msgs) =>
    setPhaseCSSState phase (.inr initialCSSState)
    match justif with
    | none => pure ()
    | some (some c) => liftCSSJustifyChoice inst phase c
    | some none =>
      liftCSSJustifyChoice inst phase false
      liftCSSJustifyChoice inst phase true
    msgs.forM fun message => liftCSSReceiveMessage inst phase message.1 message.2.1 message.2.2
  | .inr _ => pure ()

/-- `csRes`: the choice the core set lists `p` under. -/
def csRes (cs : NominationSet) (p : Nat) : Option Bool :=
  if BitSet.member p cs.nomTop then some true
  else if BitSet.member p cs.nomBot then some false
  else none

/-- `(nextBit, newGrade)` of `handleCoreSet`, from the core set and the tickets in descending
order. -/
def coreSetOutcome (cs : NominationSet) (tkts : List ((value ×ₗ Nat) × Ticket value proof)) :
    Except HandleCoreSetError (Bool × UInt8) :=
  let topWeight := ((BitSet.toList cs.nomTop).map inst.partyWeight).sum
  let botWeight := ((BitSet.toList cs.nomBot).map inst.partyWeight).sum
  if BitSet.null cs.nomBot then .ok (true, 2)
  else if BitSet.null cs.nomTop then .ok (false, 2)
  else if topWeight ≥ inst.totalWeight - inst.corruptWeight then .ok (true, 1)
  else if botWeight ≥ inst.totalWeight - inst.corruptWeight then .ok (false, 1)
  else if botWeight ≤ inst.corruptWeight then .ok (true, 0)
  else if topWeight ≤ inst.corruptWeight then .ok (false, 0)
  else
    match tkts.filterMap fun entry => csRes cs (ofLex entry.1).2 with
    | res :: _ => .ok (res, 0)
    | [] => .error .noLotteryTicket

/-- Grade the core set CSS chose for the current phase, and send our input for the next. -/
def handleCoreSet (phase : Phase) (cs : NominationSet) :
    ABBA sig value proof (Except HandleCoreSetError Unit) := do
  let cp := (← get).currentPhase
  if phase ≠ cp then
    pure (.error (.wrongPhase phase cp))
  else
    let tkts := ((← get).phaseState phase).lotteryTickets.toAscList.reverse
    match coreSetOutcome inst cs tkts with
    | .error e => pure (.error e)
    | .ok (nextBit, newGrade) =>
      tell (.SendABBAMessage (.Justified (phase + 1) nextBit (inst.makeTicketProof (phase + 1))))
      tell (.ABBADelay phase (.CompletePhase phase nextBit newGrade))
      pure (.ok ())

def triggerABBAAction : DelayedABBAAction → ABBA sig value proof (Except HandleCoreSetError Unit)
  | .HandleCoreSet phase cs => handleCoreSet inst phase cs
  | .CSSFinishReporting phase => do
    liftCSSFinishReporting phase
    pure (.ok ())
  | .CompletePhase phase nextBit newGrade => do
    let oldGrade := (← get).currentGrade
    modify fun st => { st with currentGrade := newGrade }
    if newGrade = 2 ∧ oldGrade ≠ 2 then
      tell (.SendABBAMessage (.WeAreDone nextBit))
    modify fun st => { st with currentPhase := phase + 1 }
    beginPhase inst (phase + 1)
    pure (.ok ())

/-! ## Summaries -/

/-- `zip [0 ..]` over `Word32` phases, which ends at the last one. -/
def indexPhases {α : Type} (phases : List α) : List (Phase × α) :=
  (phases.take UInt32.size).zipIdx.map fun entry => (UInt32.ofNat entry.2, entry.1)

/-- `myTickets`: the tickets of a phase by party. -/
def myTickets (ps : PhaseState sig value proof) : AscMap Nat (Ticket value proof) :=
  AscMap.fromList (ps.lotteryTickets.toAscList.map fun entry => ((ofLex entry.1).2, entry.2))

/-- `checkCSSSig'`: the signature of a CSS message, as part of an ABBA message of the phase. -/
def checkCSSSig' (checkSig : Nat → ABBAMessage Unit → sig → Bool) (phaseInd : Phase)
    (party : Nat) : CSSMessage → sig → Bool
  | .input c, signature => checkSig party (.Justified phaseInd c ()) signature
  | .seen ns, signature => checkSig party (.CSSSeen phaseInd ns) signature
  | .doneReporting ns, signature => checkSig party (.CSSDoneReporting phaseInd ns) signature

/-- `checkCSSSig`: a message held already needs no signature check. -/
def checkCSSSig [DecidableEq sig] (checkSig : Nat → ABBAMessage Unit → sig → Bool)
    (phaseInd : Phase) (cssState : CSSState sig) (party : Nat) (msg : CSSMessage)
    (signature : sig) : Bool :=
  cssCheckExistingSig cssState party msg signature || checkCSSSig' checkSig phaseInd party msg signature

/-- `myCheckTicketProof`: a ticket proof we hold, or one that checks. -/
def myCheckTicketProof [DecidableEq proof] (phaseInd : Phase) (ps : PhaseState sig value proof)
    (party : Nat) (entry : proof × sig) : Bool :=
  ((myTickets ps).lookup party).map Ticket.ticketProof == some entry.1 ||
    (checkTicketProof inst phaseInd party entry.1).isSome

/-- `checkTicketAndSig`: an input of the summary whose signature checks, with its ticket. -/
def checkTicketAndSig [DecidableEq sig] [DecidableEq proof]
    (checkSig : Nat → ABBAMessage Unit → sig → Bool) (phaseInd : Phase)
    (ps : PhaseState sig value proof) (cssState : CSSState sig) (b : Bool) (party : Nat)
    (entry : proof × sig) : Option (Ticket value proof × sig) :=
  if checkCSSSig checkSig phaseInd cssState party (.input b) entry.2 then
    (fun ticket => (ticket, entry.2)) <$>
      match (myTickets ps).lookup party with
      | none => checkTicketProof inst phaseInd party entry.1
      | some t =>
        if t.ticketProof = entry.1 then some t else checkTicketProof inst phaseInd party entry.1
  else none

/-- The body of the loop over the phases of `processABBASummary`: whether we hold messages of
the phase the summary lacks, after handling those of its messages that check. -/
def processPhaseSummary [DecidableEq sig] [DecidableEq proof]
    (checkSig : Nat → ABBAMessage Unit → sig → Bool) (currentPhase : Phase)
    (entry : Phase × PhaseSummary sig proof) : ABBA sig value proof Bool := do
  let phaseInd := entry.1
  let summary := entry.2
  let ps := (← get).phaseState phaseInd
  let cssState := match ps.phaseCSSState with
    | .inl _ => initialCSSState
    | .inr s => s
  if currentPhase > phaseInd then
    -- the phase is over: the summary is behind unless it completes the phase
    let csss : CSSSummary sig :=
      ⟨(summary.summaryJustifiedTop.filterWithKey (myCheckTicketProof inst phaseInd ps)).map
          Prod.snd,
        (summary.summaryJustifiedBot.filterWithKey (myCheckTicketProof inst phaseInd ps)).map
          Prod.snd,
        summary.summaryCSSSeen, summary.summaryCSSDoneReporting⟩
    pure !(cssSummaryCheckComplete (checkCSSSig checkSig phaseInd cssState) csss
      inst.cssInstance)
  else
    let sJTop := summary.summaryJustifiedTop.mapMaybeWithKey
      (checkTicketAndSig inst checkSig phaseInd ps cssState true)
    let sJBot := summary.summaryJustifiedBot.mapMaybeWithKey
      (checkTicketAndSig inst checkSig phaseInd ps cssState false)
    let sCS := summary.summaryCSSSeen.mapWithKey fun party l =>
      l.filter fun seen => checkCSSSig checkSig phaseInd cssState party (.seen seen.1) seen.2
    let sCDR := summary.summaryCSSDoneReporting.filterWithKey fun party drd =>
      checkCSSSig checkSig phaseInd cssState party (.doneReporting drd.nominations) drd.signature
    sJTop.toAscList.forM fun input =>
      handleJustified inst input.1 phaseInd input.2.1 true input.2.2
    sJBot.toAscList.forM fun input =>
      handleJustified inst input.1 phaseInd input.2.1 false input.2.2
    sCS.toAscList.forM fun seens => seens.2.forM fun seen =>
      liftCSSReceiveMessage inst phaseInd seens.1 (.seen seen.1) seen.2
    sCDR.toAscList.forM fun report =>
      liftCSSReceiveMessage inst phaseInd report.1 (.doneReporting report.2.nominations)
        report.2.signature
    pure (cssSummaryIsBehind cssState ⟨sJTop.map Prod.snd, sJBot.map Prod.snd, sCS, sCDR⟩)

/-- Process the messages of a summary; whether the summary is behind the state. -/
def processABBASummary [DecidableEq sig] [DecidableEq proof] (summary : ABBASummary sig proof)
    (checkSig : Nat → ABBAMessage Unit → sig → Bool) : ABBA sig value proof Bool := do
  let st ← get
  let checkWAD (b : Bool) (entry : Nat × sig) : Bool :=
    (st.weAreDone b).partyMap.lookup entry.1 == some entry.2 ||
      checkSig entry.1 (.WeAreDone b) entry.2
  let sWADTop := summary.summaryWeAreDoneTop.toAscList.filter (checkWAD true)
  let sWADBot := summary.summaryWeAreDoneBot.toAscList.filter (checkWAD false)
  let wadWeight (m : List (Nat × sig)) := (m.map fun entry => inst.partyWeight entry.1).sum
  let summaryComplete := decide (wadWeight sWADTop ≥ inst.totalWeight - inst.corruptWeight) ||
    decide (wadWeight sWADBot ≥ inst.totalWeight - inst.corruptWeight)
  if st.completed then
    pure !summaryComplete
  else
    sWADTop.forM fun entry => receiveABBAMessage inst entry.1 (.WeAreDone true) entry.2
    sWADBot.forM fun entry => receiveABBAMessage inst entry.1 (.WeAreDone false) entry.2
    if summaryComplete then
      pure false
    else
      let st' ← get
      let sWADBehind := decide (wadWeight sWADTop < (st'.weAreDone true).weight) ||
        decide (wadWeight sWADBot < (st'.weAreDone false).weight)
      let cssBehind ← (indexPhases summary.summaryPhases).mapM
        (processPhaseSummary inst checkSig st'.currentPhase)
      pure (sWADBehind || cssBehind.or)

end Handlers

/-! ## The machine -/

/-- The operations of an ABBA instance, and the firing of a delayed action. -/
inductive ABBAInput (sig proof : Type) where
  | beginABBA (c : Bool)
  | justifyABBAChoice (c : Bool)
  | receiveABBAMessage (src : Nat) (message : ABBAMessage proof) (signature : sig)
  | processABBASummary (summary : ABBASummary sig proof)
      (checkSig : Nat → ABBAMessage Unit → sig → Bool)
  | triggerABBAAction (ticks : UInt32) (action : DelayedABBAAction)

/-- The action an event asks to fire after its delay. -/
def ABBAOutputEvent.delayed : ABBAOutputEvent proof → Option DelayedABBAAction
  | .ABBADelay _ action => some action
  | _ => none

/-- The state of an instance, with the delays it output whose actions have not fired. -/
structure ABBANode (sig value proof : Type) [LinearOrder value] where
  state : ABBAState sig value proof
  pending : List (ABBAOutputEvent proof)

def initialABBANode : ABBANode sig value proof :=
  ⟨initialABBAState, []⟩

/-- The node after a handler: its state, and the delays it outputs added to the pending ones. -/
def ABBANode.after {α : Type} (node : ABBANode sig value proof) (m : ABBA sig value proof α) :
    ABBANode sig value proof :=
  ⟨(m.run node.state).2.1,
    node.pending ++ (m.run node.state).2.2.filter fun event => event.delayed.isSome⟩

section Machine

variable [DecidableEq sig] [DecidableEq proof] (inst : ABBAInstance value proof)

/-- One step: an operation, or the action of a pending delay fired, which is then no longer
pending; `none` where the delay is not pending, or where `handleCoreSet` stops with an
`error`. -/
def stepABBA (node : ABBANode sig value proof) :
    ABBAInput sig proof → Option (ABBANode sig value proof)
  | .beginABBA c => some (node.after (beginABBA inst c))
  | .justifyABBAChoice c => some (node.after (justifyABBAChoice inst c))
  | .receiveABBAMessage src message signature =>
    some (node.after (receiveABBAMessage inst src message signature))
  | .processABBASummary summary checkSig => some (node.after (processABBASummary inst summary checkSig))
  | .triggerABBAAction ticks action =>
    if .ABBADelay ticks action ∈ node.pending then
      match ((triggerABBAAction inst action).run node.state).1 with
      | .ok () =>
        some ({ node with pending := node.pending.erase (.ABBADelay ticks action) }.after
          (triggerABBAAction inst action))
      | .error _ => none
    else none

/-- The nodes a run reaches from `initialABBANode`, each step one that does not stop. -/
inductive ABBAReachable : ABBANode sig value proof → Prop
  | initial : ABBAReachable initialABBANode
  | step {node next : ABBANode sig value proof} {input : ABBAInput sig proof} :
      ABBAReachable node → stepABBA inst node input = some next → ABBAReachable next

end Machine

end Concordium.Afgjort.ABBA
