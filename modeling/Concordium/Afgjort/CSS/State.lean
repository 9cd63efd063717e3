import Concordium.Afgjort.PartySet

/-!
Contract: the state machine of core-set selection of `Concordium.Afgjort.CSS`: `CSSState`,
`initialCSSState`, and the handlers `receiveCSSMessage`, `justifyChoice` and `finishReporting`,
with `justifyNomination`, `handleDoneReporting` and `addManySaw` that they call.

Owns:
- the nomination-set operations `nominationSetToList`, `addNomination` and `nominations`;
- `CSSState`, whose lenses `justified c`, `input c` and `saw c` are its fields as functions of
  the choice `c` (`justified true` is `_topJustified`, and so on), and `sawJustified`;
- each handler as a function from a state to the next state and the events it outputs
  (`CSSOutputEvent`), in the source's order; `andThen` and `forEachStep` sequence them as the
  source's `do` blocks and `forM_` do;
- `justifyNomination` as its three blocks, `recordNomination`, `checkManySaw` and
  `justifyPending`; the `Seen` handler as `receiveSeen` for each nomination of the message;
- `CSSInput`, `step` and `runInputs`: the three operations as one machine;
- `cssCheckExistingSig` and `cssSummaryIsBehind`, which the processing of an ABBA summary reads.

Does not own: the invariants (`Concordium.Afgjort.CSS.Invariants`). The lenses `at'` and
`nonEmpty` of the base library are modelled by their meaning: `nonEmpty` reads an absent entry as
empty and drops an entry that becomes empty. `_unjustifiedDoneReporting`, which the source only
reads and writes key by key, is a function of its keys. `maxParty` of `CSSInstance`, which only
the core set reads, is a parameter of its own.
-/

set_option autoImplicit false

namespace Concordium.Afgjort.CSS

/-! ## Nomination sets -/

/-- The nominations of a set, those of top first. -/
def nominationSetToList (s : NominationSet) : List (Nat × Bool) :=
  (BitSet.toList s.nomTop).map (fun p => (p, true)) ++
    (BitSet.toList s.nomBot).map (fun p => (p, false))

def addNomination (p : Nat) (c : Bool) (ns : NominationSet) : NominationSet :=
  if c then { ns with nomMax := max p ns.nomMax, nomTop := BitSet.insert p ns.nomTop }
  else { ns with nomMax := max p ns.nomMax, nomBot := BitSet.insert p ns.nomBot }

/-- The choices `p` nominated in the set: `some none` for both. -/
def nominations (p : Nat) (s : NominationSet) : Option (Option Bool) :=
  match BitSet.member p s.nomTop, BitSet.member p s.nomBot with
  | true, true => some none
  | true, false => some (some true)
  | false, true => some (some false)
  | false, false => none

theorem mem_nominationSetToList {p : Nat} {c : Bool} {s : NominationSet} :
    (p, c) ∈ nominationSetToList s ↔
      BitSet.member p (if c then s.nomTop else s.nomBot) = true := by
  cases c <;> simp [nominationSetToList, BitSet.mem_toList]

theorem mem_nominationSetToList_addNomination {p src : Nat} {c c' : Bool} {ns : NominationSet} :
    (p, c') ∈ nominationSetToList (addNomination src c ns) ↔
      (p = src ∧ c' = c) ∨ (p, c') ∈ nominationSetToList ns := by
  cases c <;> cases c' <;> simp [mem_nominationSetToList, addNomination, @eq_comm _ src, or_comm]

theorem nominations_eq_none_iff (p : Nat) (s : NominationSet) :
    nominations p s = none ↔ BitSet.member p s.nomTop = false ∧ BitSet.member p s.nomBot = false := by
  unfold nominations
  cases BitSet.member p s.nomTop <;> cases BitSet.member p s.nomBot <;> simp

/-! ## The state -/

/-- Whom `q` is waiting on, and what it reported: the nominations of a done-reporting still to be
justified, and the done-reporting itself. -/
abbrev Waiting (sig : Type) :=
  List (Nat × Bool) × DoneReportingDetails sig

structure CSSState (sig : Type) where
  /-- Whether we are in the report stage. -/
  report : Bool
  /-- `_topJustified` and `_botJustified`: whether each choice is considered justified. -/
  justified : Bool → Bool
  /-- `_inputTop` and `_inputBot`: the parties that nominated each choice. -/
  input : Bool → AscMap Nat sig
  /-- `_sawTop` and `_sawBot`: for each party, the parties that report having seen its
  nomination of each choice. -/
  saw : Bool → AscMap Nat PartySet
  sawMessages : AscMap Nat (List (NominationSet × sig))
  /-- The first justified nomination we received from each party. -/
  iSaw : NominationSet
  iSawWeight : Nat
  manySaw : PartySet
  /-- For each nomination not yet justified, the parties whose done-reporting waits on it. -/
  unjustifiedDoneReporting : Nat × Bool → Option (AscMap Nat (Waiting sig))
  justifiedDoneReporting : PartyMap (DoneReportingDetails sig)
  core : Option NominationSet

def initialCSSState {sig : Type} : CSSState sig where
  report := true
  justified := fun _ => false
  input := fun _ => AscMap.empty
  saw := fun _ => AscMap.empty
  sawMessages := AscMap.empty
  iSaw := emptyNominationSet
  iSawWeight := 0
  manySaw := PartySet.empty
  unjustifiedDoneReporting := fun _ => none
  justifiedDoneReporting := PartyMap.empty
  core := none

inductive CSSOutputEvent where
  | SendCSSMessage (message : CSSMessage)
  | SelectCoreSet (coreSet : NominationSet)
  | WaitThenFinishReporting

variable {sig : Type}

/-- `sawJustified seer c seen`: we have a justified message from `seer` that `seen` nominated
`c`. -/
def sawJustified (seer : Nat) (c : Bool) (seen : Nat) (st : CSSState sig) : Bool :=
  st.justified c && ((st.input c).lookup seen).isSome &&
    match (st.saw c).lookup seen with
    | none => false
    | some m => m.member seer

/-- `cssCheckExistingSig`: whether the state already holds `party`'s message with this
signature, so that its signature needs no check. -/
def cssCheckExistingSig [DecidableEq sig] (st : CSSState sig) (party : Nat) :
    CSSMessage → sig → Bool
  | .input c, signature => (st.input c).lookup party == some signature
  | .seen ns, signature => decide ((ns, signature) ∈ (st.sawMessages.lookup party).getD [])
  | .doneReporting ns, signature =>
    st.justifiedDoneReporting.partyMap.lookup party == some ⟨ns, signature⟩

/-- `cssSummaryIsBehind`: whether the state holds a message the summary lacks. -/
def cssSummaryIsBehind [DecidableEq sig] (st : CSSState sig) (summary : CSSSummary sig) : Bool :=
  let inTopBehind := (st.input true).keys.any fun p => (summary.summaryInputsTop.lookup p).isNone
  let inBotBehind := (st.input false).keys.any fun p => (summary.summaryInputsBot.lookup p).isNone
  let totalSaw (l : List (NominationSet × sig)) :=
    (l.map Prod.fst).foldl unionNominationSet emptyNominationSet
  let notCovered (entry : Nat × List (NominationSet × sig)) :=
    !subsumedBy (totalSaw entry.2) (totalSaw (summary.summarySeen.findWithDefault [] entry.1))
  let seenBehind := st.sawMessages.toAscList.any notCovered
  let drMissing (entry : Nat × DoneReportingDetails sig) :=
    summary.summaryDoneReporting.lookup entry.1 != some entry.2
  let drBehind := st.justifiedDoneReporting.toList.any drMissing
  inTopBehind || inBotBehind || seenBehind || drBehind

/-! ## Sequencing -/

section Sequencing

variable {σ ε α : Type}

/-- One action, then another on the state it leaves; their events in order. -/
def andThen (first second : σ → σ × List ε) (st : σ) : σ × List ε :=
  let (st1, events1) := first st
  let (st2, events2) := second st1
  (st2, events1 ++ events2)

/-- `forM_`: the action for each element in turn, the state threaded through. -/
def forEachStep (action : α → σ → σ × List ε) : List α → σ → σ × List ε
  | [], st => (st, [])
  | a :: rest, st =>
    let (st1, events1) := action a st
    let (st2, events2) := forEachStep action rest st1
    (st2, events1 ++ events2)

@[simp] theorem andThen_fst (first second : σ → σ × List ε) (st : σ) :
    (andThen first second st).1 = (second (first st).1).1 :=
  rfl

@[simp] theorem forEachStep_nil_fst (action : α → σ → σ × List ε) (st : σ) :
    (forEachStep action [] st).1 = st :=
  rfl

@[simp] theorem forEachStep_cons_fst (action : α → σ → σ × List ε) (a : α) (rest : List α)
    (st : σ) :
    (forEachStep action (a :: rest) st).1 = (forEachStep action rest (action a st).1).1 :=
  rfl

end Sequencing

/-! ## The handlers -/

section Handlers

variable (inst : CSSInstance) (maxParty : Nat)

def addManySaw (party : Nat) (st : CSSState sig) : CSSState sig × List CSSOutputEvent :=
  let oldMSW := st.manySaw.weight
  let newManySaw := st.manySaw.insert party (inst.partyWeight party)
  ({ st with manySaw := newManySaw },
    if newManySaw.weight ≥ inst.totalWeight - inst.corruptWeight ∧
        oldMSW < inst.totalWeight - inst.corruptWeight then [.WaitThenFinishReporting]
    else [])

def finishReporting (st : CSSState sig) : CSSState sig × List CSSOutputEvent :=
  ({ st with report := false },
    if st.report then [.SendCSSMessage (.doneReporting st.iSaw)] else [])

/-- The case split of `handleDoneReporting`: add `party`'s done-reporting to those waiting on one
nomination. -/
def addWaiting (party : Nat) (entry : Waiting sig) :
    Option (AscMap Nat (Waiting sig)) → Option (AscMap Nat (Waiting sig))
  | none => some (AscMap.singleton party entry)
  | some l => some (l.insert party entry)

/-- `handleDoneReporting party (nominations, drd)`: check the nominations in turn; at the first not
seen justified from `party`, wait on it; when all are, `party`'s done-reporting is justified,
and the core set is chosen when the justified ones first weigh enough. -/
def handleDoneReporting (party : Nat) :
    List (Nat × Bool) → DoneReportingDetails sig → CSSState sig →
      CSSState sig × List CSSOutputEvent
  | [], drd, st =>
    if st.justifiedDoneReporting.member party then (st, [])
    else
      let newJDR := st.justifiedDoneReporting.insert party (inst.partyWeight party) drd
      let st := { st with justifiedDoneReporting := newJDR }
      if newJDR.weight ≥ inst.totalWeight - inst.corruptWeight then
        match st.core with
        | none =>
          let theCore : NominationSet :=
            ⟨maxParty,
              if st.justified true then BitSet.fromList (st.input true).keys else BitSet.empty,
              if st.justified false then BitSet.fromList (st.input false).keys else BitSet.empty⟩
          ({ st with core := some theCore }, [.SelectCoreSet theCore])
        | some _ => (st, [])
      else (st, [])
  | (s, c) :: remainder, drd, st =>
    if sawJustified party c s st then handleDoneReporting party remainder drd st
    else
      ({ st with
        unjustifiedDoneReporting := Function.update st.unjustifiedDoneReporting (s, c)
          (addWaiting party (remainder, drd) (st.unjustifiedDoneReporting (s, c))) }, [])

/-- The first block of `justifyNomination`: in the report phase, record `src`'s nomination in
`iSaw` unless it has one there, and send `iSaw` once it weighs enough. -/
def recordNomination (src : Nat) (c : Bool) (st : CSSState sig) :
    CSSState sig × List CSSOutputEvent :=
  if st.report then
    if (nominations src st.iSaw).isSome then (st, [])
    else
      let newiSaw := addNomination src c st.iSaw
      let newiSawWeight := Word.add 64 st.iSawWeight (inst.partyWeight src)
      ({ st with iSaw := newiSaw, iSawWeight := newiSawWeight },
        if newiSawWeight ≥ inst.totalWeight - inst.corruptWeight then
          [.SendCSSMessage (.seen newiSaw)]
        else [])
  else (st, [])

/-- The second block of `justifyNomination`: `src` joins `manySaw` if its nomination of `c` was
seen by enough. -/
def checkManySaw (src : Nat) (c : Bool) (st : CSSState sig) :
    CSSState sig × List CSSOutputEvent :=
  match (st.saw c).lookup src with
  | none => (st, [])
  | some parties =>
    if parties.weight ≥ inst.totalWeight - inst.corruptWeight then addManySaw inst src st
    else (st, [])

/-- The third block of `justifyNomination`: of the done-reportings waiting on `src`'s nomination
of `c`, those whose sender we saw see it are handled, the others put back. -/
def justifyPending (src : Nat) (c : Bool) (st : CSSState sig) :
    CSSState sig × List CSSOutputEvent :=
  match st.unjustifiedDoneReporting (src, c) with
  | none => (st, [])
  | some m =>
    match (st.saw c).lookup src with
    | none => (st, [])
    | some jsaw =>
      let js := m.filterWithKey fun k _ => jsaw.member k
      let ujs := m.filterWithKey fun k _ => !jsaw.member k
      let st := { st with
        unjustifiedDoneReporting := Function.update st.unjustifiedDoneReporting (src, c)
          (if ujs.null then none else some ujs) }
      forEachStep (fun entry : Nat × Waiting sig =>
          handleDoneReporting inst maxParty entry.1 entry.2.1 entry.2.2)
        js.toAscList st

/-- Called when `src`'s nomination of `c` becomes justified. -/
def justifyNomination (src : Nat) (c : Bool) : CSSState sig → CSSState sig × List CSSOutputEvent :=
  andThen (recordNomination inst src c)
    (andThen (checkManySaw inst src c) (justifyPending inst maxParty src c))

def justifyChoice (c : Bool) (st : CSSState sig) : CSSState sig × List CSSOutputEvent :=
  let alreadyJustified := st.justified c
  let st := { st with justified := Function.update st.justified c true }
  if alreadyJustified then (st, [])
  else forEachStep (fun p => justifyNomination inst maxParty p c) (st.input c).keys st

/-- Take out the done-reporting of `party` waiting on `(s, c)`, dropping the key when nothing is
left waiting there (`at' (s, c) . nonEmpty . at' party <<.= Nothing`). -/
def takePending (party s : Nat) (c : Bool) (st : CSSState sig) :
    Option (Waiting sig) × CSSState sig :=
  let waiting := (st.unjustifiedDoneReporting (s, c)).getD AscMap.empty
  let rest := waiting.erase party
  (waiting.lookup party,
    { st with
      unjustifiedDoneReporting := Function.update st.unjustifiedDoneReporting (s, c)
        (if rest.null then none else some rest) })

/-- One nomination `(sp, c)` of a `Seen` message from `src`: record that `src` saw it; if that is
new and the nomination is justified, check `manySaw` and handle a done-reporting of `src` waiting
on it. Answers whether `src` was already recorded. -/
def receiveSeen (src : Nat) (nomination : Nat × Bool) (st : CSSState sig) :
    Bool × CSSState sig × List CSSOutputEvent :=
  let sp := nomination.1
  let c := nomination.2
  let w := inst.partyWeight src
  let updated : Nat × Bool × PartySet :=
    match (st.saw c).lookup sp with
    | none => (w, false, PartySet.singleton src w)
    | some ps =>
      let inserted := ps.insertLookup src w
      (inserted.2.weight, inserted.1, inserted.2)
  let st := { st with saw := Function.update st.saw c ((st.saw c).insert sp updated.2.2) }
  if updated.2.1 then (true, st, [])
  else if st.justified c && ((st.input c).lookup sp).isSome then
    let checked :=
      if updated.1 ≥ inst.totalWeight - inst.corruptWeight then addManySaw inst sp st
      else (st, [])
    let taken := takePending src sp c checked.1
    let handled :=
      match taken.1 with
      | none => (taken.2, [])
      | some entry => handleDoneReporting inst maxParty src entry.1 entry.2 taken.2
    (false, handled.1, checked.2 ++ handled.2)
  else (false, st, [])

/-- The nominations of a `Seen` message in turn. -/
def receiveSeens (src : Nat) :
    List (Nat × Bool) → CSSState sig → List Bool × CSSState sig × List CSSOutputEvent
  | [], st => ([], st, [])
  | nomination :: rest, st =>
    let first := receiveSeen inst maxParty src nomination st
    let later := receiveSeens src rest first.2.1
    (first.1 :: later.1, later.2.1, first.2.2 ++ later.2.2)

/-- Handle a message from `src`; nothing once the core set is chosen (`unlessComplete`). -/
def receiveCSSMessage (src : Nat) (message : CSSMessage) (signature : sig) (st : CSSState sig) :
    CSSState sig × List CSSOutputEvent :=
  if st.core.isSome then (st, [])
  else
    match message with
    | .input c =>
      let st := { st with input := Function.update st.input c ((st.input c).insert src signature) }
      if st.justified c then justifyNomination inst maxParty src c st else (st, [])
    | .seen ns =>
      let seen := receiveSeens inst maxParty src (nominationSetToList ns) st
      if seen.1.all id then seen.2
      else
        -- the message has something new: keep it, and drop the messages of `src` it subsumes
        ({ seen.2.1 with
          sawMessages := seen.2.1.sawMessages.insert src
            ((ns, signature) :: ((seen.2.1.sawMessages.lookup src).getD []).filter
              fun earlier => !subsumedBy earlier.1 ns) }, seen.2.2)
    | .doneReporting sawSet =>
      handleDoneReporting inst maxParty src (nominationSetToList sawSet) ⟨sawSet, signature⟩ st

end Handlers

/-! ## The machine -/

/-- The operations of a CSS instance. -/
inductive CSSInput (sig : Type) where
  | receiveCSSMessage (src : Nat) (message : CSSMessage) (signature : sig)
  | justifyChoice (c : Bool)
  | finishReporting

section Machine

variable (inst : CSSInstance) (maxParty : Nat)

def step : CSSInput sig → CSSState sig → CSSState sig × List CSSOutputEvent
  | .receiveCSSMessage src message signature, st =>
    receiveCSSMessage inst maxParty src message signature st
  | .justifyChoice c, st => justifyChoice inst maxParty c st
  | .finishReporting, st => finishReporting st

/-- The state after the inputs in turn. -/
def runInputs (inputs : List (CSSInput sig)) (st : CSSState sig) : CSSState sig :=
  inputs.foldl (fun st input => (step inst maxParty input st).1) st

end Machine

end Concordium.Afgjort.CSS
