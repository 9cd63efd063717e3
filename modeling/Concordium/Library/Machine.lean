import Mathlib.Logic.Function.Basic
import Mathlib.Order.Basic
import Mathlib.Data.List.Forall2

/-!
Contract: deterministic machines that answer one input at a time, and forward simulation
between two of them.

Owns:
- `run`: feed a list of inputs to a step function, collecting the outputs, each of which is the
  output of one step (`mem_run_outputs`);
- `Simulates`: a concrete machine simulates an abstract one through an abstraction function
  and under an invariant, when every step keeps the invariant, gives the abstract machine's
  output and lands on the abstract machine's next state;
- `Simulates.run`: the run lemma, that a simulation answers every sequence of inputs as the
  abstract machine does; and `Simulates.trans`, that simulations compose;
- `SimulatesBy`: simulation through a relation between the two machines' states, with its run
  lemma `SimulatesBy.run`; and `SimulatesWhen`, the same for inputs fed only where the caller's
  precondition holds (`AdmissibleRun`), with its run lemma `SimulatesWhen.run`;
- `run_map`: running on translated inputs is running the machine that translates each input;
  and `run_snd_congr`, `forall₂_run_outputs` for two machines that move between states alike;
- `Reachable`: the states a machine reaches when each input is fed only where its caller's
  precondition holds, with the invariant rule `Reachable.holds` and the rule
  `Reachable.monotone` for a quantity no admissible step lowers.

Does not own: any particular machine.
-/

set_option autoImplicit false

namespace Machine

variable {Input Output State : Type}

/-- Answer the inputs in order, threading the state. -/
def run (step : Input → State → Output × State) : List Input → State → List Output × State
  | [], state => ([], state)
  | input :: rest, state =>
      let (output, next) := step input state
      let (outputs, final) := run step rest next
      (output :: outputs, final)

@[simp] theorem run_nil (step : Input → State → Output × State) (state : State) :
    run step [] state = ([], state) := rfl

theorem run_cons (step : Input → State → Output × State) (input : Input)
    (rest : List Input) (state : State) :
    run step (input :: rest) state =
      ((step input state).1 :: (run step rest (step input state).2).1,
        (run step rest (step input state).2).2) := rfl

/-- Every output of a run is the output of one step. -/
theorem mem_run_outputs (step : Input → State → Output × State) :
    ∀ (inputs : List Input) (state : State) {output : Output},
      output ∈ (run step inputs state).1 → ∃ input state', output = (step input state').1
  | [], _, _, listed => absurd listed List.not_mem_nil
  | input :: rest, state, _, listed => by
      rw [run_cons, List.mem_cons] at listed
      rcases listed with first | later
      · exact ⟨input, state, first⟩
      · exact mem_run_outputs step rest _ later

variable {Concrete Abstract Middle : Type}

/-- `concrete` simulates `abstract` through `abstraction` on states satisfying `invariant`. -/
structure Simulates (concrete : Input → Concrete → Output × Concrete)
    (abstract : Input → Abstract → Output × Abstract) (abstraction : Concrete → Abstract)
    (invariant : Concrete → Prop) : Prop where
  preserves : ∀ input state, invariant state → invariant (concrete input state).2
  agrees : ∀ input state, invariant state →
    Prod.map id abstraction (concrete input state) = abstract input (abstraction state)

variable {concrete : Input → Concrete → Output × Concrete}
  {abstract : Input → Abstract → Output × Abstract} {abstraction : Concrete → Abstract}
  {invariant : Concrete → Prop}

/-- The run lemma: from a state satisfying the invariant, the concrete machine answers every
sequence of inputs as the abstract one does, ends on a state that abstracts the abstract
machine's final state, and keeps the invariant. -/
theorem Simulates.run (simulates : Simulates concrete abstract abstraction invariant)
    (inputs : List Input) (state : Concrete) (holds : invariant state) :
    Prod.map id abstraction (Machine.run concrete inputs state) =
        Machine.run abstract inputs (abstraction state) ∧
      invariant (Machine.run concrete inputs state).2 := by
  induction inputs generalizing state with
  | nil => exact ⟨rfl, holds⟩
  | cons input rest inductionHypothesis =>
      obtain ⟨restAgrees, restHolds⟩ :=
        inductionHypothesis _ (simulates.preserves input state holds)
      have stepAgrees := simulates.agrees input state holds
      rw [Prod.map, Prod.mk.injEq] at stepAgrees
      refine ⟨?_, restHolds⟩
      rw [run_cons, run_cons, ← stepAgrees.1, ← stepAgrees.2, ← restAgrees]
      rfl

/-- Simulations compose, the invariant of the composite being both invariants. -/
theorem Simulates.trans {middle : Input → Middle → Output × Middle}
    {lower : Concrete → Middle} {upper : Middle → Abstract}
    {lowerInvariant : Concrete → Prop} {upperInvariant : Middle → Prop}
    (first : Simulates concrete middle lower lowerInvariant)
    (second : Simulates middle abstract upper upperInvariant) :
    Simulates concrete abstract (upper ∘ lower)
      (fun state => lowerInvariant state ∧ upperInvariant (lower state)) where
  preserves := by
    rintro input state ⟨lowerHolds, upperHolds⟩
    have lowerStep := first.agrees input state lowerHolds
    rw [Prod.map, Prod.mk.injEq] at lowerStep
    refine ⟨first.preserves input state lowerHolds, ?_⟩
    rw [lowerStep.2]
    exact second.preserves input (lower state) upperHolds
  agrees := by
    rintro input state ⟨lowerHolds, upperHolds⟩
    have lowerStep := first.agrees input state lowerHolds
    have upperStep := second.agrees input (lower state) upperHolds
    rw [← lowerStep] at upperStep
    exact upperStep

/-- Every input of the list is admissible in the state the abstract machine, stepping by `next`,
is in when the input comes. -/
def AdmissibleRun (next : Input → Abstract → Abstract) (admissible : Abstract → Input → Prop) :
    List Input → Abstract → Prop
  | [], _ => True
  | input :: rest, state => admissible state input ∧ AdmissibleRun next admissible rest (next input state)

/-- `concrete` simulates `abstract` through `relation` on the inputs `admissible` allows: from
related states and an admissible input, a step gives the same output on both and lands on
related states. -/
structure SimulatesWhen (relation : Abstract → Concrete → Prop)
    (admissible : Abstract → Input → Prop) (abstract : Input → Abstract → Output × Abstract)
    (concrete : Input → Concrete → Output × Concrete) : Prop where
  step : ∀ input abstractState concreteState, relation abstractState concreteState →
    admissible abstractState input →
    (concrete input concreteState).1 = (abstract input abstractState).1 ∧
      relation (abstract input abstractState).2 (concrete input concreteState).2

/-- The run lemma of a guarded simulation: from related states, along inputs each admissible
where it comes, both machines give the same outputs and end on related states. -/
theorem SimulatesWhen.run {relation : Abstract → Concrete → Prop}
    {admissible : Abstract → Input → Prop}
    (simulates : SimulatesWhen relation admissible abstract concrete) (inputs : List Input)
    (abstractState : Abstract) (concreteState : Concrete)
    (related : relation abstractState concreteState)
    (allowed : AdmissibleRun (fun input state => (abstract input state).2) admissible inputs
      abstractState) :
    (Machine.run concrete inputs concreteState).1 = (Machine.run abstract inputs abstractState).1 ∧
      relation (Machine.run abstract inputs abstractState).2
        (Machine.run concrete inputs concreteState).2 := by
  induction inputs generalizing abstractState concreteState with
  | nil => exact ⟨rfl, related⟩
  | cons input rest inductionHypothesis =>
      obtain ⟨admitted, restAllowed⟩ := allowed
      obtain ⟨sameOutput, stepRelated⟩ :=
        simulates.step input abstractState concreteState related admitted
      obtain ⟨sameOutputs, finalRelated⟩ := inductionHypothesis _ _ stepRelated restAllowed
      rw [run_cons, run_cons]
      refine ⟨?_, finalRelated⟩
      show _ :: _ = _ :: _
      rw [sameOutput, sameOutputs]

/-- Running on translated inputs is running the machine that translates each input. -/
theorem run_map {Source : Type} (translate : Source → Input)
    (step : Input → State → Output × State) :
    ∀ (inputs : List Source) (state : State),
      run step (inputs.map translate) state = run (fun input => step (translate input)) inputs state
  | [], _ => rfl
  | input :: rest, state => by
      rw [List.map_cons, run_cons, run_cons, run_map translate step rest]

/-- Two machines that move between states alike end every run in the same state. -/
theorem run_snd_congr {Output' : Type} (step : Input → State → Output × State)
    (step' : Input → State → Output' × State)
    (sameNext : ∀ input state, (step input state).2 = (step' input state).2) :
    ∀ (inputs : List Input) (state : State), (run step inputs state).2 = (run step' inputs state).2
  | [], _ => rfl
  | input :: rest, state => by
      rw [run_cons, run_cons, sameNext input state]
      exact run_snd_congr step step' sameNext rest _

/-- Two machines that move between states alike and whose outputs at each step are related give
related outputs along every run. -/
theorem forall₂_run_outputs {Output' : Type} (step : Input → State → Output × State)
    (step' : Input → State → Output' × State) {related : Output → Output' → Prop}
    (sameNext : ∀ input state, (step input state).2 = (step' input state).2)
    (relatedOutput : ∀ input state, related (step input state).1 (step' input state).1) :
    ∀ (inputs : List Input) (state : State),
      List.Forall₂ related (run step inputs state).1 (run step' inputs state).1
  | [], _ => List.Forall₂.nil
  | input :: rest, state => by
      rw [run_cons, run_cons, sameNext input state]
      exact List.Forall₂.cons (relatedOutput input state)
        (forall₂_run_outputs step step' sameNext relatedOutput rest _)

/-- `concrete` simulates `abstract` through `relation` between their states: from related
states, a step gives the same output on both and lands on related states. Unlike
`Simulates`, the abstract state need not be a function of the concrete one, as when the two
keep the same entries in orders that may differ. -/
structure SimulatesBy (relation : Abstract → Concrete → Prop)
    (abstract : Input → Abstract → Output × Abstract)
    (concrete : Input → Concrete → Output × Concrete) : Prop where
  step : ∀ input abstractState concreteState, relation abstractState concreteState →
    (concrete input concreteState).1 = (abstract input abstractState).1 ∧
      relation (abstract input abstractState).2 (concrete input concreteState).2

/-- The run lemma of a simulation through a relation: from related states, both machines give
the same outputs to every sequence of inputs and end on related states. -/
theorem SimulatesBy.run {relation : Abstract → Concrete → Prop}
    (simulates : SimulatesBy relation abstract concrete) (inputs : List Input)
    (abstractState : Abstract) (concreteState : Concrete)
    (related : relation abstractState concreteState) :
    (Machine.run concrete inputs concreteState).1 = (Machine.run abstract inputs abstractState).1 ∧
      relation (Machine.run abstract inputs abstractState).2
        (Machine.run concrete inputs concreteState).2 := by
  induction inputs generalizing abstractState concreteState with
  | nil => exact ⟨rfl, related⟩
  | cons input rest inductionHypothesis =>
      obtain ⟨sameOutput, stepRelated⟩ := simulates.step input abstractState concreteState related
      obtain ⟨sameOutputs, finalRelated⟩ := inductionHypothesis _ _ stepRelated
      rw [run_cons, run_cons]
      refine ⟨?_, finalRelated⟩
      show _ :: _ = _ :: _
      rw [sameOutput, sameOutputs]

/-! ## Runs under preconditions -/

section Guarded

variable (step : Input → State → State) (admissible : State → Input → Prop)

/-- The states reached from `start` by feeding inputs one at a time, each only where it is
admissible. -/
inductive Reachable (start : State) : State → Prop
  | start : Reachable start start
  | step {state : State} {input : Input} :
      Reachable start state → admissible state input → Reachable start (step input state)

variable {step admissible}

/-- The invariant rule: what holds at the start and is kept by every admissible step holds in
every reachable state. -/
theorem Reachable.holds (invariant : State → Prop) {start state : State}
    (initial : invariant start)
    (preserves : ∀ state input, invariant state → admissible state input →
      invariant (step input state))
    (reachable : Reachable step admissible start state) : invariant state := by
  induction reachable with
  | start => exact initial
  | step _ allowed inductionHypothesis => exact preserves _ _ inductionHypothesis allowed

end Guarded

end Machine
