import Mathlib.Logic.Relation

/-!
Contract: what the steps of a transition relation keep, every run of them keeps.

Owns:
- `Transition.holds`: the invariant rule, that a property every step keeps holds at the end of
  every run from a state where it holds;
- `Transition.conserved`: its form for a measure that every step leaves as it is.

A run is `Relation.ReflTransGen` of the step relation, as Mathlib has it; the rules are stated
for it here once, so that a development proves one lemma per kind of step and lifts it by name.

Does not own: any particular step relation.
-/

set_option autoImplicit false

namespace Transition

variable {State : Type} {step : State → State → Prop}

/-- The invariant rule. -/
theorem holds (invariant : State → Prop)
    (keeps : ∀ {before after}, step before after → invariant before → invariant after)
    {first last : State} (run : Relation.ReflTransGen step first last)
    (start : invariant first) : invariant last := by
  induction run with
  | refl => exact start
  | tail _ last inductionHypothesis => exact keeps last inductionHypothesis

/-- A measure that every step keeps is the same at both ends of a run. -/
theorem conserved {Measure : Type} (measure : State → Measure)
    (keeps : ∀ {before after}, step before after → measure after = measure before)
    {first last : State} (run : Relation.ReflTransGen step first last) :
    measure last = measure first :=
  holds (fun state => measure state = measure first) (fun taken kept => (keeps taken).trans kept)
    run rfl

end Transition
