import Mathlib

/-!
Contract: choosing an index in proportion to weights, by walking the prefix sums until they
pass a target.

Owns:
- `choiceIndex`, the walk;
- `choiceIndex_eq_iff`: the index chosen for a target below the total is the one whose prefix
  sums bracket the target, so it is the least index whose prefix sum, itself included, passes
  it (`choiceIndex_least`);
- `card_choiceIndex`: as the target ranges below the total, each index is chosen for exactly
  its weight many targets.

Does not own: where the target comes from, or any machine arithmetic.
-/

set_option autoImplicit false

namespace WeightedChoice

/-- The index a target falls to: skip each weight the target is not below, taking it off. -/
def choiceIndex : List Nat → Nat → Nat
  | [], _ => 0
  | weight :: weights, target =>
      if target < weight then 0 else choiceIndex weights (target - weight) + 1

/-- Prefix sums grow with the prefix. -/
theorem sum_take_le_sum_take (weights : List Nat) {shorter longer : Nat} (le : shorter ≤ longer) :
    (weights.take shorter).sum ≤ (weights.take longer).sum :=
  (List.take_sublist_take_left le).sum_le_sum (fun _ _ => Nat.zero_le _)

/-- Below the total, the chosen index is the one whose prefix sums bracket the target. -/
theorem choiceIndex_eq_iff : ∀ (weights : List Nat) (target index : Nat), target < weights.sum →
    (choiceIndex weights target = index ↔
      (weights.take index).sum ≤ target ∧ target < (weights.take (index + 1)).sum)
  | [], target, _, below => absurd below (Nat.not_lt_zero target)
  | weight :: weights, target, index, below => by
      rw [List.sum_cons] at below
      by_cases first : target < weight
      · rw [choiceIndex, if_pos first]
        cases index with
        | zero => simp [first]
        | succ index => simp; omega
      · rw [choiceIndex, if_neg first]
        cases index with
        | zero => simp [first]
        | succ index =>
            have rest := choiceIndex_eq_iff weights (target - weight) index (by omega)
            simp only [Nat.add_right_cancel_iff, rest, List.take_succ_cons, List.sum_cons]
            omega

/-- The chosen index is the least whose prefix sum, itself included, passes the target. -/
theorem choiceIndex_least {weights : List Nat} {target : Nat} (below : target < weights.sum) :
    target < (weights.take (choiceIndex weights target + 1)).sum ∧
      ∀ earlier < choiceIndex weights target, (weights.take (earlier + 1)).sum ≤ target := by
  have bracket := (choiceIndex_eq_iff weights target _ below).mp rfl
  refine ⟨bracket.2, fun earlier before => ?_⟩
  exact (sum_take_le_sum_take weights before).trans bracket.1

/-- Each index is chosen for exactly its weight many targets below the total. -/
theorem card_choiceIndex (weights : List Nat) (index : Nat) (bound : index < weights.length) :
    ((Finset.range weights.sum).filter fun target => choiceIndex weights target = index).card =
      weights[index] := by
  have upTo : (weights.take (index + 1)).sum ≤ weights.sum := by
    simpa using sum_take_le_sum_take weights (by omega : index + 1 ≤ weights.length)
  have chosen : ((Finset.range weights.sum).filter fun target =>
      choiceIndex weights target = index) =
        Finset.Ico (weights.take index).sum (weights.take (index + 1)).sum := by
    ext target
    rw [Finset.mem_filter, Finset.mem_range, Finset.mem_Ico]
    constructor
    · rintro ⟨below, isIndex⟩
      exact (choiceIndex_eq_iff weights target index below).mp isIndex
    · rintro bracket
      have below : target < weights.sum := by omega
      exact ⟨below, (choiceIndex_eq_iff weights target index below).mpr bracket⟩
  rw [chosen, Nat.card_Ico, List.sum_take_succ weights index bound]
  omega

end WeightedChoice
