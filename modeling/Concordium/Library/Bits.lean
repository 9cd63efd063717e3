import Mathlib.Data.Nat.Bitwise

/-!
Contract: the positions of the set bits of a number, read off from bit `0` upwards by testing
the lowest bit and shifting the number right one bit at a time.

Owns:
- `Bits.positions i x`: the positions of the set bits of `x`, counted from `i`;
- `mem_positions`: a number is listed iff it is at least `i` and its bit, counted from `i`, is
  set; `positions_ascending`: the positions are listed in ascending order.

Does not own: what the positions stand for, or a counter of bounded width.
-/

set_option autoImplicit false

namespace Bits

/-- The positions of the set bits of `x`, the lowest counted as `i`. -/
def positions (i x : Nat) : List Nat :=
  if x = 0 then []
  else if x.testBit 0 then i :: positions (i + 1) (x >>> 1)
  else positions (i + 1) (x >>> 1)
termination_by x
decreasing_by all_goals (rw [Nat.shiftRight_one]; omega)

@[simp] theorem positions_zero (i : Nat) : positions i 0 = [] := by
  rw [positions, if_pos rfl]

/-- Past bit `0`, bit `j - i` of `x` is bit `j - (i + 1)` of `x >>> 1`. -/
theorem shifted_bit_iff {i j x : Nat} (differ : j ≠ i) :
    (i + 1 ≤ j ∧ (x >>> 1).testBit (j - (i + 1)) = true) ↔ (i ≤ j ∧ x.testBit (j - i) = true) := by
  rw [Nat.testBit_shiftRight]
  constructor
  · rintro ⟨above, bit⟩
    exact ⟨by omega, by rwa [show 1 + (j - (i + 1)) = j - i by omega] at bit⟩
  · rintro ⟨below, bit⟩
    exact ⟨by omega, by rwa [show 1 + (j - (i + 1)) = j - i by omega]⟩

theorem mem_positions (i x j : Nat) :
    j ∈ positions i x ↔ i ≤ j ∧ x.testBit (j - i) = true := by
  fun_induction positions i x with
  | case1 i => simp
  | case2 i x nonzero low inductionHypothesis =>
      rw [List.mem_cons, inductionHypothesis]
      by_cases same : j = i
      · subst same
        simp [low]
      · rw [shifted_bit_iff same]
        simp [same]
  | case3 i x nonzero low inductionHypothesis =>
      rw [inductionHypothesis]
      by_cases same : j = i
      · subst same
        simp [low]
      · exact shifted_bit_iff same

/-- The positions from `i` are listed in ascending order, each at least `i`. -/
theorem positions_ascending (i x : Nat) : (positions i x).Pairwise (· < ·) := by
  fun_induction positions i x with
  | case1 i => exact List.Pairwise.nil
  | case2 i x nonzero low inductionHypothesis =>
      refine List.Pairwise.cons (fun later listed => ?_) inductionHypothesis
      exact Nat.lt_of_succ_le ((mem_positions (i + 1) (x >>> 1) later).mp listed).1
  | case3 i x nonzero low inductionHypothesis => exact inductionHypothesis

end Bits
