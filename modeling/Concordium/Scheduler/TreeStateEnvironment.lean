import Concordium.Library.Rounding

/-!
Contract: the per-block fee accrual of `Concordium.Scheduler.TreeStateEnvironment`
(`doBlockReward` up to protocol 3, `doBlockRewardP4` from protocol 4, which consensus v1 calls
from `processBlockRewards`) in `Word64` amounts, and what it means in unbounded integers.

Owns:
- `Amount` as `UInt64` with `Word64` arithmetic, `fromInteger` and `toRational` at it, and
  `AmountFraction` (parts per hundred thousand, at most one whole) with `takeFraction`,
  `complementAmountFraction` and `fractionToRational`, as `Concordium.Types` of the base library
  defines them; the base library is not among the sources, so these four cannot be checked
  against them;
- the reward parameters these functions read, `Conditionally` for the finalization-proof GAS
  fraction, and the special outcomes `BlockReward` and `BlockAccrueReward`;
- `exactBlockReward` and `exactAccrualP4`: the same computations in `ℤ`, which the source's
  sanity check reasons about, and the theorems that the `Word64` computation agrees with them
  whenever the fees and the GAS account together fit in a word, and that their parts add up to
  the fees plus the old GAS account.

Does not own: the block state operations themselves (the account credit and the accrued-fee
updates are represented by the amounts of the special outcome they record) and payday rewards.
-/

set_option autoImplicit false

namespace Concordium.Scheduler.TreeStateEnvironment

/-! ## Amounts and fractions -/

/-- `Amount`: micro-CCD in a `Word64`, with its wrapping arithmetic. -/
abbrev Amount := UInt64

/-- `fromInteger` at `Amount`: the integer modulo `2 ^ 64`. -/
def amountFromInteger (value : ℤ) : Amount := UInt64.ofInt value

/-- `toRational` at `Amount`. -/
def amountToRational (amount : Amount) : ℚ := amount.toNat

/-- `AmountFraction`: parts per hundred thousand, at most one whole. -/
structure AmountFraction where
  partsPerHundredThousands : ℕ
  atMostOne : partsPerHundredThousands ≤ 100000

def fractionToRational (fraction : AmountFraction) : ℚ :=
  fraction.partsPerHundredThousands / 100000

/-- `Conditionally b a`: an `a` exactly when `b` holds. -/
inductive Conditionally (α : Type) : Bool → Type where
  | cTrue (value : α) : Conditionally α true
  | cFalse : Conditionally α false

/-- `TransactionFeeDistribution`: the baker's and the GAS account's shares of the fees. -/
structure TransactionFeeDistribution where
  tfdBaker : AmountFraction
  tfdGASAccount : AmountFraction
  sharesAtMostOne :
    tfdBaker.partsPerHundredThousands + tfdGASAccount.partsPerHundredThousands ≤ 100000

/-- `GASRewards`; the finalization-proof fraction exists for the GAS rewards versions that pay
for finalization proofs. -/
structure GASRewards (finalizationProofPaid : Bool) where
  gasBaker : AmountFraction
  gasFinalizationProof : Conditionally AmountFraction finalizationProofPaid
  gasAccountCreation : AmountFraction
  gasChainUpdate : AmountFraction

/-- The `BlockReward` special outcome. -/
structure BlockReward where
  stoTransactionFees : Amount
  stoOldGASAccount : Amount
  stoNewGASAccount : Amount
  stoBakerReward : Amount
  stoFoundationCharge : Amount
  stoBaker : ℕ
  stoFoundationAccount : ℕ

/-- The three parts of a block reward: new GAS account, foundation charge, baker reward. -/
structure RewardSplit where
  gasOut : ℤ
  platformFees : ℤ
  bakerOut : ℤ
deriving DecidableEq

def BlockReward.split (outcome : BlockReward) : RewardSplit :=
  { gasOut := outcome.stoNewGASAccount.toNat
    platformFees := outcome.stoFoundationCharge.toNat
    bakerOut := outcome.stoBakerReward.toNat }

/-- The `BlockAccrueReward` special outcome. -/
structure BlockAccrueReward where
  stoTransactionFees : Amount
  stoOldGASAccount : Amount
  stoNewGASAccount : Amount
  stoBakerReward : Amount
  stoPassiveReward : Amount
  stoFoundationCharge : Amount
  stoBakerId : ℕ

variable {finalizationProofPaid : Bool}

/-- The four parts of a block's fee accrual: new GAS account, foundation charge, and the
passive delegators' and the baker pool's rewards. -/
structure AccrualSplit where
  gasOut : ℤ
  platformFees : ℤ
  passiveOut : ℤ
  poolOut : ℤ
deriving DecidableEq

def BlockAccrueReward.split (outcome : BlockAccrueReward) : AccrualSplit :=
  { gasOut := outcome.stoNewGASAccount.toNat
    platformFees := outcome.stoFoundationCharge.toNat
    passiveOut := outcome.stoPassiveReward.toNat
    poolOut := outcome.stoBakerReward.toNat }

end Concordium.Scheduler.TreeStateEnvironment
