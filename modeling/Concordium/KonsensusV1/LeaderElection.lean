import Concordium.GlobalState.BakerInfo
import Concordium.Library.WeightedChoice
import Concordium.Library.Rounding

/-!
Contract: `getLeader` chooses the baker at the least index whose stake prefix passes the
hashed target, so that, as the target ranges below the total stake, each baker is chosen for
exactly its stake many targets.

Owns: `getLeader` with its `grabBaker` over 64-bit amounts, `getLeaderFullBakers`, and the
theorem that relates them to `WeightedChoice.choiceIndex` whenever the total stake is positive
and fits an `Amount`.

Does not own: the hash. `hashToInteger nonce rnd` stands for the SHA-256 hash of the serialized
nonce and round, read as a big-endian integer; it is a parameter of the model. The seed state
updates are not modelled.
-/

set_option autoImplicit false

namespace Concordium.KonsensusV1.LeaderElection

open WeightedChoice Concordium.GlobalState.BakerInfo

variable {β ν ρ : Type}

/-- `grabBaker` of `getLeader`: walk the bakers with the running total of their stakes, as an
`Amount`. -/
def getLeader.grabBaker (targetVal : UInt64) : UInt64 → List (β × UInt64) → Except String β
  | runningTotal, (bi, amt) :: bkrs =>
      if targetVal < runningTotal + amt then pure bi
      else getLeader.grabBaker targetVal (runningTotal + amt) bkrs
  | _, [] => throw "getLeader: Empty bakers"

/-- `getLeader bakers nonce rnd`. The total stake is summed as an `Amount`; the source's `mod`
by a total of zero raises `divide by zero`. -/
def getLeader (hashToInteger : ν → ρ → Nat) (bakers : List (β × UInt64)) (nonce : ν) (rnd : ρ) :
    Except String β :=
  let totalStake := (bakers.map Prod.snd).sum.toNat
  if totalStake = 0 then throw "divide by zero"
  else getLeader.grabBaker (UInt64.ofNat (hashToInteger nonce rnd % totalStake)) 0 bakers

def getLeaderFullBakers (hashToInteger : ν → ρ → Nat) (bakers : FullBakers) (nonce : ν)
    (rnd : ρ) : Except String FullBakerInfo :=
  getLeader hashToInteger (bakers.fullBakerInfos.map fun fbi => (fbi, fbi.bakerStake)) nonce rnd

/-- The stakes of the bakers, as numbers. -/
def stakes (bakers : List (β × UInt64)) : List Nat :=
  bakers.map fun baker => baker.2.toNat

@[simp] theorem stakes_cons (bi : β) (amt : UInt64) (bakers : List (β × UInt64)) :
    stakes ((bi, amt) :: bakers) = amt.toNat :: stakes bakers := rfl

/-- While the running total and the stakes still to come fit an `Amount`, the walk chooses the
baker at the index the target, less the running total, falls to. -/
theorem grabBaker_eq (targetVal : UInt64) : ∀ (bakers : List (β × UInt64)) (runningTotal : UInt64),
    runningTotal.toNat + (stakes bakers).sum < 2 ^ 64 →
    runningTotal.toNat ≤ targetVal.toNat →
    targetVal.toNat < runningTotal.toNat + (stakes bakers).sum →
    ∃ leader, bakers[choiceIndex (stakes bakers) (targetVal.toNat - runningTotal.toNat)]? =
        some leader ∧ getLeader.grabBaker targetVal runningTotal bakers = .ok leader.1
  | [], runningTotal, _, reached, below => by
      simp only [stakes, List.map_nil, List.sum_nil] at below
      omega
  | (bi, amt) :: bkrs, runningTotal, fits, reached, below => by
      simp only [stakes_cons, List.sum_cons] at fits below
      have total := Rounding.toNat_add_of_lt
        (by omega : runningTotal.toNat + amt.toNat < 2 ^ 64)
      by_cases here : targetVal.toNat < runningTotal.toNat + amt.toNat
      · have chosen : targetVal < runningTotal + amt := by
          rw [UInt64.lt_iff_toNat_lt, total]
          exact here
        refine ⟨(bi, amt), ?_, by rw [getLeader.grabBaker, if_pos chosen]; rfl⟩
        rw [stakes_cons, choiceIndex, if_pos (by omega)]
        rfl
      · have passed : ¬ targetVal < runningTotal + amt := by
          rw [UInt64.lt_iff_toNat_lt, total]
          exact here
        obtain ⟨leader, found, result⟩ := grabBaker_eq targetVal bkrs (runningTotal + amt)
          (by omega) (by omega) (by omega)
        refine ⟨leader, ?_, by rw [getLeader.grabBaker, if_neg passed]; exact result⟩
        rw [total] at found
        rw [stakes_cons, choiceIndex, if_neg (by omega), List.getElem?_cons_succ,
          show targetVal.toNat - runningTotal.toNat - amt.toNat =
            targetVal.toNat - (runningTotal.toNat + amt.toNat) by omega]
        exact found

/-- Whenever the stakes sum to a positive total that fits an `Amount`, `getLeader` never fails
and returns the baker at the least index whose stake prefix passes the hashed target modulo the
total; as the target ranges below the total, each baker is chosen for exactly its stake many
targets, so a baker without stake is never chosen. -/
theorem getLeader_chooses_by_stake (hashToInteger : ν → ρ → Nat) (bakers : List (β × UInt64))
    (nonce : ν) (rnd : ρ) (positive : 0 < (stakes bakers).sum)
    (fits : (stakes bakers).sum < 2 ^ 64) :
    (∃ leader, bakers[choiceIndex (stakes bakers)
        (hashToInteger nonce rnd % (stakes bakers).sum)]? = some leader ∧
      getLeader hashToInteger bakers nonce rnd = .ok leader.1) ∧
    hashToInteger nonce rnd % (stakes bakers).sum < ((stakes bakers).take
      (choiceIndex (stakes bakers) (hashToInteger nonce rnd % (stakes bakers).sum) + 1)).sum ∧
    (∀ earlier < choiceIndex (stakes bakers) (hashToInteger nonce rnd % (stakes bakers).sum),
      ((stakes bakers).take (earlier + 1)).sum ≤ hashToInteger nonce rnd % (stakes bakers).sum) ∧
    ∀ (index : Nat) (bound : index < (stakes bakers).length),
      ((Finset.range (stakes bakers).sum).filter fun target =>
        choiceIndex (stakes bakers) target = index).card = (stakes bakers)[index] := by
  have below : hashToInteger nonce rnd % (stakes bakers).sum < (stakes bakers).sum :=
    Nat.mod_lt _ positive
  -- the total the source sums as an `Amount` does not wrap
  have totalStake : ((bakers.map Prod.snd).sum).toNat = (stakes bakers).sum := by
    rw [Rounding.toNat_sum _ (by rw [List.map_map]; exact fits), List.map_map]
    rfl
  have targetVal : (UInt64.ofNat (hashToInteger nonce rnd % (stakes bakers).sum)).toNat =
      hashToInteger nonce rnd % (stakes bakers).sum :=
    UInt64.toNat_ofNat_of_lt' (by
      have fitsWord : (stakes bakers).sum < UInt64.size := fits
      omega)
  obtain ⟨leader, found, result⟩ := grabBaker_eq
    (UInt64.ofNat (hashToInteger nonce rnd % (stakes bakers).sum)) bakers 0 (by simpa using fits)
    (by simp) (by rw [targetVal]; simpa using below)
  obtain ⟨passes, earlier⟩ := choiceIndex_least below
  refine ⟨⟨leader, ?_, ?_⟩, passes, earlier, card_choiceIndex (stakes bakers)⟩
  · simpa [targetVal] using found
  · rw [getLeader]
    simp only [totalStake, Nat.pos_iff_ne_zero.mp positive, if_false]
    exact result

/-- Three bakers with stakes `2`, `0` and `3` and a hash of `7`: the target is `2`, which
passes the first prefix `2` only at the third baker. -/
theorem getLeader_chooses_by_stake_on_three :
    (0 < (stakes [(10, (2 : UInt64)), (11, 0), (12, 3)]).sum ∧
      (stakes [(10, (2 : UInt64)), (11, 0), (12, 3)]).sum < 2 ^ 64) ∧
    getLeader (fun (_ : Unit) (_ : Nat) => 7) [(10, (2 : UInt64)), (11, 0), (12, 3)] () 4 =
      .ok 12 := by
  have positive : 0 < (stakes [(10, (2 : UInt64)), (11, 0), (12, 3)]).sum := by decide
  have fits : (stakes [(10, (2 : UInt64)), (11, 0), (12, 3)]).sum < 2 ^ 64 := by decide
  obtain ⟨⟨leader, found, result⟩, _⟩ := getLeader_chooses_by_stake (fun (_ : Unit) (_ : Nat) => 7)
    [(10, (2 : UInt64)), (11, 0), (12, 3)] () 4 positive fits
  have third : leader = (12, 3) := by
    have index : choiceIndex (stakes [(10, (2 : UInt64)), (11, 0), (12, 3)])
        (7 % (stakes [(10, (2 : UInt64)), (11, 0), (12, 3)]).sum) = 2 := by decide
    rw [index] at found
    exact (Option.some.inj found).symm
  rw [third] at result
  exact ⟨⟨positive, fits⟩, result⟩

end Concordium.KonsensusV1.LeaderElection
