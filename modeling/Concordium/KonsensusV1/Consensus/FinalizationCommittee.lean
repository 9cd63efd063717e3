import Concordium.GlobalState.BakerInfo
import Concordium.KonsensusV1.Types
import Concordium.Library.AscMap
import Concordium.Library.LeastEntries
import Concordium.Library.Rounding
import Mathlib.Data.Prod.Lex

/-!
Contract: `computeFinalizationCommittee` chooses the finalizers its specification names: the
bakers by descending stake and then ascending baker id, at most `_fcpMaxFinalizers` of them; of
those the first `_fcpMinFinalizers`, then the ones whose stake reaches the threshold; listed by
ascending baker id, each indexed by its position.

Owns:
- `PartsPerHundredThousands` (its bound of one whole as a field) and
  `FinalizationCommitteeParameters`, as `Concordium.Types` has them;
- `computeFinalizationCommittee` with its `insert` into a map keyed by `insKey` and capped at
  `_fcpMaxFinalizers`, `finalizerAmountThreshold`, `takeFinalizers` and `mkFinalizer`; the
  `error` on a cap of zero is a thrown `Except`;
- `insert_leastEntries` (one baker) and `foldlM_insert` (all of them): the capped map holds the
  least entries, in the sense of `LeastEntries.leastEntries`, of the bakers so far;
- `specifiedFinalizers`, the committee as the specification states it, with
  `stakeThenIdLE` for its order.

Does not own: the signature and VRF keys of a finalizer (`FinalizerInfo` keeps the BLS key and the
baker id), the committee hash, and the width of `VoterPower`. Weights are `Nat`: the committee's
total weight is the exact sum of its finalizers' stakes, which is the source's `Word64` sum while
the stakes add up below `2 ^ 64`, as amounts of one supply of CCD do. The stake in `insKey` is
compared as the number it is, which is how `Down Amount` orders.
-/

set_option autoImplicit false

namespace Concordium.KonsensusV1.Consensus

open Concordium.KonsensusV1.Types Concordium.GlobalState.BakerInfo LeastEntries

/-- `PartsPerHundredThousands`: a fraction of at most one whole. -/
structure PartsPerHundredThousands where
  partsPerHundredThousand : Nat
  atMostOne : partsPerHundredThousand ≤ 100000
deriving DecidableEq

def partsPerHundredThousandsToRational (fraction : PartsPerHundredThousands) : ℚ :=
  fraction.partsPerHundredThousand / 100000

structure FinalizationCommitteeParameters where
  fcpMinFinalizers : UInt32
  fcpMaxFinalizers : UInt32
  fcpFinalizerRelativeStakeThreshold : PartsPerHundredThousands
deriving DecidableEq

/-! ## The source -/

/-- `insKey = (Down (fbi ^. bakerStake), fbi ^. bakerIdentity)`. -/
def computeFinalizationCommittee.insKey (fbi : FullBakerInfo) : ℕᵒᵈ ×ₗ ℕ :=
  toLex (OrderDual.toDual fbi.bakerStake.toNat, fbi.theBakerInfo.bakerIdentity)

/-- `insert`: below the cap the baker is added; at the cap it displaces the greatest key if its
own key is below that one. -/
def computeFinalizationCommittee.insert (fcpMaxFinalizers : UInt32)
    (m : AscMap (ℕᵒᵈ ×ₗ ℕ) FullBakerInfo) (fbi : FullBakerInfo) :
    Except String (AscMap (ℕᵒᵈ ×ₗ ℕ) FullBakerInfo) :=
  if m.size = fcpMaxFinalizers.toNat then
    match m.maxViewWithKey with
    | none => throw "computeFinalizationCommittee: _fcpMaxFinalizers must not be 0"
    | some ((k, _), m') =>
        if computeFinalizationCommittee.insKey fbi < k then
          pure (m'.insert (computeFinalizationCommittee.insKey fbi) fbi)
        else pure m
  else pure (m.insert (computeFinalizationCommittee.insKey fbi) fbi)

/-- `amountSortedBakers = Map.elems $ foldl' insert Map.empty fullBakerInfos`. -/
def computeFinalizationCommittee.amountSortedBakers (fcpMaxFinalizers : UInt32)
    (fullBakerInfos : List FullBakerInfo) : Except String (List FullBakerInfo) :=
  AscMap.elems <$>
    fullBakerInfos.foldlM (computeFinalizationCommittee.insert fcpMaxFinalizers) AscMap.empty

/-- `finalizerAmountThreshold`: the threshold fraction of the total stake, rounded up to an
`Amount`. -/
def computeFinalizationCommittee.finalizerAmountThreshold (bakerTotalStake : UInt64)
    (threshold : PartsPerHundredThousands) : UInt64 :=
  UInt64.ofInt ⌈partsPerHundredThousandsToRational threshold * (bakerTotalStake.toNat : ℚ)⌉

/-- `takeFinalizers`: the first `n` bakers, then those whose stake reaches the threshold. The
count is the `Word32` minimum as a number; it only counts down from a positive value. -/
def computeFinalizationCommittee.takeFinalizers (finalizerAmountThreshold : UInt64) :
    Nat → List FullBakerInfo → List FullBakerInfo
  | 0, fs => fs.takeWhile fun f => f.bakerStake ≥ finalizerAmountThreshold
  | n + 1, f :: fs => f :: computeFinalizationCommittee.takeFinalizers finalizerAmountThreshold n fs
  | _ + 1, [] => []

def computeFinalizationCommittee.mkFinalizer (finalizerIndex : Nat) (bi : FullBakerInfo) :
    FinalizerInfo where
  finalizerIndex := finalizerIndex
  finalizerWeight := bi.bakerStake.toNat
  finalizerBlsKey := bi.theBakerInfo.bakerAggregationVerifyKey
  finalizerBakerId := bi.theBakerInfo.bakerIdentity

/-- `computeFinalizationCommittee`. `sortOn` is the stable `mergeSort` by baker id, and
`zipWith mkFinalizer [FinalizerIndex 0 ..]` indexes by position: there are at most
`_fcpMaxFinalizers` finalizers, fewer than `2 ^ 32`, so the enumeration never runs out. -/
def computeFinalizationCommittee (bakers : FullBakers)
    (parameters : FinalizationCommitteeParameters) : Except String FinalizationCommittee := do
  let amountSortedBakers ← computeFinalizationCommittee.amountSortedBakers
    parameters.fcpMaxFinalizers bakers.fullBakerInfos
  let cappedFinalizers := computeFinalizationCommittee.takeFinalizers
    (computeFinalizationCommittee.finalizerAmountThreshold bakers.bakerTotalStake
      parameters.fcpFinalizerRelativeStakeThreshold)
    parameters.fcpMinFinalizers.toNat amountSortedBakers
  let sortedFinalizers := cappedFinalizers.mergeSort fun first second =>
    decide (first.theBakerInfo.bakerIdentity ≤ second.theBakerInfo.bakerIdentity)
  let committeeFinalizers := sortedFinalizers.mapIdx computeFinalizationCommittee.mkFinalizer
  pure ⟨committeeFinalizers, (committeeFinalizers.map FinalizerInfo.finalizerWeight).sum⟩

namespace computeFinalizationCommittee

/-! ## The capped map holds the least entries -/

/-- The entry the map stores for a baker. -/
def entryOf (fbi : FullBakerInfo) : (ℕᵒᵈ ×ₗ ℕ) × FullBakerInfo :=
  (insKey fbi, fbi)

section Insert

variable {fcpMaxFinalizers : UInt32}

/-- A key the bakers so far do not have is not in a map of their least entries. -/
theorem fresh_of_leastEntries {m : AscMap (ℕᵒᵈ ×ₗ ℕ) FullBakerInfo}
    {processed : List FullBakerInfo} {fbi : FullBakerInfo}
    (kept : m.toAscList ⊆ leastEntries Prod.fst fcpMaxFinalizers.toNat (processed.map entryOf))
    (distinct : ((processed ++ [fbi]).map insKey).Nodup) :
    ∀ entry ∈ m.toAscList, entry.1 ≠ insKey fbi := by
  intro entry listed same
  obtain ⟨baker, earlier, rfl⟩ := List.mem_map.mp (mem_of_mem_leastEntries (kept listed))
  rw [List.map_append, List.nodup_append] at distinct
  exact distinct.2.2 _ (List.mem_map_of_mem earlier) _ (List.mem_singleton_self _) same

theorem notMem_keys {m : AscMap (ℕᵒᵈ ×ₗ ℕ) FullBakerInfo} {key : ℕᵒᵈ ×ₗ ℕ}
    (fresh : ∀ entry ∈ m.toAscList, entry.1 ≠ key) : key ∉ m.keys := by
  intro listed
  obtain ⟨entry, present, same⟩ := List.mem_map.mp listed
  exact fresh entry present same

/-- One baker into the capped map: if the map held the least entries of the bakers before, it
holds those of the bakers with this one. -/
theorem insert_leastEntries (positive : 0 < fcpMaxFinalizers.toNat)
    {m : AscMap (ℕᵒᵈ ×ₗ ℕ) FullBakerInfo} {processed : List FullBakerInfo} {fbi : FullBakerInfo}
    (kept : m.toAscList = leastEntries Prod.fst fcpMaxFinalizers.toNat (processed.map entryOf))
    (distinct : ((processed ++ [fbi]).map insKey).Nodup) :
    ∃ next, insert fcpMaxFinalizers m fbi = .ok next ∧
      next.toAscList =
        leastEntries Prod.fst fcpMaxFinalizers.toNat ((processed ++ [fbi]).map entryOf) := by
  have distinctEntries : ((processed.map entryOf ++ [entryOf fbi]).map Prod.fst).Nodup := by
    simpa [List.map_map, Function.comp_def, entryOf] using distinct
  have fresh := fresh_of_leastEntries (by rw [kept]; exact List.Subset.refl _) distinct
  rw [List.map_append, List.map_singleton]
  by_cases full : m.size = fcpMaxFinalizers.toNat
  · obtain ⟨⟨k, v⟩, m', found, split⟩ := AscMap.maxViewWithKey_of_size_pos (full ▸ positive)
    have listed := kept ▸ split
    have capped : fcpMaxFinalizers.toNat = m'.toAscList.length + 1 := by
      rw [← full, AscMap.size, split, List.length_append, List.length_singleton]
    have greatest : k ≠ insKey fbi := fresh (k, v) (split ▸ List.mem_append_right _
      (List.mem_singleton_self _))
    rcases lt_or_gt_of_ne greatest with below | above
    · -- the greatest kept key is below the new one, which is dropped
      refine ⟨m, by rw [insert, if_pos full, found]; simp [not_lt.mpr below.le]; rfl, ?_⟩
      rw [leastEntries_append_of_last_lt distinctEntries listed capped below, ← split]
    · -- the new key is below the greatest kept one and displaces it
      have freshRest : insKey fbi ∉ m'.keys := notMem_keys fun entry present =>
        fresh entry (split ▸ List.mem_append_left _ present)
      refine ⟨m'.insert (insKey fbi) fbi, by rw [insert, if_pos full, found]; simp [above]; rfl, ?_⟩
      rw [AscMap.insert_toAscList_of_notMem freshRest,
        leastEntries_append_of_lt_last distinctEntries listed capped above]
      rfl
  · have short : (leastEntries Prod.fst fcpMaxFinalizers.toNat (processed.map entryOf)).length <
        fcpMaxFinalizers.toNat := by
      rw [← kept]
      have atMost : m.toAscList.length ≤ fcpMaxFinalizers.toNat := by
        rw [kept, leastEntries]
        exact List.length_take_le _ _
      exact lt_of_le_of_ne atMost full
    refine ⟨m.insert (insKey fbi) fbi, by rw [insert, if_neg full]; rfl, ?_⟩
    rw [AscMap.insert_toAscList_of_notMem (notMem_keys fresh),
      leastEntries_append_of_length_lt distinctEntries short, kept]
    rfl

/-- The whole fold: from a map of the least entries of the bakers before, the map after the rest
holds the least entries of all of them. -/
theorem foldlM_insert (positive : 0 < fcpMaxFinalizers.toNat) :
    ∀ (bakers processed : List FullBakerInfo) (m : AscMap (ℕᵒᵈ ×ₗ ℕ) FullBakerInfo),
      m.toAscList = leastEntries Prod.fst fcpMaxFinalizers.toNat (processed.map entryOf) →
      ((processed ++ bakers).map insKey).Nodup →
      ∃ final, bakers.foldlM (insert fcpMaxFinalizers) m = .ok final ∧
        final.toAscList =
          leastEntries Prod.fst fcpMaxFinalizers.toNat ((processed ++ bakers).map entryOf)
  | [], processed, m, kept, _ => ⟨m, rfl, by rw [List.append_nil]; exact kept⟩
  | fbi :: rest, processed, m, kept, distinct => by
      have prefixDistinct : ((processed ++ [fbi]).map insKey).Nodup := by
        refine distinct.sublist (List.Sublist.map _ ?_)
        exact List.Sublist.append_left (List.singleton_sublist.mpr List.mem_cons_self) _
      obtain ⟨next, stepped, nextKept⟩ := insert_leastEntries positive kept prefixDistinct
      obtain ⟨final, run, finalKept⟩ := foldlM_insert positive rest (processed ++ [fbi]) next
        nextKept (by rwa [List.append_assoc, List.singleton_append])
      refine ⟨final, ?_, ?_⟩
      · rw [List.foldlM_cons, stepped]
        exact run
      · rw [finalKept, List.append_assoc, List.singleton_append]

end Insert

/-- Distinct baker ids give distinct keys. -/
theorem nodup_insKey {bakers : List FullBakerInfo}
    (distinct : (bakers.map fun fbi => fbi.theBakerInfo.bakerIdentity).Nodup) :
    (bakers.map insKey).Nodup := by
  have ids : (bakers.map insKey).map (fun key => (ofLex key).2) =
      bakers.map fun fbi => fbi.theBakerInfo.bakerIdentity := by
    rw [List.map_map]
    rfl
  exact List.Nodup.of_map _ (ids ▸ distinct)

/-- With a positive cap and distinct baker ids, the fold keeps the bakers of least key, the
first `_fcpMaxFinalizers` in key order. -/
theorem amountSortedBakers_eq {fcpMaxFinalizers : UInt32} (positive : 0 < fcpMaxFinalizers.toNat)
    {bakers : List FullBakerInfo}
    (distinct : (bakers.map fun fbi => fbi.theBakerInfo.bakerIdentity).Nodup) :
    amountSortedBakers fcpMaxFinalizers bakers =
      .ok ((bakers.insertionSort fun first second => insKey first ≤ insKey second).take
        fcpMaxFinalizers.toNat) := by
  obtain ⟨final, run, kept⟩ := foldlM_insert positive bakers [] AscMap.empty
    (by simp [leastEntries, AscMap.empty]) (by simpa using nodup_insKey distinct)
  -- sorting the entries by key is sorting the bakers by key
  have sorted : (bakers.map entryOf).insertionSort (fun first second => first.1 ≤ second.1) =
      (bakers.insertionSort fun first second => insKey first ≤ insKey second).map entryOf :=
    (List.map_insertionSort _ _ entryOf bakers fun _ _ _ _ => Iff.rfl).symm
  rw [List.nil_append, leastEntries, sorted, ← List.map_take] at kept
  rw [amountSortedBakers, run]
  show Except.ok final.elems = _
  rw [AscMap.elems, kept, List.map_map]
  exact congrArg Except.ok (List.map_id _)

/-! ## The threshold and the finalizers taken -/

theorem takeFinalizers_eq (threshold : UInt64) :
    ∀ (n : Nat) (fs : List FullBakerInfo), takeFinalizers threshold n fs =
      fs.take n ++ (fs.drop n).takeWhile fun f => f.bakerStake ≥ threshold
  | 0, fs => rfl
  | n + 1, f :: fs => by
      rw [takeFinalizers, takeFinalizers_eq threshold n fs]
      rfl
  | _ + 1, [] => rfl

/-- The threshold is a word of the rounded-up fraction of the total stake: the fraction is at
most one whole, so the rounding stays below the total and does not wrap. -/
theorem finalizerAmountThreshold_toNat (bakerTotalStake : UInt64)
    (threshold : PartsPerHundredThousands) :
    ((finalizerAmountThreshold bakerTotalStake threshold).toNat : ℤ) =
      ⌈partsPerHundredThousandsToRational threshold * (bakerTotalStake.toNat : ℚ)⌉ := by
  have fraction : 0 ≤ partsPerHundredThousandsToRational threshold ∧
      partsPerHundredThousandsToRational threshold ≤ 1 := by
    have atMostOne : (threshold.partsPerHundredThousand : ℚ) ≤ 100000 := by
      exact_mod_cast threshold.atMostOne
    constructor
    · unfold partsPerHundredThousandsToRational
      positivity
    · unfold partsPerHundredThousandsToRational
      rw [div_le_one (by norm_num)]
      exact atMostOne
  have total : (0 : ℚ) ≤ bakerTotalStake.toNat := Nat.cast_nonneg _
  exact (Rounding.ofInt_ceil bakerTotalStake (mul_nonneg fraction.1 total)
    (mul_le_of_le_one_left total fraction.2)).1

/-- A stake reaches the threshold exactly when it is at least the rounded-up fraction. -/
theorem reaches_threshold_iff (bakerTotalStake : UInt64) (threshold : PartsPerHundredThousands)
    (fbi : FullBakerInfo) :
    fbi.bakerStake ≥ finalizerAmountThreshold bakerTotalStake threshold ↔
      ⌈partsPerHundredThousandsToRational threshold * (bakerTotalStake.toNat : ℚ)⌉ ≤
        (fbi.bakerStake.toNat : ℤ) := by
  rw [ge_iff_le, UInt64.le_iff_toNat_le, ← finalizerAmountThreshold_toNat]
  exact Int.ofNat_le.symm

/-- A finalizer's index, weight, key and id, read back from the list `mkFinalizer` builds. -/
theorem map_mapIdx_mkFinalizer {γ : Type} (view : FinalizerInfo → γ) (keep : FullBakerInfo → γ)
    (agrees : ∀ index bi, view (mkFinalizer index bi) = keep bi) (bakers : List FullBakerInfo) :
    (bakers.mapIdx mkFinalizer).map view = bakers.map keep :=
  List.ext_getElem (by simp) fun index _ _ => by simp [agrees]

end computeFinalizationCommittee

/-! ## The committee the specification names -/

/-- The committee order: more stake first, then the smaller baker id. -/
def stakeThenIdLE (first second : FullBakerInfo) : Prop :=
  second.bakerStake.toNat < first.bakerStake.toNat ∨
    first.bakerStake.toNat = second.bakerStake.toNat ∧
      first.theBakerInfo.bakerIdentity ≤ second.theBakerInfo.bakerIdentity

instance : DecidableRel stakeThenIdLE := fun _ _ =>
  inferInstanceAs (Decidable (_ ∨ _))

theorem insKey_le_iff (first second : FullBakerInfo) :
    computeFinalizationCommittee.insKey first ≤ computeFinalizationCommittee.insKey second ↔
      stakeThenIdLE first second := by
  rw [computeFinalizationCommittee.insKey, computeFinalizationCommittee.insKey,
    Prod.Lex.toLex_le_toLex, stakeThenIdLE]
  exact Iff.rfl

/-- The finalizers the specification names: of the bakers in committee order, at most
`_fcpMaxFinalizers`; the first `_fcpMinFinalizers` of those, then the ones whose stake is at least
the threshold fraction of the total stake, rounded up. -/
def specifiedFinalizers (bakers : FullBakers) (parameters : FinalizationCommitteeParameters) :
    List FullBakerInfo :=
  let top := (bakers.fullBakerInfos.insertionSort stakeThenIdLE).take
    parameters.fcpMaxFinalizers.toNat
  top.take parameters.fcpMinFinalizers.toNat ++
    (top.drop parameters.fcpMinFinalizers.toNat).takeWhile fun fbi =>
      decide (⌈partsPerHundredThousandsToRational parameters.fcpFinalizerRelativeStakeThreshold *
        (bakers.bakerTotalStake.toNat : ℚ)⌉ ≤ (fbi.bakerStake.toNat : ℤ))

theorem specifiedFinalizers_sublist (bakers : FullBakers)
    (parameters : FinalizationCommitteeParameters) :
    (specifiedFinalizers bakers parameters).Sublist
      (bakers.fullBakerInfos.insertionSort stakeThenIdLE) := by
  set top := (bakers.fullBakerInfos.insertionSort stakeThenIdLE).take
    parameters.fcpMaxFinalizers.toNat
  have chosen : (specifiedFinalizers bakers parameters).Sublist top := by
    show (top.take parameters.fcpMinFinalizers.toNat ++
      (top.drop parameters.fcpMinFinalizers.toNat).takeWhile _).Sublist top
    conv_rhs => rw [← List.take_append_drop parameters.fcpMinFinalizers.toNat top]
    exact (List.takeWhile_sublist _).append_left _
  exact chosen.trans (List.take_sublist _ _)

/-- The specified finalizers of bakers with distinct ids have distinct ids. -/
theorem nodup_specifiedFinalizers {bakers : FullBakers}
    (distinct : (bakers.fullBakerInfos.map fun fbi => fbi.theBakerInfo.bakerIdentity).Nodup)
    (parameters : FinalizationCommitteeParameters) :
    ((specifiedFinalizers bakers parameters).map fun fbi => fbi.theBakerInfo.bakerIdentity).Nodup :=
  (((List.perm_insertionSort _ _).map _).nodup_iff.mpr distinct).sublist
    ((specifiedFinalizers_sublist bakers parameters).map _)

open computeFinalizationCommittee in
/-- For bakers with distinct ids and a positive cap, the capped map keeps exactly the first
`_fcpMaxFinalizers` bakers in committee order, and the committee holds the specified finalizers,
by strictly ascending baker id, each at its own index, with their stakes summed as its total
weight. -/
theorem computeFinalizationCommittee_selects_specified (bakers : FullBakers)
    (parameters : FinalizationCommitteeParameters)
    (distinct : (bakers.fullBakerInfos.map fun fbi => fbi.theBakerInfo.bakerIdentity).Nodup)
    (positive : 0 < parameters.fcpMaxFinalizers.toNat) :
    amountSortedBakers parameters.fcpMaxFinalizers bakers.fullBakerInfos =
      .ok ((bakers.fullBakerInfos.insertionSort stakeThenIdLE).take
        parameters.fcpMaxFinalizers.toNat) ∧
    ∃ committee, computeFinalizationCommittee bakers parameters = .ok committee ∧
      (committee.committeeFinalizers.map fun finalizer =>
          (finalizer.finalizerBakerId, finalizer.finalizerWeight, finalizer.finalizerBlsKey)).Perm
        ((specifiedFinalizers bakers parameters).map fun fbi =>
          (fbi.theBakerInfo.bakerIdentity, fbi.bakerStake.toNat,
            fbi.theBakerInfo.bakerAggregationVerifyKey)) ∧
      (committee.committeeFinalizers.map FinalizerInfo.finalizerBakerId).Pairwise (· < ·) ∧
      (∀ (index : Nat) (bound : index < committee.committeeFinalizers.length),
        committee.committeeFinalizers[index].finalizerIndex = index) ∧
      committee.committeeTotalWeight =
        ((specifiedFinalizers bakers parameters).map fun fbi => fbi.bakerStake.toNat).sum := by
  -- the fold keeps the first bakers in key order, which is the committee order
  have sameOrder : bakers.fullBakerInfos.insertionSort
      (fun first second => insKey first ≤ insKey second) =
        bakers.fullBakerInfos.insertionSort stakeThenIdLE := by
    simpa using List.map_insertionSort _ _ id bakers.fullBakerInfos
      fun first _ second _ => insKey_le_iff first second
  have top := amountSortedBakers_eq positive distinct
  rw [sameOrder] at top
  -- of those, `takeFinalizers` takes the specified ones
  have chosen : takeFinalizers
      (finalizerAmountThreshold bakers.bakerTotalStake parameters.fcpFinalizerRelativeStakeThreshold)
      parameters.fcpMinFinalizers.toNat
      ((bakers.fullBakerInfos.insertionSort stakeThenIdLE).take parameters.fcpMaxFinalizers.toNat) =
        specifiedFinalizers bakers parameters := by
    rw [takeFinalizers_eq, specifiedFinalizers]
    congr
    funext fbi
    exact decide_eq_decide.mpr (reaches_threshold_iff _ _ fbi)
  set sorted := (specifiedFinalizers bakers parameters).mergeSort fun first second =>
    decide (first.theBakerInfo.bakerIdentity ≤ second.theBakerInfo.bakerIdentity)
  have run : computeFinalizationCommittee bakers parameters =
      .ok ⟨sorted.mapIdx mkFinalizer, ((sorted.mapIdx mkFinalizer).map FinalizerInfo.finalizerWeight).sum⟩ := by
    rw [computeFinalizationCommittee, top]
    show Except.ok _ = _
    rw [chosen]
  have perm : sorted.Perm (specifiedFinalizers bakers parameters) := List.mergeSort_perm _ _
  -- sorted by baker id, and the ids are distinct, so they ascend strictly
  have ascending : sorted.Pairwise fun first second =>
      first.theBakerInfo.bakerIdentity < second.theBakerInfo.bakerIdentity := by
    refine pairwise_lt_of_nodup ?_ ((perm.map _).nodup_iff.mpr
      (nodup_specifiedFinalizers distinct parameters))
    have byId := @List.pairwise_mergeSort FullBakerInfo (fun first second =>
        decide (first.theBakerInfo.bakerIdentity ≤ second.theBakerInfo.bakerIdentity))
      (fun _ _ _ first second => by simp only [decide_eq_true_eq] at *; omega)
      (fun first second => by simp only [Bool.or_eq_true, decide_eq_true_eq]; omega)
      (specifiedFinalizers bakers parameters)
    exact byId.imp fun le => of_decide_eq_true le
  refine ⟨top, _, run, ?_, ?_, ?_, ?_⟩
  · rw [map_mapIdx_mkFinalizer _ (fun fbi => (fbi.theBakerInfo.bakerIdentity, fbi.bakerStake.toNat,
      fbi.theBakerInfo.bakerAggregationVerifyKey)) fun _ _ => rfl]
    exact perm.map _
  · rw [map_mapIdx_mkFinalizer _ (fun fbi => fbi.theBakerInfo.bakerIdentity) fun _ _ => rfl]
    exact List.pairwise_map.mpr ascending
  · intro index bound
    show (sorted.mapIdx mkFinalizer)[index].finalizerIndex = index
    rw [List.getElem_mapIdx]
    rfl
  · show ((sorted.mapIdx mkFinalizer).map FinalizerInfo.finalizerWeight).sum = _
    rw [map_mapIdx_mkFinalizer _ (fun fbi => fbi.bakerStake.toNat) fun _ _ => rfl]
    exact (perm.map _).sum_eq

/-- Bakers `0`, `1` and `2` with stakes `100`, `200` and `100`, their keys their ids. -/
def tiebreakBakers : FullBakers :=
  ⟨[⟨⟨0, 0, 0, 0⟩, 100⟩, ⟨⟨1, 1, 1, 1⟩, 200⟩, ⟨⟨2, 2, 2, 2⟩, 100⟩], 400⟩

/-- At least one and at most two finalizers, with a threshold of a quarter of the stake. -/
def tiebreakParameters : FinalizationCommitteeParameters :=
  ⟨1, 2, ⟨25000, by decide⟩⟩

/-- Of two bakers of equal stake behind the greatest, the capped map keeps the smaller id. -/
theorem computeFinalizationCommittee_selects_specified_on_tiebreak :
    ((tiebreakBakers.fullBakerInfos.map fun fbi => fbi.theBakerInfo.bakerIdentity).Nodup ∧
      0 < tiebreakParameters.fcpMaxFinalizers.toNat) ∧
    computeFinalizationCommittee.amountSortedBakers tiebreakParameters.fcpMaxFinalizers
        tiebreakBakers.fullBakerInfos = .ok [⟨⟨1, 1, 1, 1⟩, 200⟩, ⟨⟨0, 0, 0, 0⟩, 100⟩] := by
  have distinct : (tiebreakBakers.fullBakerInfos.map fun fbi =>
      fbi.theBakerInfo.bakerIdentity).Nodup := by decide
  have positive : 0 < tiebreakParameters.fcpMaxFinalizers.toNat := by decide
  obtain ⟨top, -⟩ := computeFinalizationCommittee_selects_specified tiebreakBakers
    tiebreakParameters distinct positive
  exact ⟨⟨distinct, positive⟩, top.trans rfl⟩

end Concordium.KonsensusV1.Consensus
