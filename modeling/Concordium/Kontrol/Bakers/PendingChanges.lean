import Concordium.Kontrol.Bakers
import Concordium.Library.SortedKey
import Mathlib.Data.List.Flatten

/-!
Contract: `applyPendingChanges` of `Concordium.Kontrol.Bakers`, which applies the effective
pending changes of the bakers and delegators at an epoch transition. It keeps the bakers that are
not removed, in order and with their reductions applied, keeps each remaining delegator with its
baker or, when its baker is removed, moves it to passive delegation, keeps every delegator list
ordered by id, and is idempotent: a second application changes nothing.

Owns:
- `StakePendingChange` (the source's `StakePendingChange'` of `Concordium.Types`, outside these
  sources, over its timestamp type), `ActiveDelegatorInfo` and `ActiveBakerInfo` (the source's
  `ActiveBakerInfo'`) with the fields `applyPendingChanges` reads;
- `applyPendingChanges` with its local `processDelegators`, `mergeDelegators` and `processBaker`;
- the abstract account of a pending change: `afterChange` (the stake and change a staker is left
  with, if it stays), `delegatorAfterChange`, `bakerAfterChange`, and `IdsAscending`;
- `processDelegators_eq_filterMap`, `mergeDelegators_eq_merge` and `processBaker_eq`: the
  source's local functions against that account; and the fold lemmas from which the result is
  assembled (`foldr_processBaker_fst`, `foldr_processBaker_snd_perm`,
  `foldr_processBaker_snd_sorted`, `foldr_processBaker_of_retained`);
- what the result is: the kept bakers (`applyPendingChanges_fst`), the passive delegators
  (`applyPendingChanges_snd_perm`, `applyPendingChanges_snd_ascending`), all delegators
  (`applyPendingChanges_delegators_perm`), and idempotence
  (`applyPendingChanges_applyPendingChanges`).

Does not own: the block state the bakers and delegators are read from, or the time at which a
change is effective (`isEffective` is any predicate).
-/

set_option autoImplicit false

namespace Concordium.Kontrol.Bakers

open Concordium.Scheduler.TreeStateEnvironment

/-- `Timestamp`: milliseconds since the Unix epoch, a `Word64`. -/
abbrev Timestamp := UInt64

/-- `StakePendingChange'`: a change to a stake that takes effect at a time of type `et`. -/
inductive StakePendingChange (et : Type) where
  | NoChange
  | ReduceStake (amount : Amount) (effectiveTime : et)
  | RemoveStake (effectiveTime : et)
deriving DecidableEq, Repr

/-- The fields of `ActiveDelegatorInfo` that `applyPendingChanges` reads. The source's
`DelegatorId` is an account index, a `Word64`; only its order is used. -/
structure ActiveDelegatorInfo where
  activeDelegatorId : Nat
  activeDelegatorStake : Amount
  activeDelegatorPendingChange : StakePendingChange Timestamp
deriving DecidableEq, Repr

/-- `ActiveBakerInfo'`, over the reference to the baker's information. -/
structure ActiveBakerInfo (bakerInfoRef : Type) where
  activeBakerInfoRef : bakerInfoRef
  activeBakerEquityCapital : Amount
  activeBakerPendingChange : StakePendingChange Timestamp
  activeBakerDelegators : List ActiveDelegatorInfo
deriving DecidableEq, Repr

section Apply

variable {bakerInfoRef : Type} (isEffective : Timestamp → Bool)

/-- Apply the effective pending changes to a list of delegators. -/
def processDelegators : List ActiveDelegatorInfo → List ActiveDelegatorInfo
  | [] => []
  | d :: ds =>
    match d.activeDelegatorPendingChange with
    | .RemoveStake et =>
      if isEffective et then processDelegators ds else d :: processDelegators ds
    | .ReduceStake amt et =>
      if isEffective et then
        { d with activeDelegatorStake := amt, activeDelegatorPendingChange := .NoChange } ::
          processDelegators ds
      else d :: processDelegators ds
    | .NoChange => d :: processDelegators ds

/-- Merge two disjoint ordered lists of delegators. -/
def mergeDelegators : List ActiveDelegatorInfo → List ActiveDelegatorInfo →
    List ActiveDelegatorInfo
  | [], l => l
  | l, [] => l
  | d1 :: ds1, d2 :: ds2 =>
    if d1.activeDelegatorId ≤ d2.activeDelegatorId then d1 :: mergeDelegators ds1 (d2 :: ds2)
    else d2 :: mergeDelegators (d1 :: ds1) ds2

/-- Process a baker: keep it, with its change applied, if it is still a baker, and otherwise
move its delegators to passive delegation. -/
def processBaker (baker : ActiveBakerInfo bakerInfoRef) :
    List (ActiveBakerInfo bakerInfoRef) × List ActiveDelegatorInfo →
      List (ActiveBakerInfo bakerInfoRef) × List ActiveDelegatorInfo
  | (bakers, passive) =>
    let pDelegators := processDelegators isEffective baker.activeBakerDelegators
    match baker.activeBakerPendingChange with
    | .RemoveStake et =>
      if isEffective et then (bakers, mergeDelegators pDelegators passive)
      else ({ baker with activeBakerDelegators := pDelegators } :: bakers, passive)
    | .ReduceStake amt et =>
      if isEffective et then
        ({ baker with
            activeBakerEquityCapital := amt,
            activeBakerPendingChange := .NoChange,
            activeBakerDelegators := pDelegators } :: bakers,
          passive)
      else ({ baker with activeBakerDelegators := pDelegators } :: bakers, passive)
    | .NoChange => ({ baker with activeBakerDelegators := pDelegators } :: bakers, passive)

/-- `applyPendingChanges isEffective (bakers0, passive0)`. -/
def applyPendingChanges :
    List (ActiveBakerInfo bakerInfoRef) × List ActiveDelegatorInfo →
      List (ActiveBakerInfo bakerInfoRef) × List ActiveDelegatorInfo
  | (bakers0, passive0) =>
    bakers0.foldr (processBaker isEffective) ([], processDelegators isEffective passive0)

/-! ## What a pending change does

The account below says what happens to one staker, baker or delegator alike: the stake and the
change it is left with, or nothing if it is removed. -/

/-- The stake and pending change a staker is left with after its change, if it stays. -/
def afterChange (stake : Amount) :
    StakePendingChange Timestamp → Option (Amount × StakePendingChange Timestamp)
  | .RemoveStake et => if isEffective et then none else some (stake, .RemoveStake et)
  | .ReduceStake amt et =>
    if isEffective et then some (amt, .NoChange) else some (stake, .ReduceStake amt et)
  | .NoChange => some (stake, .NoChange)

/-- Whether a change removes the staker: an effective `RemoveStake`. -/
def removesStake : StakePendingChange Timestamp → Bool
  | .RemoveStake et => isEffective et
  | _ => false

/-- A delegator after its change, if it stays. -/
def delegatorAfterChange (d : ActiveDelegatorInfo) : Option ActiveDelegatorInfo :=
  (afterChange isEffective d.activeDelegatorStake d.activeDelegatorPendingChange).map
    fun (stake, change) =>
      { d with activeDelegatorStake := stake, activeDelegatorPendingChange := change }

/-- A baker after its change, if it stays, with its delegators after theirs. -/
def bakerAfterChange (baker : ActiveBakerInfo bakerInfoRef) :
    Option (ActiveBakerInfo bakerInfoRef) :=
  (afterChange isEffective baker.activeBakerEquityCapital baker.activeBakerPendingChange).map
    fun (equity, change) =>
      { baker with
        activeBakerEquityCapital := equity,
        activeBakerPendingChange := change,
        activeBakerDelegators :=
          baker.activeBakerDelegators.filterMap (delegatorAfterChange isEffective) }

/-- Ordered by strictly increasing delegator id. -/
def IdsAscending (delegators : List ActiveDelegatorInfo) : Prop :=
  delegators.Pairwise fun first second => first.activeDelegatorId < second.activeDelegatorId

instance : DecidablePred IdsAscending := fun delegators =>
  inferInstanceAs (Decidable (delegators.Pairwise fun first second =>
    first.activeDelegatorId < second.activeDelegatorId))

/-- The delegators of the bakers that their change removes. -/
def delegatorsOfRemoved (bakers : List (ActiveBakerInfo bakerInfoRef)) :
    List ActiveDelegatorInfo :=
  (bakers.filter fun baker => removesStake isEffective baker.activeBakerPendingChange).flatMap
    (·.activeBakerDelegators)

theorem afterChange_eq_none_iff (stake : Amount) (change : StakePendingChange Timestamp) :
    afterChange isEffective stake change = none ↔ removesStake isEffective change = true := by
  cases change with
  | NoChange => simp [afterChange, removesStake]
  | ReduceStake amt et =>
      by_cases effective : isEffective et <;> simp [afterChange, removesStake, effective]
  | RemoveStake et =>
      by_cases effective : isEffective et <;> simp [afterChange, removesStake, effective]

/-- A change, once applied, has nothing left to apply. -/
theorem afterChange_afterChange {stake stake' : Amount}
    {change change' : StakePendingChange Timestamp}
    (applied : afterChange isEffective stake change = some (stake', change')) :
    afterChange isEffective stake' change' = some (stake', change') := by
  cases change with
  | NoChange =>
      simp only [afterChange, Option.some.injEq, Prod.mk.injEq] at applied
      obtain ⟨rfl, rfl⟩ := applied
      rfl
  | ReduceStake amt et =>
      by_cases effective : isEffective et
      · -- an effective reduction leaves no change behind
        simp [afterChange, effective] at applied
        obtain ⟨rfl, rfl⟩ := applied
        rfl
      · simp [afterChange, effective] at applied
        obtain ⟨rfl, rfl⟩ := applied
        simp [afterChange, effective]
  | RemoveStake et =>
      by_cases effective : isEffective et
      · simp [afterChange, effective] at applied
      · simp [afterChange, effective] at applied
        obtain ⟨rfl, rfl⟩ := applied
        simp [afterChange, effective]

@[simp] theorem activeDelegatorId_of_delegatorAfterChange {d d' : ActiveDelegatorInfo}
    (stays : delegatorAfterChange isEffective d = some d') :
    d'.activeDelegatorId = d.activeDelegatorId := by
  unfold delegatorAfterChange at stays
  obtain ⟨⟨stake, change⟩, -, rfl⟩ := Option.map_eq_some_iff.mp stays
  rfl

theorem delegatorAfterChange_delegatorAfterChange {d d' : ActiveDelegatorInfo}
    (stays : delegatorAfterChange isEffective d = some d') :
    delegatorAfterChange isEffective d' = some d' := by
  unfold delegatorAfterChange at stays ⊢
  obtain ⟨⟨stake, change⟩, applied, rfl⟩ := Option.map_eq_some_iff.mp stays
  rw [afterChange_afterChange isEffective applied]
  rfl

theorem bakerAfterChange_eq_none_iff (baker : ActiveBakerInfo bakerInfoRef) :
    bakerAfterChange isEffective baker = none ↔
      removesStake isEffective baker.activeBakerPendingChange = true := by
  unfold bakerAfterChange
  rw [Option.map_eq_none_iff, afterChange_eq_none_iff]

/-- A list of stakers left as they are by a function that, once applied, changes nothing
more. -/
theorem filterMap_filterMap_of_idempotent {α : Type} (f : α → Option α)
    (idempotent : ∀ {a b}, f a = some b → f b = some b) (l : List α) :
    (l.filterMap f).filterMap f = l.filterMap f := by
  rw [List.filterMap_filterMap]
  apply List.filterMap_congr
  intro a _
  cases applied : f a with
  | none => rfl
  | some b => exact idempotent applied

theorem bakerAfterChange_bakerAfterChange {baker baker' : ActiveBakerInfo bakerInfoRef}
    (stays : bakerAfterChange isEffective baker = some baker') :
    bakerAfterChange isEffective baker' = some baker' := by
  unfold bakerAfterChange at stays ⊢
  obtain ⟨⟨equity, change⟩, applied, rfl⟩ := Option.map_eq_some_iff.mp stays
  rw [afterChange_afterChange isEffective applied, Option.map_some,
    filterMap_filterMap_of_idempotent _ (delegatorAfterChange_delegatorAfterChange isEffective)]

/-! ## The source's local functions against the account -/

theorem processDelegators_eq_filterMap (delegators : List ActiveDelegatorInfo) :
    processDelegators isEffective delegators =
      delegators.filterMap (delegatorAfterChange isEffective) := by
  induction delegators with
  | nil => rfl
  | cons d ds inductionHypothesis =>
      obtain ⟨id, stake, change⟩ := d
      cases change with
      | NoChange =>
          simp [processDelegators, delegatorAfterChange, afterChange, inductionHypothesis]
      | ReduceStake amt et =>
          by_cases effective : isEffective et <;>
            simp [processDelegators, delegatorAfterChange, afterChange, effective,
              inductionHypothesis]
      | RemoveStake et =>
          by_cases effective : isEffective et <;>
            simp [processDelegators, delegatorAfterChange, afterChange, effective,
              inductionHypothesis]

/-- The source's merge is the library's, comparing ids. -/
theorem mergeDelegators_eq_merge (first second : List ActiveDelegatorInfo) :
    mergeDelegators first second =
      first.merge second fun d1 d2 => decide (d1.activeDelegatorId ≤ d2.activeDelegatorId) := by
  induction first, second using mergeDelegators.induct with
  | case1 l => rw [mergeDelegators, List.nil_merge]
  | case2 l nonempty => rw [mergeDelegators.eq_2 l nonempty, List.merge_right]
  | case3 d1 ds1 d2 ds2 below inductionHypothesis =>
      rw [mergeDelegators, if_pos below, List.cons_merge_cons, if_pos (decide_eq_true below),
        inductionHypothesis]
  | case4 d1 ds1 d2 ds2 above inductionHypothesis =>
      rw [mergeDelegators, if_neg above, List.cons_merge_cons,
        if_neg fun holds => above (of_decide_eq_true holds), inductionHypothesis]

/-- One baker: kept after its change, or removed with its delegators merged into passive
delegation. -/
theorem processBaker_eq (baker : ActiveBakerInfo bakerInfoRef)
    (acc : List (ActiveBakerInfo bakerInfoRef) × List ActiveDelegatorInfo) :
    processBaker isEffective baker acc =
      match bakerAfterChange isEffective baker with
      | some retained => (retained :: acc.1, acc.2)
      | none =>
        (acc.1, mergeDelegators (processDelegators isEffective baker.activeBakerDelegators)
          acc.2) := by
  obtain ⟨bakers, passive⟩ := acc
  obtain ⟨infoRef, equity, change, delegators⟩ := baker
  rw [processDelegators_eq_filterMap]
  cases change with
  | NoChange => simp [processBaker, bakerAfterChange, afterChange, processDelegators_eq_filterMap]
  | ReduceStake amt et =>
      by_cases effective : isEffective et <;>
        simp [processBaker, bakerAfterChange, afterChange, effective,
          processDelegators_eq_filterMap]
  | RemoveStake et =>
      by_cases effective : isEffective et <;>
        simp [processBaker, bakerAfterChange, afterChange, effective,
          processDelegators_eq_filterMap]

/-- Keeping or reducing delegators keeps any relation between their ids. -/
theorem pairwise_filterMap_delegatorAfterChange {relation : Nat → Nat → Prop}
    {delegators : List ActiveDelegatorInfo}
    (pairwise : delegators.Pairwise fun first second =>
      relation first.activeDelegatorId second.activeDelegatorId) :
    (delegators.filterMap (delegatorAfterChange isEffective)).Pairwise fun first second =>
      relation first.activeDelegatorId second.activeDelegatorId := by
  apply List.Pairwise.filterMap _ _ pairwise
  intro first second related first' firstStays second' secondStays
  rw [activeDelegatorId_of_delegatorAfterChange isEffective firstStays,
    activeDelegatorId_of_delegatorAfterChange isEffective secondStays]
  exact related

theorem ids_filterMap_delegatorAfterChange_sublist :
    ∀ delegators : List ActiveDelegatorInfo,
      ((delegators.filterMap (delegatorAfterChange isEffective)).map (·.activeDelegatorId)).Sublist
        (delegators.map (·.activeDelegatorId))
  | [] => List.Sublist.slnil
  | d :: ds => by
      rw [List.filterMap_cons, List.map_cons]
      cases stays : delegatorAfterChange isEffective d with
      | none => exact (ids_filterMap_delegatorAfterChange_sublist ds).cons _
      | some d' =>
          rw [List.map_cons, activeDelegatorId_of_delegatorAfterChange isEffective stays]
          exact (ids_filterMap_delegatorAfterChange_sublist ds).cons_cons _

/-- Ascending ids with no id twice are strictly ascending. -/
theorem idsAscending_of_sorted {delegators : List ActiveDelegatorInfo}
    (sorted : SortedKey.Sorted (·.activeDelegatorId) delegators)
    (distinct : (delegators.map (·.activeDelegatorId)).Nodup) : IdsAscending delegators := by
  have different := List.pairwise_map.mp distinct
  exact (List.Pairwise.and sorted different).imp fun below => lt_of_le_of_ne below.1 below.2

theorem IdsAscending.sorted {delegators : List ActiveDelegatorInfo}
    (ascending : IdsAscending delegators) :
    SortedKey.Sorted (·.activeDelegatorId) delegators :=
  ascending.imp le_of_lt

theorem activeBakerDelegators_of_bakerAfterChange
    {baker baker' : ActiveBakerInfo bakerInfoRef}
    (stays : bakerAfterChange isEffective baker = some baker') :
    baker'.activeBakerDelegators =
      baker.activeBakerDelegators.filterMap (delegatorAfterChange isEffective) := by
  unfold bakerAfterChange at stays
  obtain ⟨⟨equity, change⟩, -, rfl⟩ := Option.map_eq_some_iff.mp stays
  rfl

/-- A list each of whose members a function leaves as it is. -/
theorem filterMap_eq_of_settled {α : Type} {f : α → Option α} {l : List α}
    (settled : ∀ a ∈ l, f a = some a) : l.filterMap f = l :=
  (List.filterMap_congr settled).trans List.filterMap_some

end Apply

/-! ## The fold over the bakers

The fold runs from the last baker to the first; at each baker it either conses the baker after
its change onto the bakers kept so far or merges its delegators into the passive ones. -/

section Fold

variable {bakerInfoRef : Type} (isEffective : Timestamp → Bool)

theorem foldr_processBaker_fst
    (init : List (ActiveBakerInfo bakerInfoRef) × List ActiveDelegatorInfo)
    (bakers : List (ActiveBakerInfo bakerInfoRef)) :
    (bakers.foldr (processBaker isEffective) init).1 =
      bakers.filterMap (bakerAfterChange isEffective) ++ init.1 := by
  induction bakers with
  | nil => rfl
  | cons baker rest inductionHypothesis =>
      rw [List.foldr_cons, processBaker_eq, List.filterMap_cons]
      cases bakerAfterChange isEffective baker with
      | none => exact inductionHypothesis
      | some retained => rw [inductionHypothesis, List.cons_append]

theorem delegatorsOfRemoved_cons_of_removed {baker : ActiveBakerInfo bakerInfoRef}
    (rest : List (ActiveBakerInfo bakerInfoRef))
    (removed : bakerAfterChange isEffective baker = none) :
    delegatorsOfRemoved isEffective (baker :: rest) =
      baker.activeBakerDelegators ++ delegatorsOfRemoved isEffective rest := by
  unfold delegatorsOfRemoved
  rw [List.filter_cons, if_pos ((bakerAfterChange_eq_none_iff isEffective baker).mp removed),
    List.flatMap_cons]

theorem delegatorsOfRemoved_cons_of_retained {baker retained : ActiveBakerInfo bakerInfoRef}
    (rest : List (ActiveBakerInfo bakerInfoRef))
    (stays : bakerAfterChange isEffective baker = some retained) :
    delegatorsOfRemoved isEffective (baker :: rest) = delegatorsOfRemoved isEffective rest := by
  have kept : ¬ removesStake isEffective baker.activeBakerPendingChange = true := by
    rw [← bakerAfterChange_eq_none_iff, stays]
    exact Option.some_ne_none retained
  unfold delegatorsOfRemoved
  rw [List.filter_cons, if_neg kept]

/-- The passive delegators the fold leaves: those it started with, and the delegators of the
removed bakers after their change. -/
theorem foldr_processBaker_snd_perm
    (init : List (ActiveBakerInfo bakerInfoRef) × List ActiveDelegatorInfo)
    (bakers : List (ActiveBakerInfo bakerInfoRef)) :
    (bakers.foldr (processBaker isEffective) init).2.Perm
      ((delegatorsOfRemoved isEffective bakers).filterMap (delegatorAfterChange isEffective) ++
        init.2) := by
  induction bakers with
  | nil => rfl
  | cons baker rest inductionHypothesis =>
      rw [List.foldr_cons, processBaker_eq]
      cases stays : bakerAfterChange isEffective baker with
      | none =>
          rw [delegatorsOfRemoved_cons_of_removed isEffective rest stays, List.filterMap_append,
            List.append_assoc, mergeDelegators_eq_merge, processDelegators_eq_filterMap]
          exact (List.merge_perm_append _).trans (inductionHypothesis.append_left _)
      | some retained =>
          rw [delegatorsOfRemoved_cons_of_retained isEffective rest stays]
          exact inductionHypothesis

/-- The passive delegators stay in ascending order of id: each merge is of two ordered lists. -/
theorem foldr_processBaker_snd_sorted
    (init : List (ActiveBakerInfo bakerInfoRef) × List ActiveDelegatorInfo)
    (initSorted : SortedKey.Sorted (·.activeDelegatorId) init.2)
    (bakers : List (ActiveBakerInfo bakerInfoRef))
    (bakersSorted : ∀ baker ∈ bakers,
      SortedKey.Sorted (·.activeDelegatorId) baker.activeBakerDelegators) :
    SortedKey.Sorted (·.activeDelegatorId) (bakers.foldr (processBaker isEffective) init).2 := by
  induction bakers with
  | nil => exact initSorted
  | cons baker rest inductionHypothesis =>
      have restSorted := inductionHypothesis fun other listed =>
        bakersSorted other (List.mem_cons_of_mem baker listed)
      rw [List.foldr_cons, processBaker_eq]
      cases bakerAfterChange isEffective baker with
      | none =>
          rw [mergeDelegators_eq_merge, processDelegators_eq_filterMap]
          apply SortedKey.sorted_merge _ restSorted
          exact pairwise_filterMap_delegatorAfterChange isEffective
            (bakersSorted baker List.mem_cons_self)
      | some retained => exact restSorted

/-- Bakers that their change leaves as they are pass through the fold unchanged. -/
theorem foldr_processBaker_of_retained
    (init : List (ActiveBakerInfo bakerInfoRef) × List ActiveDelegatorInfo)
    (bakers : List (ActiveBakerInfo bakerInfoRef))
    (settled : ∀ baker ∈ bakers, bakerAfterChange isEffective baker = some baker) :
    bakers.foldr (processBaker isEffective) init = (bakers ++ init.1, init.2) := by
  induction bakers with
  | nil => rfl
  | cons baker rest inductionHypothesis =>
      rw [List.foldr_cons, processBaker_eq, settled baker List.mem_cons_self,
        inductionHypothesis fun other listed => settled other (List.mem_cons_of_mem baker listed)]
      rfl

/-- The delegators of the kept bakers, after their change, and those of the removed bakers
make up the delegators of all the bakers. -/
theorem flatMap_filterMap_bakerAfterChange_perm (bakers : List (ActiveBakerInfo bakerInfoRef)) :
    ((bakers.filterMap (bakerAfterChange isEffective)).flatMap (·.activeBakerDelegators) ++
        (delegatorsOfRemoved isEffective bakers).filterMap (delegatorAfterChange isEffective)).Perm
      ((bakers.flatMap (·.activeBakerDelegators)).filterMap (delegatorAfterChange isEffective)) := by
  induction bakers with
  | nil => rfl
  | cons baker rest inductionHypothesis =>
      rw [List.filterMap_cons, List.flatMap_cons, List.filterMap_append]
      cases stays : bakerAfterChange isEffective baker with
      | none =>
          -- the removed baker's delegators move from the front to the removed part
          rw [delegatorsOfRemoved_cons_of_removed isEffective rest stays, List.filterMap_append]
          exact (List.perm_append_comm_assoc _ _ _).trans (inductionHypothesis.append_left _)
      | some retained =>
          rw [delegatorsOfRemoved_cons_of_retained isEffective rest stays, List.flatMap_cons,
            activeBakerDelegators_of_bakerAfterChange isEffective stays, List.append_assoc]
          exact inductionHypothesis.append_left _

end Fold

/-! ## Applying the pending changes -/

section Result

variable {bakerInfoRef : Type} (isEffective : Timestamp → Bool)
  (bakers0 : List (ActiveBakerInfo bakerInfoRef)) (passive0 : List ActiveDelegatorInfo)

theorem applyPendingChanges_fst :
    (applyPendingChanges isEffective (bakers0, passive0)).1 =
      bakers0.filterMap (bakerAfterChange isEffective) := by
  unfold applyPendingChanges
  rw [foldr_processBaker_fst, List.append_nil]

theorem applyPendingChanges_snd_perm :
    (applyPendingChanges isEffective (bakers0, passive0)).2.Perm
      ((passive0 ++ delegatorsOfRemoved isEffective bakers0).filterMap
        (delegatorAfterChange isEffective)) := by
  unfold applyPendingChanges
  rw [List.filterMap_append, ← processDelegators_eq_filterMap]
  exact (foldr_processBaker_snd_perm isEffective _ bakers0).trans List.perm_append_comm

/-- Every delegator that stays is either with its baker or passive. -/
theorem applyPendingChanges_delegators_perm :
    ((applyPendingChanges isEffective (bakers0, passive0)).1.flatMap (·.activeBakerDelegators) ++
        (applyPendingChanges isEffective (bakers0, passive0)).2).Perm
      ((bakers0.flatMap (·.activeBakerDelegators) ++ passive0).filterMap
        (delegatorAfterChange isEffective)) := by
  have passive := applyPendingChanges_snd_perm isEffective bakers0 passive0
  rw [List.filterMap_append] at passive
  rw [applyPendingChanges_fst, List.filterMap_append]
  -- the removed bakers' delegators go from the passive part to the kept bakers' side
  have regrouped := (passive.trans List.perm_append_comm).append_left
    ((bakers0.filterMap (bakerAfterChange isEffective)).flatMap (·.activeBakerDelegators))
  rw [← List.append_assoc] at regrouped
  exact regrouped.trans
    ((flatMap_filterMap_bakerAfterChange_perm isEffective bakers0).append_right _)

/-- The passive delegators stay strictly ordered by id: they are ordered, and their ids are
those of distinct delegators. -/
theorem applyPendingChanges_snd_ascending (passiveAscending : IdsAscending passive0)
    (bakersAscending : ∀ baker ∈ bakers0, IdsAscending baker.activeBakerDelegators)
    (distinct : ((bakers0.flatMap (·.activeBakerDelegators) ++ passive0).map
      (·.activeDelegatorId)).Nodup) :
    IdsAscending (applyPendingChanges isEffective (bakers0, passive0)).2 := by
  have initSorted : SortedKey.Sorted (·.activeDelegatorId)
      (processDelegators isEffective passive0) := by
    rw [processDelegators_eq_filterMap]
    exact pairwise_filterMap_delegatorAfterChange isEffective passiveAscending.sorted
  have sorted := foldr_processBaker_snd_sorted isEffective ([], _) initSorted bakers0
    fun baker listed => (bakersAscending baker listed).sorted
  have removedSublist : (delegatorsOfRemoved isEffective bakers0).Sublist
      (bakers0.flatMap (·.activeBakerDelegators)) :=
    List.filter_sublist.flatMap _
  have originsDistinct : ((passive0 ++ delegatorsOfRemoved isEffective bakers0).map
      (·.activeDelegatorId)).Nodup :=
    (List.perm_append_comm.map _).nodup_iff.mp
      (distinct.sublist ((removedSublist.append_right passive0).map _))
  have resultDistinct :=
    ((applyPendingChanges_snd_perm isEffective bakers0 passive0).map
      (·.activeDelegatorId)).nodup_iff.mpr
      (originsDistinct.sublist (ids_filterMap_delegatorAfterChange_sublist isEffective _))
  exact idsAscending_of_sorted sorted resultDistinct

/-- A second application changes nothing: no effective change survives the first. -/
theorem applyPendingChanges_applyPendingChanges :
    applyPendingChanges isEffective (applyPendingChanges isEffective (bakers0, passive0)) =
      applyPendingChanges isEffective (bakers0, passive0) := by
  have bakersSettled : ∀ baker ∈ (applyPendingChanges isEffective (bakers0, passive0)).1,
      bakerAfterChange isEffective baker = some baker := by
    intro baker listed
    rw [applyPendingChanges_fst] at listed
    obtain ⟨original, -, stays⟩ := List.mem_filterMap.mp listed
    exact bakerAfterChange_bakerAfterChange isEffective stays
  have passiveSettled : ∀ d ∈ (applyPendingChanges isEffective (bakers0, passive0)).2,
      delegatorAfterChange isEffective d = some d := by
    intro d listed
    obtain ⟨original, -, stays⟩ := List.mem_filterMap.mp
      ((applyPendingChanges_snd_perm isEffective bakers0 passive0).mem_iff.mp listed)
    exact delegatorAfterChange_delegatorAfterChange isEffective stays
  generalize applyPendingChanges isEffective (bakers0, passive0) = result
    at bakersSettled passiveSettled ⊢
  obtain ⟨bakers, passive⟩ := result
  rw [applyPendingChanges, foldr_processBaker_of_retained isEffective _ bakers bakersSettled,
    processDelegators_eq_filterMap, filterMap_eq_of_settled passiveSettled, List.append_nil]

end Result

/-- Applying the pending changes keeps the bakers that are not removed, in order and after their
change, with their own delegators after theirs; moves the delegators of removed bakers to the
passive ones; keeps every delegator list strictly ordered by id; and changes nothing when
applied again. -/
theorem applyPendingChanges_well_behaved_and_idempotent {bakerInfoRef : Type}
    (isEffective : Timestamp → Bool) (bakers0 : List (ActiveBakerInfo bakerInfoRef))
    (passive0 : List ActiveDelegatorInfo) (passiveAscending : IdsAscending passive0)
    (bakersAscending : ∀ baker ∈ bakers0, IdsAscending baker.activeBakerDelegators)
    (distinct : ((bakers0.flatMap (·.activeBakerDelegators) ++ passive0).map
      (·.activeDelegatorId)).Nodup) :
    let result := applyPendingChanges isEffective (bakers0, passive0)
    result.1 = bakers0.filterMap (bakerAfterChange isEffective) ∧
    result.2.Perm ((passive0 ++ delegatorsOfRemoved isEffective bakers0).filterMap
      (delegatorAfterChange isEffective)) ∧
    (result.1.flatMap (·.activeBakerDelegators) ++ result.2).Perm
      ((bakers0.flatMap (·.activeBakerDelegators) ++ passive0).filterMap
        (delegatorAfterChange isEffective)) ∧
    IdsAscending result.2 ∧
    (∀ baker ∈ result.1, IdsAscending baker.activeBakerDelegators) ∧
    applyPendingChanges isEffective result = result := by
  intro result
  have keptAscending : ∀ baker ∈ result.1, IdsAscending baker.activeBakerDelegators := by
    intro baker listed
    rw [applyPendingChanges_fst] at listed
    obtain ⟨original, originalListed, stays⟩ := List.mem_filterMap.mp listed
    rw [activeBakerDelegators_of_bakerAfterChange isEffective stays]
    exact pairwise_filterMap_delegatorAfterChange isEffective
      (bakersAscending original originalListed)
  exact ⟨applyPendingChanges_fst isEffective bakers0 passive0,
    applyPendingChanges_snd_perm isEffective bakers0 passive0,
    applyPendingChanges_delegators_perm isEffective bakers0 passive0,
    applyPendingChanges_snd_ascending isEffective bakers0 passive0 passiveAscending
      bakersAscending distinct,
    keptAscending, applyPendingChanges_applyPendingChanges isEffective bakers0 passive0⟩

/-- A removed baker with one delegator, a baker whose reduction is due with a delegator leaving
and one whose reduction is not yet due, and two passive delegators. -/
def twoBakers : List (ActiveBakerInfo Nat) :=
  [⟨0, 100, .RemoveStake 3, [⟨4, 10, .NoChange⟩]⟩,
    ⟨1, 200, .ReduceStake 150 4, [⟨1, 20, .RemoveStake 2⟩, ⟨3, 30, .ReduceStake 25 9⟩]⟩]

def twoPassive : List ActiveDelegatorInfo :=
  [⟨2, 5, .ReduceStake 1 1⟩, ⟨5, 7, .NoChange⟩]

theorem applyPendingChanges_well_behaved_and_idempotent_on_two_bakers :
    applyPendingChanges (fun time => decide (time ≤ 5))
        (applyPendingChanges (fun time => decide (time ≤ 5)) (twoBakers, twoPassive)) =
      applyPendingChanges (fun time => decide (time ≤ 5)) (twoBakers, twoPassive) :=
  (applyPendingChanges_well_behaved_and_idempotent (fun time => decide (time ≤ 5)) twoBakers
    twoPassive (by decide) (by decide) (by decide)).2.2.2.2.2


end Concordium.Kontrol.Bakers
