import Concordium.KonsensusV1.TreeState.Implementation
import Mathlib.Data.List.Chain

/-!
Contract: local finalization in `Concordium.KonsensusV1.Consensus.Finality` only moves the last
finalized block forward along one chain.

Owns:
- `pruneBranches` with its `pruneTrunk` and `pruneLimbs`, generic in the block type as in the
  source, over a parent lookup that may fail;
- `processFinalizationHelper`, `processCertifiedBlock`, `processFinalizationEntry` and
  `catchupFinalizationEntry`, as they change the tree state of
  `Concordium.KonsensusV1.TreeState.Implementation`;
- the step function over those two entry points, its run, and the run theorem: from a state
  satisfying `Invariant`, no call reaches an error of `parentOfLive`, the invariant is kept,
  the last finalized block only moves to a live descendant, the blocks reported as finalized
  are the path to it, and an entry built from a certified block is a 2-chain.

Does not own: the signature check of a finalization entry and the committee lookup (the
outcome of both is part of the catch-up event), block-state archiving, transactions,
statistics, shutdown, epoch advancement and the timeout.
-/

set_option autoImplicit false

namespace Concordium.KonsensusV1.Consensus.Finality

open Concordium.KonsensusV1.TreeState

/-! ## Pruning the branches -/

structure PruneResult (β : Type) where
  prRemoved : List β
  /-- In ascending order of height. -/
  prFinalized : List β
  prNewBranches : List (List β)

section Prune

variable {β ε : Type} [BEq β] (parent : β → Except ε β)

/-- `pruneTrunk`, given the trunk's levels from the top down (the source reads them off the end
of the sequence). The source never forces the parent of the lowest keeper; here it is looked
up, and it is the last finalized block. -/
def pruneTrunk : List β → List β → β → List (List β) → Except ε (List β × List β)
  | remove, finalize, _, [] => pure (remove, finalize)
  | remove, finalize, keeper, l :: brs => do
      let next ← parent keeper
      pruneTrunk (remove ++ l.filter (fun block => block != keeper)) (keeper :: finalize) next brs

/-- `List.partition ((`elem` parents) . parent)`, with a parent lookup that may fail. -/
def partitionByParent (parents : List β) : List β → Except ε (List β × List β)
  | [] => pure ([], [])
  | block :: rest => do
      let blockParent ← parent block
      let (survivors, removed) ← partitionByParent parents rest
      if parents.elem blockParent then pure (block :: survivors, removed)
      else pure (survivors, block :: removed)

def pruneLimbs : List β → List β → List (List β) → List (List β) →
    Except ε (List β × List (List β))
  | remove, _, survivors, [] => pure (remove, survivors)
  | remove, parents, survivors, brs :: rest => do
      let (newSurvivors, newRemoved) ← partitionByParent parent parents brs
      pruneLimbs (remove ++ newRemoved) newSurvivors (survivors ++ [newSurvivors]) rest

/-- `pruneBranches parent newFin deltaHeight oldBranches`. The height difference is a `Nat`:
the source's `Int` is never negative here, since the new block is above the old one. -/
def pruneBranches (newFin : β) (deltaHeight : Nat) (oldBranches : List (List β)) :
    Except ε (PruneResult β) := do
  let (trunk, limbs) := oldBranches.splitAt deltaHeight
  let (removedFromTrunk, prFinalized) ← pruneTrunk parent [] [] newFin trunk.reverse
  let (removedFromBranches, prNewBranches) ← pruneLimbs parent [] [newFin] [] limbs
  pure ⟨removedFromTrunk ++ removedFromBranches, prFinalized, prNewBranches⟩

/-- Where every parent lookup succeeds, `partitionByParent` is `List.partition`. -/
theorem partitionByParent_eq (parentOf : β → β) (parents : List β) :
    ∀ blocks : List β, (∀ block ∈ blocks, parent block = .ok (parentOf block)) →
      partitionByParent parent parents blocks =
        .ok (blocks.filter (fun block => parents.elem (parentOf block)),
          blocks.filter (fun block => !parents.elem (parentOf block))) := by
  intro blocks found
  induction blocks with
  | nil => rfl
  | cons block rest inductionHypothesis =>
      have restFound : ∀ other ∈ rest, parent other = .ok (parentOf other) :=
        fun other member => found other (List.mem_cons_of_mem _ member)
      have stepped : partitionByParent parent parents (block :: rest) =
          if parents.elem (parentOf block) then
            .ok (block :: rest.filter (fun block => parents.elem (parentOf block)),
              rest.filter (fun block => !parents.elem (parentOf block)))
          else
            .ok (rest.filter (fun block => parents.elem (parentOf block)),
              block :: rest.filter (fun block => !parents.elem (parentOf block))) := by
        rw [partitionByParent, found block List.mem_cons_self, inductionHypothesis restFound]
        rfl
      rw [stepped]
      by_cases survives : parents.elem (parentOf block) = true
      · simp only [survives, if_true, List.filter_cons, Bool.not_true, Bool.false_eq_true,
          if_false]
      · simp only [survives, if_false, List.filter_cons, Bool.not_false, if_true,
          Bool.false_eq_true]

end Prune

/-! ## Finalization -/

variable {σ : Type}

/-- What `onFinalize` is given: the entry, and the newly finalized blocks in ascending
height. -/
structure Finalized (σ : Type) where
  entry : FinalizationEntry σ
  blocks : List (BlockPointer σ)

/-- Writing blocks to the low-level store, as `writeFinalizedBlocks`,
`writeCertifiedBlock` and `writeCertifiedBlockWithFinalization` record them. -/
def writeBlocks (blocks : List (BlockPointer σ)) (sd : SkovData σ) : SkovData σ :=
  { sd with storedBlocks := fun blockHash =>
      sd.storedBlocks blockHash || (blocks.map (·.bpHash)).contains blockHash }

@[simp] theorem writeBlocks_liveMap (blocks : List (BlockPointer σ)) (sd : SkovData σ) :
    (writeBlocks blocks sd).liveMap = sd.liveMap := rfl

theorem writeBlocks_stores (sd : SkovData σ) {blocks : List (BlockPointer σ)}
    {block : BlockPointer σ} (member : block ∈ blocks) :
    (writeBlocks blocks sd).storedBlocks block.bpHash = true := by
  simp only [writeBlocks, Bool.or_eq_true, List.contains_iff_mem]
  exact Or.inr (List.mem_map_of_mem member)

/-- The live map after finalizing some blocks, storing others and removing a third list:
the finalized and the removed blocks are gone. -/
theorem pruned_liveMap (finalized stored removed : List (BlockPointer σ)) (sd : SkovData σ)
    (key : Nat) :
    (removed.foldl markLiveBlockDead (writeBlocks stored (markLiveBlocksFinal finalized sd))).liveMap
        key = if key ∈ (finalized ++ removed).map (·.bpHash) then none else sd.liveMap key := by
  rw [foldl_markLiveBlockDead_liveMap, writeBlocks_liveMap, markLiveBlocksFinal_liveMap]
  by_cases inRemoved : key ∈ removed.map (·.bpHash)
  · simp [inRemoved]
  · by_cases inFinalized : key ∈ finalized.map (·.bpHash)
    · simp [inFinalized]
    · simp [inRemoved, inFinalized]

/-- `processFinalizationHelper`: prune the branches to the descendants of the new finalized
block, finalize the blocks on the way to it, store them and make it the last finalized block. -/
def processFinalizationHelper (newFinalizedBlock : BlockPointer σ)
    (newFinalizationEntry : FinalizationEntry σ) (mCertifiedBlock : Option (CertifiedBlock σ))
    (sd : SkovData σ) : Except ParentOfLiveError (Finalized σ × SkovData σ) := do
  let oldLastFinalized := sd.lastFinalized
  let deltaHeight := newFinalizedBlock.blockHeight - oldLastFinalized.blockHeight
  let result ← pruneBranches (parentOfLive sd) newFinalizedBlock deltaHeight sd.branches
  let finalizedState := markLiveBlocksFinal result.prFinalized sd
  let storedState := writeBlocks
    (result.prFinalized ++ (mCertifiedBlock.map (·.cbQuorumBlock)).toList) finalizedState
  let prunedState := result.prRemoved.foldl markLiveBlockDead storedState
  pure (⟨newFinalizationEntry, result.prFinalized⟩,
    { prunedState with
      branches := result.prNewBranches
      lastFinalized := newFinalizedBlock
      latestFinalizationEntry := some newFinalizationEntry })

def processFinalizationEntry (newFinalizedPtr : BlockPointer σ)
    (newFinalizationEntry : FinalizationEntry σ) (sd : SkovData σ) :
    Except ParentOfLiveError (Finalized σ × SkovData σ) :=
  processFinalizationHelper newFinalizedPtr newFinalizationEntry none sd

/-- `unlessStored`: do nothing for a block the low-level store already holds. -/
def unlessStored (certified : CertifiedBlock σ) (sd : SkovData σ)
    (action : Except ParentOfLiveError (Option (Finalized σ) × SkovData σ)) :
    Except ParentOfLiveError (Option (Finalized σ) × SkovData σ) :=
  if sd.storedBlocks certified.cbQuorumBlock.bpHash then pure (none, sd) else action

/-- `processCertifiedBlock`: a certified block whose round follows its parent's in the same
epoch finalizes the parent, unless the parent is already the last finalized block; any other
certified block is only stored. -/
def processCertifiedBlock (cb : CertifiedBlock σ) (sd : SkovData σ) :
    Except ParentOfLiveError (Option (Finalized σ) × SkovData σ) :=
  let storeOnly : Except ParentOfLiveError (Option (Finalized σ) × SkovData σ) :=
    pure (none, writeBlocks [cb.cbQuorumBlock] sd)
  match cb.cbQuorumBlock.blockBakedData with
  | some block =>
      let parentQC := block.blockQuorumCertificate
      if cb.cbQuorumCertificate.qcRound = parentQC.qcRound + 1 ∧
          cb.cbQuorumCertificate.qcEpoch = parentQC.qcEpoch then
        unlessStored cb sd <|
          let finalizedBlockHash := parentQC.qcBlock
          if finalizedBlockHash = sd.lastFinalized.bpHash then storeOnly
          else do
            let newFinalizedPtr ← parentOfLive sd cb.cbQuorumBlock
            let newFinalizationEntry : FinalizationEntry σ :=
              { feFinalizedQuorumCertificate := parentQC
                feSuccessorQuorumCertificate := cb.cbQuorumCertificate
                feSuccessorProof := block.bakedBlockHash }
            let (finalized, finalState) ←
              processFinalizationHelper newFinalizedPtr newFinalizationEntry (some cb) sd
            pure (some finalized, finalState)
      else unlessStored cb sd storeOnly
  | none => unlessStored cb sd storeOnly

inductive CatchupFinalizationEntryResult where
  | success
  | inconsistent
  | invalid
  | notAlive
  | unknownBakers
deriving DecidableEq, Repr

/-- `catchupFinalizationEntry`. `committeeCheck` is the outcome of looking up the bakers of the
entry's epoch (`none` when they are unknown) and of `checkFinalizationEntry` against them. -/
def catchupFinalizationEntry (finEntry : FinalizationEntry σ) (committeeCheck : Option Bool)
    (sd : SkovData σ) :
    Except ParentOfLiveError
      (CatchupFinalizationEntryResult × Option (Finalized σ) × SkovData σ) :=
  let finQC := finEntry.feFinalizedQuorumCertificate
  match getLiveBlock finQC.qcBlock sd with
  | some block =>
      if block.blockRound ≠ finQC.qcRound ∨ block.blockEpoch ≠ finQC.qcEpoch then
        pure (.inconsistent, none, sd)
      else
        match committeeCheck with
        | none => pure (.unknownBakers, none, sd)
        | some false => pure (.invalid, none, sd)
        | some true => do
            let (finalized, finalState) ← processFinalizationEntry block finEntry sd
            pure (.success, some finalized, finalState)
  | none => pure (.notAlive, none, sd)

/-! ## Runs -/

inductive Event (σ : Type) where
  | processCertifiedBlock (certified : CertifiedBlock σ)
  | catchupFinalizationEntry (entry : FinalizationEntry σ) (committeeCheck : Option Bool)

def step : Event σ → SkovData σ → Except ParentOfLiveError (Option (Finalized σ) × SkovData σ)
  | .processCertifiedBlock certified, sd => processCertifiedBlock certified sd
  | .catchupFinalizationEntry entry committeeCheck, sd => do
      let (_, finalized, finalState) ← catchupFinalizationEntry entry committeeCheck sd
      pure (finalized, finalState)

/-- The outputs of the events in order, each with the state after it. -/
def run : List (Event σ) → SkovData σ →
    Except ParentOfLiveError (List (Option (Finalized σ) × SkovData σ))
  | [], _ => pure []
  | event :: rest, sd => do
      let (output, next) ← step event sd
      let trace ← run rest next
      pure ((output, next) :: trace)

/-- The caller's side of `processCertifiedBlock`: the certified block is live, or the last
finalized block, or already stored. -/
def Admissible (sd : SkovData σ) : Event σ → Prop
  | .processCertifiedBlock certified =>
      sd.liveMap certified.cbQuorumBlock.bpHash = some certified.cbQuorumBlock ∨
        certified.cbQuorumBlock = sd.lastFinalized ∨
        sd.storedBlocks certified.cbQuorumBlock.bpHash = true
  | .catchupFinalizationEntry _ _ => True

def AdmissibleRun : SkovData σ → List (Event σ) → Prop
  | _, [] => True
  | sd, event :: rest =>
      Admissible sd event ∧ ∀ output next, step event sd = .ok (output, next) →
        AdmissibleRun next rest

/-! ## Pruning a state that satisfies the invariant -/

section Specification

variable {sd : SkovData σ}

/-- Descending the trunk from a live keeper finalizes the path from the last finalized block
to the keeper and removes every other block of the trunk. -/
theorem pruneTrunk_spec (invariant : Invariant sd) :
    ∀ (levels : List (List (BlockPointer σ))) (keeper : BlockPointer σ)
      (remove finalize : List (BlockPointer σ)),
      keeper.blockHeight = sd.lastFinalized.blockHeight + levels.length →
      (levels = [] → keeper = sd.lastFinalized) →
      (levels ≠ [] → sd.liveMap keeper.bpHash = some keeper) →
      (∀ index level, levels[index]? = some level → ∀ block ∈ level,
        sd.liveMap block.bpHash = some block ∧ block.blockHeight + index = keeper.blockHeight) →
      ∃ path removed, pruneTrunk (parentOfLive sd) remove finalize keeper levels =
          .ok (remove ++ removed, path ++ finalize) ∧
        List.IsChain ParentLink (sd.lastFinalized :: path) ∧
        (sd.lastFinalized :: path).getLast? = some keeper ∧
        (∀ block ∈ path ++ removed, sd.liveMap block.bpHash = some block ∧
          block.blockHeight ≤ keeper.blockHeight) ∧
        ∀ level ∈ levels, ∀ block ∈ level, block.bpHash ∈ (path ++ removed).map (·.bpHash) := by
  intro levels
  induction levels with
  | nil =>
      intro keeper remove finalize _ atBottom _ _
      refine ⟨[], [], by simp [pruneTrunk]; rfl, List.isChain_singleton _, ?_, by simp, by simp⟩
      rw [atBottom rfl]
      rfl
  | cons level rest inductionHypothesis =>
      intro keeper remove finalize keeperHeight _ keeperLive levelsLive
      have live := keeperLive (List.cons_ne_nil _ _)
      obtain ⟨parent, found, link, parentLive, _⟩ := parentOfLive_of_live invariant live
      have childHeight : keeper.blockHeight = parent.blockHeight + 1 := by
        obtain ⟨_, _, _, linkHeight⟩ := link
        exact linkHeight
      have parentHeight : parent.blockHeight = sd.lastFinalized.blockHeight + rest.length := by
        rw [List.length_cons] at keeperHeight
        omega
      -- the keeper's parent is the last finalized block exactly at the bottom of the trunk
      have atBottom : rest = [] → parent = sd.lastFinalized := by
        intro noRest
        rcases parentLive with isLastFinalized | parentLive
        · exact isLastFinalized
        · have above := height_gt_of_live invariant parentLive
          rw [noRest, List.length_nil] at parentHeight
          omega
      have aboveBottom : rest ≠ [] → sd.liveMap parent.bpHash = some parent := by
        intro someRest
        rcases parentLive with isLastFinalized | parentLive
        · have nonempty : rest.length ≠ 0 := by simpa using someRest
          rw [isLastFinalized] at parentHeight
          omega
        · exact parentLive
      have restLevels : ∀ index level', rest[index]? = some level' → ∀ block ∈ level',
          sd.liveMap block.bpHash = some block ∧ block.blockHeight + index = parent.blockHeight := by
        intro index level' found' block member
        obtain ⟨blockLive, blockHeight⟩ := levelsLive (index + 1) level' found' block member
        exact ⟨blockLive, by omega⟩
      obtain ⟨path, removed, result, chain, last, below, covered⟩ :=
        inductionHypothesis parent (remove ++ level.filter (fun block => block != keeper))
          (keeper :: finalize) parentHeight atBottom aboveBottom restLevels
      have levelLive : ∀ block ∈ level, sd.liveMap block.bpHash = some block ∧
          block.blockHeight = keeper.blockHeight := by
        intro block member
        obtain ⟨blockLive, blockHeight⟩ := levelsLive 0 level rfl block member
        exact ⟨blockLive, by omega⟩
      refine ⟨path ++ [keeper], level.filter (fun block => block != keeper) ++ removed,
        ?_, ?_, ?_, ?_, ?_⟩
      · rw [pruneTrunk, found]
        show pruneTrunk (parentOfLive sd) _ _ parent rest = _
        rw [result, List.append_assoc, List.append_assoc, List.singleton_append]
      · rw [← List.cons_append]
        refine chain.append (List.isChain_singleton _) ?_
        intro previous lastMember next headMember
        rw [last, Option.mem_some_iff] at lastMember
        rw [List.head?_cons, Option.mem_some_iff] at headMember
        rw [← lastMember, ← headMember]
        exact link
      · rw [← List.cons_append, List.getLast?_append, List.getLast?_singleton]
        rfl
      · intro block member
        simp only [List.mem_append, List.mem_singleton, List.mem_filter] at member
        obtain (inPath | isKeeper) | (⟨inLevel, _⟩ | inRemoved) := member
        · obtain ⟨blockLive, blockHeight⟩ := below block (List.mem_append_left _ inPath)
          exact ⟨blockLive, by omega⟩
        · subst isKeeper
          exact ⟨live, le_rfl⟩
        · obtain ⟨blockLive, blockHeight⟩ := levelLive block inLevel
          exact ⟨blockLive, blockHeight.le⟩
        · obtain ⟨blockLive, blockHeight⟩ := below block (List.mem_append_right _ inRemoved)
          exact ⟨blockLive, by omega⟩
      · intro level' levelMember block member
        rcases List.mem_cons.mp levelMember with isLevel | inRest
        · subst isLevel
          by_cases isKeeper : (block != keeper) = true
          · simp only [List.map_append, List.mem_append, List.mem_map]
            exact Or.inr (Or.inl ⟨block, List.mem_filter.mpr ⟨member, isKeeper⟩, rfl⟩)
          · have sameHash : block.bpHash = keeper.bpHash := by
              simpa [bne, beq_iff_hash_eq] using isKeeper
            simp only [List.map_append, List.mem_append, List.mem_map]
            exact Or.inl (Or.inr ⟨keeper, List.mem_singleton_self _, sameHash.symm⟩)
        · have := covered level' inRest block member
          simp only [List.map_append, List.mem_append] at this ⊢
          rcases this with inPath | inRemoved
          · exact Or.inl (Or.inl inPath)
          · exact Or.inr (Or.inr inRemoved)

/-- The parent `parentOfLive` finds for a block, or the block itself where it fails. -/
def liveParentOf (sd : SkovData σ) (block : BlockPointer σ) : BlockPointer σ :=
  match parentOfLive sd block with
  | .ok parent => parent
  | .error _ => block

theorem liveParentOf_eq_of_ok {block parent : BlockPointer σ}
    (found : parentOfLive sd block = .ok parent) : liveParentOf sd block = parent := by
  rw [liveParentOf, found]

theorem parentOfLive_eq_liveParentOf {block parent : BlockPointer σ}
    (found : parentOfLive sd block = .ok parent) :
    parentOfLive sd block = .ok (liveParentOf sd block) := by
  rw [liveParentOf_eq_of_ok found, found]

/-- Going up the limbs level by level keeps the blocks whose parent was kept one level lower,
starting from the new finalized block, and removes the others. -/
theorem pruneLimbs_spec (invariant : Invariant sd) :
    ∀ (limbs : List (List (BlockPointer σ))) (remove parents : List (BlockPointer σ))
      (survivors : List (List (BlockPointer σ))),
      (∀ level ∈ limbs, ∀ block ∈ level, sd.liveMap block.bpHash = some block) →
      ∃ kept removed, pruneLimbs (parentOfLive sd) remove parents survivors limbs =
          .ok (remove ++ removed, survivors ++ kept) ∧
        kept.length = limbs.length ∧
        (∀ (index : Nat) level block, kept[index]? = some level → block ∈ level →
          (∃ original, limbs[index]? = some original ∧ block ∈ original) ∧
          ∃ previous : List (BlockPointer σ), (parents :: kept)[index]? = some previous ∧
            previous.elem (liveParentOf sd block) = true) ∧
        (∀ (index : Nat) original block, limbs[index]? = some original → block ∈ original →
          (∃ level, kept[index]? = some level ∧ block ∈ level) ∨ block ∈ removed) ∧
        (∀ block ∈ removed, ∃ (index : Nat) (original : List (BlockPointer σ)),
          limbs[index]? = some original ∧ block ∈ original ∧
          ∀ level, kept[index]? = some level → block ∉ level) := by
  intro limbs
  induction limbs with
  | nil =>
      intro remove parents survivors _
      refine ⟨[], [], by simp [pruneLimbs]; rfl, rfl, ?_, ?_, ?_⟩
      · intro index level block found
        simp at found
      · intro index original block found
        simp at found
      · intro block member
        simp at member
  | cons level rest inductionHypothesis =>
      intro remove parents survivors allLive
      let kept := fun block => parents.elem (liveParentOf sd block)
      have partitioned := partitionByParent_eq (parentOfLive sd) (liveParentOf sd) parents level
        (fun block member =>
          let ⟨_, found, _⟩ := parentOfLive_of_live invariant (allLive level
            List.mem_cons_self block member)
          parentOfLive_eq_liveParentOf found)
      obtain ⟨keptRest, removedRest, result, keptLength, keptSpec, coveredSpec, removedSpec⟩ :=
        inductionHypothesis (remove ++ level.filter (fun block => !kept block))
          (level.filter kept) (survivors ++ [level.filter kept])
          (fun level' member => allLive level' (List.mem_cons_of_mem _ member))
      refine ⟨level.filter kept :: keptRest, level.filter (fun block => !kept block) ++ removedRest,
        ?_, by simp [keptLength], ?_, ?_, ?_⟩
      · rw [pruneLimbs, partitioned]
        show pruneLimbs (parentOfLive sd) _ _ _ rest = _
        rw [result, List.append_assoc, List.append_assoc, List.singleton_append]
      · intro index level' block found member
        cases index with
        | zero =>
            rw [List.getElem?_cons_zero, Option.some.injEq] at found
            subst found
            obtain ⟨inLevel, isKept⟩ := List.mem_filter.mp member
            exact ⟨⟨level, rfl, inLevel⟩, parents, rfl, isKept⟩
        | succ index =>
            exact keptSpec index level' block found member
      · intro index original block found member
        cases index with
        | zero =>
            rw [List.getElem?_cons_zero, Option.some.injEq] at found
            subst found
            by_cases isKept : kept block = true
            · exact Or.inl ⟨_, rfl, List.mem_filter.mpr ⟨member, isKept⟩⟩
            · exact Or.inr (List.mem_append_left _
                (List.mem_filter.mpr ⟨member, by simpa using isKept⟩))
        | succ index =>
            rcases coveredSpec index original block found member with inKept | inRemoved
            · exact Or.inl inKept
            · exact Or.inr (List.mem_append_right _ inRemoved)
      · intro block member
        rcases List.mem_append.mp member with inLevel | inRemoved
        · obtain ⟨inOriginal, notKept⟩ := List.mem_filter.mp inLevel
          refine ⟨0, level, rfl, inOriginal, ?_⟩
          intro level' found keptMember
          rw [List.getElem?_cons_zero, Option.some.injEq] at found
          subst found
          have := (List.mem_filter.mp keptMember).2
          simp_all
        · obtain ⟨index, original, found, inOriginal, notKept⟩ := removedSpec block inRemoved
          exact ⟨index + 1, original, found, inOriginal, notKept⟩

/-- `block` is kept at some level of the new branches. -/
def Survives (result : PruneResult (BlockPointer σ)) (block : BlockPointer σ) : Prop :=
  ∃ (index : Nat) (level : List (BlockPointer σ)),
    result.prNewBranches[index]? = some level ∧ block ∈ level

/-- What pruning for a live block yields, as the new state needs it. -/
structure PruneSpec (sd : SkovData σ) (newFin : BlockPointer σ)
    (result : PruneResult (BlockPointer σ)) : Prop where
  finalizedChain : List.IsChain ParentLink (sd.lastFinalized :: result.prFinalized)
  finalizedLast : (sd.lastFinalized :: result.prFinalized).getLast? = some newFin
  finalizedLive : ∀ block ∈ result.prFinalized, sd.liveMap block.bpHash = some block
  /-- Every live block is finalized, removed or kept. -/
  covered : ∀ block, sd.liveMap block.bpHash = some block →
    block.bpHash ∈ (result.prFinalized ++ result.prRemoved).map (·.bpHash) ∨ Survives result block
  /-- A kept block is live, at its level above the new block, and neither finalized nor
  removed. -/
  kept : ∀ (index : Nat) level block, result.prNewBranches[index]? = some level → block ∈ level →
    sd.liveMap block.bpHash = some block ∧ block.blockHeight = newFin.blockHeight + index + 1 ∧
      block.bpHash ∉ (result.prFinalized ++ result.prRemoved).map (·.bpHash)
  /-- A kept block's parent is the new block or was kept one level lower. -/
  keptParent : ∀ (index : Nat) level block, result.prNewBranches[index]? = some level →
    block ∈ level →
    ∃ previous : List (BlockPointer σ),
      ([newFin] :: result.prNewBranches)[index]? = some previous ∧
      previous.elem (liveParentOf sd block) = true

/-- Pruning for a live block succeeds: the trunk is the levels up to its height, the limbs the
levels above. -/
theorem pruneBranches_spec (invariant : Invariant sd) {newFin : BlockPointer σ}
    (live : sd.liveMap newFin.bpHash = some newFin) :
    ∃ result, pruneBranches (parentOfLive sd) newFin
        (newFin.blockHeight - sd.lastFinalized.blockHeight) sd.branches = .ok result ∧
      PruneSpec sd newFin result := by
  have above := height_gt_of_live invariant live
  obtain ⟨ownLevel, ownLevelFound, _⟩ := invariant.complete _ _ live
  have enoughLevels : newFin.blockHeight - sd.lastFinalized.blockHeight ≤ sd.branches.length := by
    obtain ⟨bound, _⟩ := List.getElem?_eq_some_iff.mp ownLevelFound
    omega
  obtain ⟨trunk, trunkDef⟩ : ∃ trunk,
      trunk = sd.branches.take (newFin.blockHeight - sd.lastFinalized.blockHeight) := ⟨_, rfl⟩
  obtain ⟨limbs, limbsDef⟩ : ∃ limbs,
      limbs = sd.branches.drop (newFin.blockHeight - sd.lastFinalized.blockHeight) := ⟨_, rfl⟩
  have trunkLength : trunk.length = newFin.blockHeight - sd.lastFinalized.blockHeight := by
    rw [trunkDef, List.length_take]
    omega
  have trunkLevels : ∀ index level, trunk.reverse[index]? = some level → ∀ block ∈ level,
      sd.liveMap block.bpHash = some block ∧ block.blockHeight + index = newFin.blockHeight := by
    intro index level found block member
    have bound : index < trunk.length := by
      obtain ⟨bound, _⟩ := List.getElem?_eq_some_iff.mp found
      simpa using bound
    rw [List.getElem?_reverse bound, trunkLength, trunkDef, List.getElem?_take,
      if_pos (by omega)] at found
    obtain ⟨blockLive, blockHeight⟩ := invariant.levels _ _ found block member
    rw [trunkLength] at bound
    exact ⟨blockLive, by omega⟩
  obtain ⟨path, removedTrunk, trunkResult, chain, last, pathLive, trunkCovered⟩ :=
    pruneTrunk_spec invariant trunk.reverse newFin [] [] (by rw [List.length_reverse]; omega)
      (fun empty => by
        have lengths := congrArg List.length empty
        rw [List.length_reverse, List.length_nil] at lengths
        omega)
      (fun _ => live) trunkLevels
  have limbLevels : ∀ index level, limbs[index]? = some level → ∀ block ∈ level,
      sd.liveMap block.bpHash = some block ∧ block.blockHeight = newFin.blockHeight + index + 1 := by
    intro index level found block member
    rw [limbsDef, List.getElem?_drop] at found
    obtain ⟨blockLive, blockHeight⟩ := invariant.levels _ _ found block member
    exact ⟨blockLive, by omega⟩
  obtain ⟨kept, removedLimbs, limbsResult, _, keptSpec, limbsCovered, removedSpec⟩ :=
    pruneLimbs_spec invariant limbs [] [newFin] [] (by
      intro level member block blockMember
      obtain ⟨index, found⟩ := List.mem_iff_getElem?.mp member
      exact (limbLevels index level found block blockMember).1)
  refine ⟨⟨removedTrunk ++ removedLimbs, path, kept⟩, ?_, ?_⟩
  · simp only [pruneBranches, List.splitAt_eq, ← trunkDef, ← limbsDef, trunkResult, limbsResult,
      List.nil_append, List.append_nil]
    rfl
  -- a kept block is above the new block, so no finalized or removed block shares its hash
  have keptFacts : ∀ index level block, kept[index]? = some level → block ∈ level →
      sd.liveMap block.bpHash = some block ∧ block.blockHeight = newFin.blockHeight + index + 1 ∧
        block.bpHash ∉ (path ++ (removedTrunk ++ removedLimbs)).map (·.bpHash) := by
    intro index level block found member
    obtain ⟨⟨original, originalFound, inOriginal⟩, _⟩ := keptSpec index level block found member
    obtain ⟨blockLive, blockHeight⟩ := limbLevels index original originalFound block inOriginal
    refine ⟨blockLive, blockHeight, ?_⟩
    intro deleted
    obtain ⟨other, otherMember, sameHash⟩ := List.mem_map.mp deleted
    rw [← List.append_assoc, List.mem_append] at otherMember
    rcases otherMember with inTrunk | inLimbs
    · obtain ⟨otherLive, otherHeight⟩ := pathLive other inTrunk
      have same := live_unique otherLive blockLive sameHash
      subst same
      omega
    · obtain ⟨index', original', found', inOriginal', notKept⟩ := removedSpec other inLimbs
      obtain ⟨otherLive, otherHeight⟩ := limbLevels index' original' found' other inOriginal'
      have same := live_unique otherLive blockLive sameHash
      subst same
      have sameIndex : index' = index := by omega
      subst sameIndex
      exact notKept level found member
  refine ⟨chain, last, fun block member => (pathLive block (List.mem_append_left _ member)).1,
    ?_, ?_, ?_⟩
  · intro block blockLive
    have blockAbove := height_gt_of_live invariant blockLive
    obtain ⟨level, levelFound, member⟩ := invariant.complete _ _ blockLive
    by_cases inTrunk : block.blockHeight ≤ newFin.blockHeight
    · -- a block of the trunk: finalized or removed there
      left
      have reversedFound : trunk.reverse[newFin.blockHeight - block.blockHeight]? = some level := by
        rw [List.getElem?_reverse (by omega), trunkLength, trunkDef, List.getElem?_take,
          if_pos (by omega), ← levelFound]
        congr 1
        omega
      have := trunkCovered level (List.mem_iff_getElem?.mpr ⟨_, reversedFound⟩) block member
      simp only [List.map_append, List.mem_append] at this ⊢
      rcases this with inPath | inRemoved
      · exact Or.inl inPath
      · exact Or.inr (Or.inl inRemoved)
    · -- a block of the limbs: removed or kept there
      have limbFound : limbs[block.blockHeight - newFin.blockHeight - 1]? = some level := by
        rw [limbsDef, List.getElem?_drop, ← levelFound]
        congr 1
        omega
      rcases limbsCovered _ level block limbFound member with ⟨level', keptFound, keptMember⟩ |
        inRemoved
      · exact Or.inr ⟨_, level', keptFound, keptMember⟩
      · left
        simp only [List.map_append, List.mem_append, List.mem_map]
        exact Or.inr (Or.inr ⟨block, inRemoved, rfl⟩)
  · intro index level block found member
    exact keptFacts index level block found member
  · intro index level block found member
    exact (keptSpec index level block found member).2

/-! ## The state after a finalization -/

section Pruned

variable {newFin : BlockPointer σ} {result : PruneResult (BlockPointer σ)} {next : SkovData σ}

/-- The new last finalized block is among the finalized blocks. -/
theorem PruneSpec.newFin_mem (invariant : Invariant sd)
    (live : sd.liveMap newFin.bpHash = some newFin) (spec : PruneSpec sd newFin result) :
    newFin ∈ result.prFinalized := by
  rcases List.mem_cons.mp (List.mem_of_getLast? spec.finalizedLast) with isLastFinalized | inPath
  · exact absurd (congrArg (·.bpHash) isLastFinalized) (lastFinalized_ne_of_live invariant live)
  · exact inPath

/-- A parent recorded for a kept block (the new block, or a block kept one level lower) is
what `parentOfLive` finds for it in the pruned state. -/
theorem keptParent_pointer (invariant : Invariant sd)
    (live : sd.liveMap newFin.bpHash = some newFin) (spec : PruneSpec sd newFin result)
    (nextLive : ∀ key, next.liveMap key =
      if key ∈ (result.prFinalized ++ result.prRemoved).map (·.bpHash) then none
      else sd.liveMap key)
    (nextLastFinalized : next.lastFinalized = newFin)
    {index : Nat} {previous : List (BlockPointer σ)} {other parent : BlockPointer σ}
    (found : ([newFin] :: result.prNewBranches)[index]? = some previous)
    (member : other ∈ previous) (sameHash : other.bpHash = parent.bpHash)
    (parentLiveOr : parent = sd.lastFinalized ∨ sd.liveMap parent.bpHash = some parent) :
    parentPointer next parent.bpHash = some parent := by
  cases index with
  | zero =>
      -- the children of the new block: their parent is now the last finalized block
      rw [List.getElem?_cons_zero, Option.some.injEq] at found
      subst found
      rw [List.mem_singleton] at member
      rw [member] at sameHash
      have isNewFin : newFin = parent := by
        rcases parentLiveOr with isLastFinalized | parentLive
        · rw [isLastFinalized] at sameHash
          exact absurd sameHash (lastFinalized_ne_of_live invariant live)
        · exact live_unique live parentLive sameHash
      rw [← isNewFin, parentPointer, nextLastFinalized, if_pos rfl]
  | succ index =>
      -- a parent kept one level up stays live, and is not the new block, which is lower
      rw [List.getElem?_cons_succ] at found
      obtain ⟨otherLive, otherHeight, notDeleted⟩ := spec.kept index previous other found member
      have isOther : other = parent := by
        rcases parentLiveOr with isLastFinalized | parentLive
        · rw [isLastFinalized] at sameHash
          exact absurd sameHash (lastFinalized_ne_of_live invariant otherLive)
        · exact live_unique otherLive parentLive sameHash
      have notNewFin : other.bpHash ≠ newFin.bpHash := by
        intro same
        have isNewFin := live_unique otherLive live same
        rw [isNewFin] at otherHeight
        omega
      rw [← isOther, parentPointer, nextLastFinalized, if_neg notNewFin, nextLive,
        if_neg notDeleted, otherLive]

/-- The invariant holds after pruning for a live block, whatever else the new state stores. -/
theorem invariant_of_pruned (invariant : Invariant sd)
    (live : sd.liveMap newFin.bpHash = some newFin) (spec : PruneSpec sd newFin result)
    (nextLive : ∀ key, next.liveMap key =
      if key ∈ (result.prFinalized ++ result.prRemoved).map (·.bpHash) then none
      else sd.liveMap key)
    (nextBranches : next.branches = result.prNewBranches)
    (nextLastFinalized : next.lastFinalized = newFin)
    (nextStored : next.storedBlocks newFin.bpHash = true) : Invariant next := by
  have deleted : newFin.bpHash ∈ (result.prFinalized ++ result.prRemoved).map (·.bpHash) :=
    List.mem_map_of_mem (List.mem_append_left _ (spec.newFin_mem invariant live))
  have wasLive : ∀ key block, next.liveMap key = some block →
      sd.liveMap key = some block ∧
        key ∉ (result.prFinalized ++ result.prRemoved).map (·.bpHash) := by
    intro key block found
    rw [nextLive] at found
    by_cases isDeleted : key ∈ (result.prFinalized ++ result.prRemoved).map (·.bpHash)
    · rw [if_pos isDeleted] at found
      cases found
    · rw [if_neg isDeleted] at found
      exact ⟨found, isDeleted⟩
  -- what is still live was kept, since pruning covers every live block
  have survives : ∀ key block, next.liveMap key = some block →
      sd.liveMap block.bpHash = some block ∧ Survives result block := by
    intro key block found
    obtain ⟨blockLive, notDeleted⟩ := wasLive key block found
    have sameKey := invariant.liveKeys key block blockLive
    rw [← sameKey] at blockLive notDeleted
    rcases spec.covered block blockLive with isDeleted | kept
    · exact absurd isDeleted notDeleted
    · exact ⟨blockLive, kept⟩
  refine ⟨?liveKeys, ?liveParent, ?lastFinalizedNotLive, ?lastFinalizedStored, ?levels,
    ?complete⟩
  case liveKeys =>
    intro key block found
    exact invariant.liveKeys key block (wasLive key block found).1
  case liveParent =>
    intro key block found
    obtain ⟨blockLive, index, level, levelFound, member⟩ := survives key block found
    obtain ⟨previous, previousFound, hasParent⟩ :=
      spec.keptParent index level block levelFound member
    obtain ⟨parent, parentFound, link, parentLiveOr, sameCertificate⟩ :=
      parentOfLive_of_live invariant blockLive
    obtain ⟨baked, bakedData, parentHash, height⟩ := id link
    rw [liveParentOf_eq_of_ok parentFound, elem_iff_hash] at hasParent
    obtain ⟨other, otherMember, otherHash⟩ := hasParent
    refine ⟨baked, parent, bakedData, ?_, height, sameCertificate baked bakedData⟩
    rw [parentHash]
    exact keptParent_pointer invariant live spec nextLive nextLastFinalized previousFound
      otherMember otherHash parentLiveOr
  case lastFinalizedNotLive =>
    rw [nextLastFinalized, nextLive, if_pos deleted]
  case lastFinalizedStored =>
    rw [nextLastFinalized]
    exact nextStored
  case levels =>
    intro index level found block member
    rw [nextBranches] at found
    obtain ⟨blockLive, height, notDeleted⟩ := spec.kept index level block found member
    rw [nextLive, if_neg notDeleted, nextLastFinalized]
    exact ⟨blockLive, height⟩
  case complete =>
    intro key block found
    obtain ⟨_, index, level, levelFound, member⟩ := survives key block found
    obtain ⟨_, height, _⟩ := spec.kept index level block levelFound member
    have sameIndex : block.blockHeight - newFin.blockHeight - 1 = index := by omega
    rw [nextBranches, nextLastFinalized, sameIndex]
    exact ⟨level, levelFound, member⟩

end Pruned

/-- Storing blocks keeps the invariant. -/
theorem invariant_writeBlocks (invariant : Invariant sd) (blocks : List (BlockPointer σ)) :
    Invariant (writeBlocks blocks sd) where
  liveKeys := invariant.liveKeys
  liveParent := invariant.liveParent
  lastFinalizedNotLive := invariant.lastFinalizedNotLive
  lastFinalizedStored := by
    simp only [writeBlocks, invariant.lastFinalizedStored, Bool.true_or]
  levels := invariant.levels
  complete := invariant.complete

/-- What one finalization does: the invariant is kept, the new last finalized block descends
from the old one along the reported path of live blocks, and the entry is recorded. -/
structure Finalizes (sd : SkovData σ) (finalized : Finalized σ) (next : SkovData σ) : Prop where
  invariant : Invariant next
  descends : Descends sd next.lastFinalized
  pathChain : List.IsChain ParentLink (sd.lastFinalized :: finalized.blocks)
  pathLast : (sd.lastFinalized :: finalized.blocks).getLast? = some next.lastFinalized
  pathLive : ∀ block ∈ finalized.blocks, sd.liveMap block.bpHash = some block
  latestEntry : next.latestFinalizationEntry = some finalized.entry

/-- `processFinalizationHelper` on a live block succeeds and finalizes it. -/
theorem processFinalizationHelper_spec (invariant : Invariant sd) {newFin : BlockPointer σ}
    (live : sd.liveMap newFin.bpHash = some newFin) (entry : FinalizationEntry σ)
    (mCertifiedBlock : Option (CertifiedBlock σ)) :
    ∃ finalized next, processFinalizationHelper newFin entry mCertifiedBlock sd =
        .ok (finalized, next) ∧
      finalized.entry = entry ∧ next.lastFinalized = newFin ∧ Finalizes sd finalized next := by
  obtain ⟨result, pruned, spec⟩ := pruneBranches_spec invariant live
  rw [processFinalizationHelper, pruned]
  refine ⟨_, _, rfl, rfl, rfl, ⟨?_, descends_of_live invariant live, spec.finalizedChain,
    spec.finalizedLast, spec.finalizedLive, rfl⟩⟩
  refine invariant_of_pruned invariant live spec (pruned_liveMap _ _ _ sd) rfl rfl ?_
  rw [foldl_markLiveBlockDead_storedBlocks]
  exact writeBlocks_stores _ (List.mem_append_left _ (spec.newFin_mem invariant live))

/-! ## One call, and a run -/

/-- The 2-chain behind a finalization caused by a certified block: the finalized block is the
certified block's parent, one round lower in the same epoch, and the entry carries the
certified block's quorum certificate and the hash of its baked block. -/
def TwoChain (certified : CertifiedBlock σ) (finalized : Finalized σ) (block : BlockPointer σ) :
    Prop :=
  ∃ baked, certified.cbQuorumBlock.blockBakedData = some baked ∧
    ParentLink block certified.cbQuorumBlock ∧
    finalized.entry.feFinalizedQuorumCertificate.qcBlock = block.bpHash ∧
    finalized.entry.feSuccessorQuorumCertificate = certified.cbQuorumCertificate ∧
    certified.cbQuorumCertificate.qcRound = block.blockRound + 1 ∧
    certified.cbQuorumCertificate.qcEpoch = block.blockEpoch ∧
    finalized.entry.feSuccessorProof = baked.bakedBlockHash

/-- What one call guarantees: without a finalization the invariant holds and the last
finalized block stays; with one, `Finalizes`, on a 2-chain where a certified block caused it. -/
def Progress (sd : SkovData σ) (event : Event σ) : Option (Finalized σ) → SkovData σ → Prop
  | none, next => Invariant next ∧ next.lastFinalized = sd.lastFinalized
  | some finalized, next => Finalizes sd finalized next ∧
      ∀ certified, event = .processCertifiedBlock certified →
        TwoChain certified finalized next.lastFinalized

theorem Progress.invariant {event : Event σ} {output : Option (Finalized σ)} {next : SkovData σ}
    (progress : Progress sd event output next) : Invariant next := by
  cases output with
  | none => exact progress.1
  | some _ => exact progress.1.invariant

theorem progress_unchanged (invariant : Invariant sd) (event : Event σ) :
    Progress sd event none sd :=
  ⟨invariant, rfl⟩

theorem progress_writeBlocks (invariant : Invariant sd) (event : Event σ)
    (blocks : List (BlockPointer σ)) : Progress sd event none (writeBlocks blocks sd) :=
  ⟨invariant_writeBlocks invariant blocks, rfl⟩

theorem unlessStored_of_stored {certified : CertifiedBlock σ}
    (stored : sd.storedBlocks certified.cbQuorumBlock.bpHash = true)
    (action : Except ParentOfLiveError (Option (Finalized σ) × SkovData σ)) :
    unlessStored certified sd action = .ok (none, sd) := by
  rw [unlessStored, if_pos stored]
  rfl

theorem unlessStored_of_not_stored {certified : CertifiedBlock σ}
    (notStored : sd.storedBlocks certified.cbQuorumBlock.bpHash = false)
    (action : Except ParentOfLiveError (Option (Finalized σ) × SkovData σ)) :
    unlessStored certified sd action = action := by
  rw [unlessStored, if_neg (by simp [notStored])]

/-- Every branch of `processCertifiedBlock` is guarded by `unlessStored`. -/
theorem processCertifiedBlock_of_stored {certified : CertifiedBlock σ}
    (stored : sd.storedBlocks certified.cbQuorumBlock.bpHash = true) :
    processCertifiedBlock certified sd = .ok (none, sd) := by
  unfold processCertifiedBlock
  split
  · dsimp only
    split <;> exact unlessStored_of_stored stored _
  · exact unlessStored_of_stored stored _

/-- An admissible certified block that is not stored is live; if it makes a 2-chain with a
parent other than the last finalized block, that parent is finalized. -/
theorem processCertifiedBlock_progress (invariant : Invariant sd) (certified : CertifiedBlock σ)
    (admissible : Admissible sd (.processCertifiedBlock certified)) :
    ∃ output next, processCertifiedBlock certified sd = .ok (output, next) ∧
      Progress sd (.processCertifiedBlock certified) output next := by
  by_cases stored : sd.storedBlocks certified.cbQuorumBlock.bpHash = true
  · exact ⟨none, sd, processCertifiedBlock_of_stored stored, progress_unchanged invariant _⟩
  have notStored : sd.storedBlocks certified.cbQuorumBlock.bpHash = false := by simpa using stored
  -- the last finalized block is stored, so the certified block is live
  have live : sd.liveMap certified.cbQuorumBlock.bpHash = some certified.cbQuorumBlock := by
    rcases admissible with live | isLastFinalized | alsoStored
    · exact live
    · rw [isLastFinalized] at stored
      exact absurd invariant.lastFinalizedStored stored
    · exact absurd alsoStored stored
  obtain ⟨parent, parentFound, link, parentLiveOr, sameCertificate⟩ :=
    parentOfLive_of_live invariant live
  obtain ⟨baked, bakedData, parentHash, _⟩ := id link
  obtain ⟨sameRound, sameEpoch⟩ := sameCertificate baked bakedData
  unfold processCertifiedBlock
  rw [bakedData]
  dsimp only
  by_cases twoChain : certified.cbQuorumCertificate.qcRound =
      baked.blockQuorumCertificate.qcRound + 1 ∧
    certified.cbQuorumCertificate.qcEpoch = baked.blockQuorumCertificate.qcEpoch
  · rw [if_pos twoChain, unlessStored_of_not_stored notStored]
    by_cases atLastFinalized : baked.blockQuorumCertificate.qcBlock = sd.lastFinalized.bpHash
    · rw [if_pos atLastFinalized]
      exact ⟨none, _, rfl, progress_writeBlocks invariant _ _⟩
    rw [if_neg atLastFinalized, parentFound]
    -- the parent is not the last finalized block, so it is live
    have parentLive : sd.liveMap parent.bpHash = some parent := by
      rcases parentLiveOr with isLastFinalized | parentLive
      · rw [isLastFinalized] at parentHash
        exact absurd parentHash atLastFinalized
      · exact parentLive
    obtain ⟨finalized, next, helped, entryIs, lastIs, finalizes⟩ :=
      processFinalizationHelper_spec invariant parentLive
        { feFinalizedQuorumCertificate := baked.blockQuorumCertificate
          feSuccessorQuorumCertificate := certified.cbQuorumCertificate
          feSuccessorProof := baked.bakedBlockHash } (some certified)
    refine ⟨some finalized, next, ?_, finalizes, ?_⟩
    · show (processFinalizationHelper parent _ (some certified) sd >>= _) = _
      rw [helped]
      rfl
    · intro certified' sameEvent
      cases sameEvent
      rw [lastIs]
      refine ⟨baked, bakedData, link, ?_, ?_, ?_, ?_, ?_⟩
      · rw [entryIs]
        exact parentHash
      · rw [entryIs]
      · rw [twoChain.1, sameRound]
      · rw [twoChain.2, sameEpoch]
      · rw [entryIs]
  · rw [if_neg twoChain, unlessStored_of_not_stored notStored]
    exact ⟨none, _, rfl, progress_writeBlocks invariant _ _⟩

/-- Catching up an entry finalizes the live block it names when the entry checks out, and
changes nothing otherwise. -/
theorem catchupFinalizationEntry_progress (invariant : Invariant sd)
    (finEntry : FinalizationEntry σ) (committeeCheck : Option Bool) :
    ∃ outcome output next,
      catchupFinalizationEntry finEntry committeeCheck sd = .ok (outcome, output, next) ∧
      Progress sd (.catchupFinalizationEntry finEntry committeeCheck) output next := by
  unfold catchupFinalizationEntry getLiveBlock
  dsimp only
  cases found : sd.liveMap finEntry.feFinalizedQuorumCertificate.qcBlock with
  | none => exact ⟨_, none, sd, rfl, progress_unchanged invariant _⟩
  | some block =>
      dsimp only
      by_cases inconsistent : block.blockRound ≠ finEntry.feFinalizedQuorumCertificate.qcRound ∨
          block.blockEpoch ≠ finEntry.feFinalizedQuorumCertificate.qcEpoch
      · rw [if_pos inconsistent]
        exact ⟨_, none, sd, rfl, progress_unchanged invariant _⟩
      rw [if_neg inconsistent]
      cases committeeCheck with
      | none => exact ⟨_, none, sd, rfl, progress_unchanged invariant _⟩
      | some valid =>
          cases valid with
          | false => exact ⟨_, none, sd, rfl, progress_unchanged invariant _⟩
          | true =>
              have live : sd.liveMap block.bpHash = some block := by
                rw [invariant.liveKeys _ _ found]
                exact found
              obtain ⟨finalized, next, helped, _, _, finalizes⟩ :=
                processFinalizationHelper_spec invariant live finEntry none
              refine ⟨.success, some finalized, next, ?_, finalizes, ?_⟩
              · show (processFinalizationHelper block finEntry none sd >>= _) = _
                rw [helped]
                rfl
              · intro certified sameEvent
                cases sameEvent

/-- The step lemma: an admissible call from a state satisfying the invariant succeeds and
makes progress. -/
theorem step_progress (invariant : Invariant sd) (event : Event σ)
    (admissible : Admissible sd event) :
    ∃ output next, step event sd = .ok (output, next) ∧ Progress sd event output next := by
  cases event with
  | processCertifiedBlock certified =>
      exact processCertifiedBlock_progress invariant certified admissible
  | catchupFinalizationEntry finEntry committeeCheck =>
      obtain ⟨_, output, next, caughtUp, progress⟩ :=
        catchupFinalizationEntry_progress invariant finEntry committeeCheck
      refine ⟨output, next, ?_, progress⟩
      rw [step, caughtUp]
      rfl

end Specification

/-- `Progress` at every call of a run, each from the state the call before left. -/
def RunProgress : SkovData σ → List (Event σ) → List (Option (Finalized σ) × SkovData σ) → Prop
  | _, [], [] => True
  | sd, event :: rest, (output, next) :: trace =>
      Progress sd event output next ∧ RunProgress next rest trace
  | _, _, _ => False

/-- The run theorem: from a state satisfying the invariant, every admissible sequence of calls
runs without error, and at each call the last finalized block stays or moves to a descendant
along the path of blocks the call reports, keeping the invariant. -/
theorem finalization_run_progress {sd : SkovData σ} (invariant : Invariant sd)
    (events : List (Event σ)) (admissible : AdmissibleRun sd events) :
    ∃ trace, run events sd = .ok trace ∧ RunProgress sd events trace := by
  -- induction on the calls; the invariant is carried from each state to the next
  induction events generalizing sd with
  | nil => exact ⟨[], rfl, trivial⟩
  | cons event rest inductionHypothesis =>
      obtain ⟨output, next, stepped, progress⟩ := step_progress invariant event admissible.1
      obtain ⟨trace, ran, restProgress⟩ :=
        inductionHypothesis progress.invariant (admissible.2 output next stepped)
      refine ⟨(output, next) :: trace, ?_, progress, restProgress⟩
      rw [run, stepped]
      show (run rest next >>= _) = _
      rw [ran]
      rfl

/-- A quorum certificate of epoch 0 on the block of hash `block`, signed by nobody. -/
def exampleCertificate (block round : Nat) : Types.QuorumCertificate Unit :=
  { qcBlock := block, qcRound := round, qcEpoch := 0, qcAggregateSignature := (),
    qcSignatories := Types.emptyFinalizerSet }

def exampleGenesis : BlockPointer Unit :=
  { bpHash := 0, blockRound := 0, blockEpoch := 0, blockHeight := 0, blockBakedData := none }

/-- The block of round, height and hash `round` on a chain from the genesis block. -/
def exampleBlock (round : Nat) : BlockPointer Unit :=
  { bpHash := round, blockRound := round, blockEpoch := 0, blockHeight := round,
    blockBakedData := some
      { blockQuorumCertificate := exampleCertificate (round - 1) (round - 1)
        bakedBlockHash := 10 + round } }

/-- Blocks 1 and 2 live above the stored genesis block. -/
def exampleState : SkovData Unit where
  liveMap blockHash := if blockHash = 1 ∨ blockHash = 2 then some (exampleBlock blockHash) else none
  branches := [[exampleBlock 1], [exampleBlock 2]]
  lastFinalized := exampleGenesis
  latestFinalizationEntry := none
  storedBlocks blockHash := blockHash == 0

theorem exampleState_invariant : Invariant exampleState where
  liveKeys := by
    intro blockHash block found
    simp only [exampleState] at found
    split_ifs at found
    cases found
    rfl
  liveParent := by
    intro blockHash block found
    simp only [exampleState] at found
    split_ifs at found with isLive
    cases found
    rcases isLive with isFirst | isSecond
    · subst isFirst
      exact ⟨_, exampleGenesis, rfl, rfl, rfl, rfl, rfl⟩
    · subst isSecond
      exact ⟨_, exampleBlock 1, rfl, rfl, rfl, rfl, rfl⟩
  lastFinalizedNotLive := rfl
  lastFinalizedStored := rfl
  levels := by
    intro index level found block member
    rcases index with _ | _ | index
    · cases found
      rw [List.mem_singleton] at member
      subst member
      exact ⟨rfl, rfl⟩
    · cases found
      rw [List.mem_singleton] at member
      subst member
      exact ⟨rfl, rfl⟩
    · cases found
  complete := by
    intro blockHash block found
    simp only [exampleState] at found
    split_ifs at found with isLive
    cases found
    rcases isLive with isFirst | isSecond
    · subst isFirst
      exact ⟨_, rfl, List.mem_singleton_self _⟩
    · subst isSecond
      exact ⟨_, rfl, List.mem_singleton_self _⟩

/-- Block 2, certified in round 2. -/
def exampleCertified : CertifiedBlock Unit :=
  { cbQuorumCertificate := exampleCertificate 2 2, cbQuorumBlock := exampleBlock 2 }

theorem finalization_run_progress_on_chain :
    Invariant exampleState ∧
      AdmissibleRun exampleState [.processCertifiedBlock exampleCertified] ∧
      ∃ trace, run [.processCertifiedBlock exampleCertified] exampleState = .ok trace ∧
        RunProgress exampleState [.processCertifiedBlock exampleCertified] trace := by
  have admissible : AdmissibleRun exampleState [.processCertifiedBlock exampleCertified] :=
    ⟨Or.inl rfl, fun _ _ _ => trivial⟩
  exact ⟨exampleState_invariant, admissible,
    finalization_run_progress exampleState_invariant _ admissible⟩

end Concordium.KonsensusV1.Consensus.Finality
