import Concordium.KonsensusV1.Consensus.Finality
import Mathlib.Data.List.Nodup

/-!
Contract: `pruneBranches` splits any well-formed tree of branches into the path it finalizes,
the branches that stay and the blocks it removes, with no block lost or duplicated.

Owns:
- `WellFormedBranches`, the shape `addToBranches` builds, over any block type with a parent
  function and a height;
- the closed forms of `pruneTrunk` (the ancestors of the new block are finalized, the rest of
  each trunk level removed) and of `pruneLimbs` (level `j` above the new block keeps exactly its
  descendants), for a parent lookup that always succeeds, as the source's is;
- the partition theorem for `pruneBranches`.

Does not own: the tree state. `Concordium.KonsensusV1.Consensus.Finality` proves the split
again for `parentOfLive` over a `SkovData` satisfying its invariant, where blocks are compared
by hash.
-/

set_option autoImplicit false

namespace Concordium.KonsensusV1.Consensus.Finality

open scoped List

section Partition

variable {β ε : Type} (parent : β → β)

/-- `block` and its ancestors, `count` blocks from `block` down. -/
def ancestors : Nat → β → List β
  | 0, _ => []
  | count + 1, block => block :: ancestors count (parent block)

@[simp] theorem length_ancestors : ∀ (count : Nat) (block : β),
    (ancestors parent count block).length = count
  | 0, _ => rfl
  | count + 1, block => by rw [ancestors, List.length_cons, length_ancestors count]

/-- The branches `addToBranches` builds above the last finalized block `lastFin`: level `index`
lists distinct blocks of height `height lastFin + 1 + index`, each with its parent one level
down, or `lastFin` for the lowest level. -/
structure WellFormedBranches (height : β → Nat) (lastFin : β) (branches : List (List β)) :
    Prop where
  nodup : ∀ (index : Nat) (bound : index < branches.length), branches[index].Nodup
  height : ∀ (index : Nat) (bound : index < branches.length), ∀ block ∈ branches[index],
    height block = height lastFin + 1 + index
  parentBottom : ∀ bound : 0 < branches.length, ∀ block ∈ branches[0], parent block = lastFin
  parentBelow : ∀ (index : Nat) (bound : index + 1 < branches.length),
    ∀ block ∈ branches[index + 1], parent block ∈ branches[index]

/-- In a permutation of a list without duplicates, the middle part holds exactly what the
other two parts do not. -/
theorem mem_middle_iff_of_perm {first middle last whole : List β}
    (perm : (first ++ middle ++ last).Perm whole) (nodup : whole.Nodup) (block : β) :
    block ∈ middle ↔ block ∈ whole ∧ block ∉ first ∧ block ∉ last := by
  have parts := perm.nodup_iff.mpr nodup
  rw [List.nodup_append, List.nodup_append] at parts
  obtain ⟨⟨_, _, firstMiddle⟩, _, frontLast⟩ := parts
  constructor
  · intro member
    refine ⟨perm.mem_iff.mp (by simp [member]), ?_, ?_⟩
    · exact fun inFirst => firstMiddle block inFirst block member rfl
    · exact fun inLast => frontLast block (List.mem_append_right _ member) block inLast rfl
  · rintro ⟨inWhole, notFirst, notLast⟩
    have := perm.mem_iff.mpr inWhole
    simp only [List.mem_append] at this
    tauto

section Shape

variable {parent} {height : β → Nat} {lastFin : β} {branches : List (List β)}

/-- Going `count` parents down from level `index` lands in level `index - count`. -/
theorem WellFormedBranches.iterate_mem (wellFormed : WellFormedBranches parent height lastFin branches) :
    ∀ (count index : Nat) (bound : index < branches.length) (block : β),
      block ∈ branches[index] → ∀ (_ : count ≤ index),
      parent^[count] block ∈ branches[index - count]
  | 0, index, bound, block, member, _ => member
  | count + 1, index, bound, block, member, below => by
      have lower := wellFormed.iterate_mem count index bound block member (by omega)
      have step := wellFormed.parentBelow (index - (count + 1)) (by omega) _
        (by simpa [show index - (count + 1) + 1 = index - count by omega] using lower)
      rw [Function.iterate_succ_apply']
      exact step

/-- Every block of level `index` is `index + 1` generations above the last finalized block. -/
theorem WellFormedBranches.iterate_bottom (wellFormed : WellFormedBranches parent height lastFin branches)
    (index : Nat) (bound : index < branches.length) (block : β) (member : block ∈ branches[index]) :
    parent^[index + 1] block = lastFin := by
  have bottom := wellFormed.iterate_mem index index bound block member le_rfl
  rw [Function.iterate_succ_apply']
  exact wellFormed.parentBottom (by omega) _ (by simpa using bottom)

/-- Levels hold blocks of different heights, so no block occurs twice in the branches. -/
theorem WellFormedBranches.nodup_flatten (wellFormed : WellFormedBranches parent height lastFin branches) :
    branches.flatten.Nodup := by
  rw [List.nodup_flatten, List.pairwise_iff_getElem]
  constructor
  · intro level member
    obtain ⟨index, bound, rfl⟩ := List.mem_iff_getElem.mp member
    exact wellFormed.nodup index bound
  · intro lower upper lowerBound upperBound below block inLower inUpper
    have lowerHeight := wellFormed.height lower lowerBound block inLower
    have upperHeight := wellFormed.height upper upperBound block inUpper
    omega

end Shape

variable [DecidableEq β]

/-- The trunk walk with a parent lookup that always succeeds finalizes the keeper and its
ancestors, one per level from the top, and removes the rest of each level. -/
theorem pruneTrunk_of_pure : ∀ (levels : List (List β)) (keeper : β) (remove finalize : List β),
    (∀ (index : Nat) (bound : index < levels.length),
      levels[index].Nodup ∧ parent^[index] keeper ∈ levels[index]) →
    ∃ removed, pruneTrunk (fun block => (pure (parent block) : Except ε β)) remove finalize keeper
        levels = .ok (remove ++ removed, (ancestors parent levels.length keeper).reverse ++ finalize) ∧
      (ancestors parent levels.length keeper ++ removed).Perm levels.flatten
  | [], _, remove, finalize, _ => ⟨[], by simp [pruneTrunk, ancestors]; rfl, by simp [ancestors]⟩
  | level :: rest, keeper, remove, finalize, levels => by
      obtain ⟨levelNodup, keeperMember⟩ : level.Nodup ∧ keeper ∈ level := levels 0 (by simp)
      obtain ⟨removed, result, perm⟩ := pruneTrunk_of_pure rest (parent keeper)
        (remove ++ level.filter (· != keeper)) (keeper :: finalize) (fun index bound => by
          have next := levels (index + 1) (by simpa using bound)
          rw [Function.iterate_succ_apply] at next
          simpa using next)
      -- the keeper's level is the keeper and the blocks the walk removes there
      have levelPerm : level.Perm (keeper :: level.filter (· != keeper)) := by
        rw [← levelNodup.erase_eq_filter]
        exact List.perm_cons_erase keeperMember
      refine ⟨level.filter (· != keeper) ++ removed, ?_, ?_⟩
      · rw [pruneTrunk, pure_bind, result, List.length_cons, ancestors, List.reverse_cons,
          List.append_assoc, List.append_assoc, List.singleton_append]
      · rw [List.length_cons, ancestors, List.flatten_cons]
        calc (keeper :: ancestors parent rest.length (parent keeper)) ++
              (level.filter (· != keeper) ++ removed)
            = keeper :: (ancestors parent rest.length (parent keeper) ++
                (level.filter (· != keeper) ++ removed)) := rfl
          _ ~ keeper :: (level.filter (· != keeper) ++
                (ancestors parent rest.length (parent keeper) ++ removed)) :=
              (List.perm_append_comm_assoc _ _ _).cons keeper
          _ ~ level ++ rest.flatten := (levelPerm.symm.append perm)

/-- The limb sweep with a parent lookup that always succeeds keeps, at each level, exactly the
blocks `depth + 1 + index` generations above `newFin`, given that the parents it starts from
are those one generation lower. -/
theorem pruneLimbs_of_pure (newFin : β) :
    ∀ (limbs : List (List β)) (depth : Nat) (remove parents : List β) (survivors : List (List β)),
    (∀ bound : 0 < limbs.length, ∀ block ∈ limbs[0],
      parent block ∈ parents ↔ parent^[depth + 1] block = newFin) →
    (∀ (index : Nat) (bound : index + 1 < limbs.length),
      ∀ block ∈ limbs[index + 1], parent block ∈ limbs[index]) →
    ∃ removed, pruneLimbs (fun block => (pure (parent block) : Except ε β)) remove parents
        survivors limbs = .ok (remove ++ removed, survivors ++ limbs.mapIdx fun index level =>
          level.filter fun block => parent^[depth + index + 1] block = newFin) ∧
      ((limbs.mapIdx fun index level =>
          level.filter fun block => parent^[depth + index + 1] block = newFin).flatten ++
        removed).Perm limbs.flatten
  | [], _, remove, _, survivors, _, _ => ⟨[], by simp [pruneLimbs]; rfl, by simp⟩
  | level :: rest, depth, remove, parents, survivors, bottom, below => by
      let descends := fun block => decide (parent^[depth + 1] block = newFin)
      have kept : level.filter (fun block => parents.elem (parent block)) = level.filter descends :=
        List.filter_congr fun block member => by
          rw [List.elem_eq_mem]
          exact decide_eq_decide.mpr (bottom (by simp) block member)
      have dropped : level.filter (fun block => !parents.elem (parent block)) =
          level.filter (fun block => !descends block) :=
        List.filter_congr fun block member => by
          rw [List.elem_eq_mem]
          exact congrArg (!·) (decide_eq_decide.mpr (bottom (by simp) block member))
      -- the next level's parents are the survivors, one generation further from `newFin`
      have nextBottom : ∀ bound : 0 < rest.length, ∀ block ∈ rest[0],
          parent block ∈ level.filter descends ↔ parent^[depth + 1 + 1] block = newFin := by
        intro bound block member
        have parentMember : parent block ∈ level := below 0 (by simpa using bound) block
          (by simpa using member)
        rw [List.mem_filter, Function.iterate_succ_apply]
        simp only [descends, parentMember, true_and, decide_eq_true_eq]
      obtain ⟨removed, result, perm⟩ := pruneLimbs_of_pure newFin rest (depth + 1)
        (remove ++ level.filter (fun block => !descends block)) (level.filter descends)
        (survivors ++ [level.filter descends]) nextBottom
        (fun index bound block member => below (index + 1) (by simpa using bound) block member)
      have shifted : (rest.mapIdx fun index level =>
            level.filter fun block => parent^[depth + 1 + index + 1] block = newFin) =
          rest.mapIdx fun index level =>
            level.filter fun block => parent^[depth + (index + 1) + 1] block = newFin := by
        congr 1
        funext index level
        rw [show depth + 1 + index + 1 = depth + (index + 1) + 1 by omega]
      refine ⟨level.filter (fun block => !descends block) ++ removed, ?_, ?_⟩
      · rw [pruneLimbs, partitionByParent_eq (fun block => (pure (parent block) : Except ε β)) parent
          parents level (fun _ _ => rfl), kept,
          dropped]
        show pruneLimbs _ _ _ _ rest = _
        rw [result, shifted, List.mapIdx_cons, List.append_assoc, List.append_assoc,
          List.singleton_append]
      · rw [List.mapIdx_cons, List.flatten_cons, ← shifted, List.flatten_cons]
        calc level.filter descends ++ (rest.mapIdx fun index level =>
                level.filter fun block => parent^[depth + 1 + index + 1] block = newFin).flatten ++
              (level.filter (fun block => !descends block) ++ removed)
            ~ level.filter descends ++ (level.filter (fun block => !descends block) ++
                ((rest.mapIdx fun index level => level.filter fun block =>
                  parent^[depth + 1 + index + 1] block = newFin).flatten ++ removed)) := by
              rw [List.append_assoc]
              exact (List.perm_append_comm_assoc _ _ _).append_left _
          _ = (level.filter descends ++ level.filter (fun block => !descends block)) ++
                ((rest.mapIdx fun index level => level.filter fun block =>
                  parent^[depth + 1 + index + 1] block = newFin).flatten ++ removed) := by
              rw [List.append_assoc]
          _ ~ level ++ rest.flatten := (List.filter_append_perm descends level).append perm

/-- `pruneBranches` partitions well-formed branches: the finalized blocks are the new block and
its ancestors down to the last finalized block, in ascending height; level `index` of the new
branches keeps exactly the blocks of old level `deltaHeight + index` that descend from the new
block; every other block is removed; and the three outputs together are the old blocks. -/
theorem pruneBranches_partitions (height : β → Nat) (lastFin newFin : β)
    (branches : List (List β)) (wellFormed : WellFormedBranches parent height lastFin branches)
    (deltaHeight : Nat) (positive : 0 < deltaHeight) (bound : deltaHeight ≤ branches.length)
    (finalizing : newFin ∈ branches[deltaHeight - 1]) :
    ∃ result, pruneBranches (fun block => (pure (parent block) : Except ε β)) newFin deltaHeight
        branches = .ok result ∧
      parent^[deltaHeight] newFin = lastFin ∧
      result.prFinalized = (ancestors parent deltaHeight newFin).reverse ∧
      result.prNewBranches = (branches.drop deltaHeight).mapIdx (fun index level =>
        level.filter fun block => parent^[index + 1] block = newFin) ∧
      (∀ block, block ∈ result.prRemoved ↔
        block ∈ branches.flatten ∧ block ∉ result.prFinalized ∧
          block ∉ result.prNewBranches.flatten) ∧
      (result.prFinalized ++ result.prRemoved ++ result.prNewBranches.flatten).Perm
        branches.flatten := by
  have trunkLength : (branches.take deltaHeight).length = deltaHeight := by simp [bound]
  -- the trunk, read from the top, holds the new block's ancestors level by level
  have trunkLevels : ∀ (index : Nat) (bound : index < (branches.take deltaHeight).reverse.length),
      ((branches.take deltaHeight).reverse[index]).Nodup ∧
        parent^[index] newFin ∈ (branches.take deltaHeight).reverse[index] := by
    intro index indexBound
    simp only [List.length_reverse, trunkLength] at indexBound
    have level : (branches.take deltaHeight).reverse[index] =
        branches[deltaHeight - 1 - index] := by
      simp [List.getElem_reverse, trunkLength]
    rw [level]
    exact ⟨wellFormed.nodup _ _, wellFormed.iterate_mem index (deltaHeight - 1) (by omega) newFin
      finalizing (by omega)⟩
  obtain ⟨removedTrunk, trunkResult, trunkPerm⟩ :=
    pruneTrunk_of_pure parent (ε := ε) _ newFin [] [] trunkLevels
  rw [List.length_reverse, trunkLength] at trunkResult trunkPerm
  have limbsBottom : ∀ bound : 0 < (branches.drop deltaHeight).length,
      ∀ block ∈ (branches.drop deltaHeight)[0],
        parent block ∈ [newFin] ↔ parent^[0 + 1] block = newFin := by
    intro _ block _
    simp
  obtain ⟨removedLimbs, limbsResult, limbsPerm⟩ :=
    pruneLimbs_of_pure parent (ε := ε) newFin (branches.drop deltaHeight) 0 [] [newFin] []
      limbsBottom (fun index limbBound block member => by
        have := wellFormed.parentBelow (deltaHeight + index)
          (by rw [List.length_drop] at limbBound; omega) block
          (by simpa [Nat.add_assoc] using member)
        simpa using this)
  have newBranches : ((branches.drop deltaHeight).mapIdx fun index level =>
        level.filter fun block => parent^[0 + index + 1] block = newFin) =
      (branches.drop deltaHeight).mapIdx fun index level =>
        level.filter fun block => parent^[index + 1] block = newFin := by
    simp only [Nat.zero_add]
  rw [newBranches] at limbsResult limbsPerm
  have pruned : pruneBranches (fun block => (pure (parent block) : Except ε β)) newFin
      deltaHeight branches = .ok ⟨removedTrunk ++ removedLimbs,
        (ancestors parent deltaHeight newFin).reverse,
        (branches.drop deltaHeight).mapIdx fun index level =>
          level.filter fun block => parent^[index + 1] block = newFin⟩ := by
    simp only [pruneBranches, List.splitAt_eq, trunkResult, limbsResult, List.nil_append,
      List.append_nil]
    rfl
  -- the outputs, rearranged, are the trunk's blocks followed by the limbs'
  have perm : ((ancestors parent deltaHeight newFin).reverse ++
        (removedTrunk ++ removedLimbs) ++ ((branches.drop deltaHeight).mapIdx fun index level =>
          level.filter fun block => parent^[index + 1] block = newFin).flatten).Perm
      branches.flatten := by
    have split : branches.flatten =
        (branches.take deltaHeight).flatten ++ (branches.drop deltaHeight).flatten := by
      rw [← List.flatten_append, List.take_append_drop]
    rw [split, ← List.append_assoc, List.append_assoc _ removedLimbs]
    refine List.Perm.append ?_ ((List.perm_append_comm).trans limbsPerm)
    exact ((List.reverse_perm _).append_right _).trans
      (trunkPerm.trans (List.reverse_perm _).flatten)
  refine ⟨_, pruned, ?_, rfl, rfl, mem_middle_iff_of_perm perm wellFormed.nodup_flatten, perm⟩
  have bottom := wellFormed.iterate_bottom (deltaHeight - 1) (by omega) newFin finalizing
  rwa [show deltaHeight - 1 + 1 = deltaHeight by omega] at bottom

/-- Blocks `1` and `2` on the last finalized block `0`, then `3` and `5` on `1` and `4` on
`2`. -/
def forkBranches : List (List Nat) := [[1, 2], [3, 4, 5]]

def forkParent (block : Nat) : Nat := if block ≤ 2 then 0 else if block = 4 then 2 else 1

def forkHeight (block : Nat) : Nat := if block = 0 then 0 else if block ≤ 2 then 1 else 2

theorem pruneBranches_partitions_on_fork :
    WellFormedBranches forkParent forkHeight 0 forkBranches ∧
    ∃ result, pruneBranches (fun block => (pure (forkParent block) : Except String Nat)) 1 1
        forkBranches = .ok result ∧
      forkParent^[1] 1 = 0 ∧
      result.prFinalized = (ancestors forkParent 1 1).reverse ∧
      result.prNewBranches = (forkBranches.drop 1).mapIdx (fun index level =>
        level.filter fun block => forkParent^[index + 1] block = 1) ∧
      (∀ block, block ∈ result.prRemoved ↔
        block ∈ forkBranches.flatten ∧ block ∉ result.prFinalized ∧
          block ∉ result.prNewBranches.flatten) ∧
      (result.prFinalized ++ result.prRemoved ++ result.prNewBranches.flatten).Perm
        forkBranches.flatten := by
  have wellFormed : WellFormedBranches forkParent forkHeight 0 forkBranches :=
    ⟨by decide, by decide, by decide, fun index bound => by
      obtain rfl : index = 0 := by
        rw [forkBranches, List.length_cons, List.length_singleton] at bound
        omega
      decide +revert⟩
  exact ⟨wellFormed, pruneBranches_partitions forkParent forkHeight 0 1 forkBranches wellFormed 1
    (by decide) (by decide) (by decide)⟩

end Partition

end Concordium.KonsensusV1.Consensus.Finality
