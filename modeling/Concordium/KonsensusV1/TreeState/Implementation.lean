import Concordium.KonsensusV1.Types
import Mathlib.Order.Basic

/-!
Contract: the part of the consensus-v1 tree state that finalization reads and writes, as in
`Concordium.KonsensusV1.TreeState.Implementation`, and the invariant that makes
`parentOfLive` total on live blocks.

Owns:
- `BlockPointer` with the fields finality reads (height, and the baked data that names the
  parent through its quorum certificate), `FinalizationEntry`, `CertifiedBlock`;
- `SkovData` restricted to the live map, the branches, the last finalized block, the latest
  finalization entry and which blocks the low-level store holds;
- `parentOfLive` with both of its errors, `getLiveBlock`, `markLiveBlocksFinal` and
  `markLiveBlockDead` as their effect on the live map;
- `Invariant`: live blocks are keyed by hash, hang off the last finalized block or another live
  block one height lower, with a quorum certificate for their parent, and fill the branches
  level by level; the last finalized block is stored and not live. From it: live blocks lie
  above the last finalized block and descend from it, and `parentOfLive` succeeds on them.

Does not own: block states, transactions, the dead-block cache, the focus block, statistics,
round status and epoch bakers. They are written by the finalization code but not read by
anything modelled here.
-/

set_option autoImplicit false

namespace Concordium.KonsensusV1.TreeState

open Concordium.KonsensusV1.Types (QuorumCertificate)

variable {σ : Type}

/-- The baked data of a non-genesis block: the quorum certificate on its parent, and the hash
of the baked block, which a finalization entry carries as its successor proof. -/
structure BakedData (σ : Type) where
  blockQuorumCertificate : QuorumCertificate σ
  bakedBlockHash : Nat
deriving DecidableEq

/-- `blockParent = qcBlock . blockQuorumCertificate`. -/
def blockParent (baked : BakedData σ) : Nat :=
  baked.blockQuorumCertificate.qcBlock

/-- A block pointer: `blockBakedData` is absent exactly for a genesis block. -/
structure BlockPointer (σ : Type) extends Types.BlockPointer where
  blockHeight : Nat
  blockBakedData : Option (BakedData σ)
deriving DecidableEq

/-- Block pointers are compared by hash. -/
instance : BEq (BlockPointer σ) := ⟨fun first second => first.bpHash == second.bpHash⟩

theorem beq_iff_hash_eq (first second : BlockPointer σ) :
    (first == second) = true ↔ first.bpHash = second.bpHash := by
  show (first.bpHash == second.bpHash) = true ↔ _
  simp

/-- `elem` on block pointers is membership up to hash. -/
theorem elem_iff_hash (block : BlockPointer σ) (blocks : List (BlockPointer σ)) :
    blocks.elem block = true ↔ ∃ other ∈ blocks, other.bpHash = block.bpHash := by
  induction blocks with
  | nil => simp
  | cons head tail inductionHypothesis =>
      rw [List.elem_cons]
      by_cases sameHash : block.bpHash = head.bpHash
      · have sameBeq : (block == head) = true := (beq_iff_hash_eq block head).mpr sameHash
        simp only [sameBeq, true_iff]
        exact ⟨head, List.mem_cons_self, sameHash.symm⟩
      · have differs : (block == head) = false := by
          rw [← Bool.not_eq_true, beq_iff_hash_eq]
          exact sameHash
        simp only [differs, inductionHypothesis, List.mem_cons]
        constructor
        · rintro ⟨other, member, hash⟩
          exact ⟨other, Or.inr member, hash⟩
        · rintro ⟨other, isHead | member, hash⟩
          · subst isHead
            exact absurd hash.symm sameHash
          · exact ⟨other, member, hash⟩

structure FinalizationEntry (σ : Type) where
  feFinalizedQuorumCertificate : QuorumCertificate σ
  feSuccessorQuorumCertificate : QuorumCertificate σ
  feSuccessorProof : Nat
deriving DecidableEq

/-- A block together with a quorum certificate for it. -/
structure CertifiedBlock (σ : Type) where
  cbQuorumCertificate : QuorumCertificate σ
  cbQuorumBlock : BlockPointer σ
deriving DecidableEq

/-- The tree state as finalization sees it. `storedBlocks` is `LowLevel.memberBlock`: the
blocks written to the low-level store, finalized or certified. -/
structure SkovData (σ : Type) where
  liveMap : Nat → Option (BlockPointer σ)
  branches : List (List (BlockPointer σ))
  lastFinalized : BlockPointer σ
  latestFinalizationEntry : Option (FinalizationEntry σ)
  storedBlocks : Nat → Bool

def getLiveBlock (blockHash : Nat) (sd : SkovData σ) : Option (BlockPointer σ) :=
  sd.liveMap blockHash

inductive ParentOfLiveError where
  | unexpectedGenesisBlock
  | neitherLiveNorLastFinalized (parentHash blockHash : Nat)
deriving DecidableEq, Repr

/-- `parentOfLive`: the last finalized block if it is the parent, else the parent from the
live map, else an error. -/
def parentOfLive (sd : SkovData σ) (block : BlockPointer σ) :
    Except ParentOfLiveError (BlockPointer σ) :=
  match block.blockBakedData with
  | none => .error .unexpectedGenesisBlock
  | some blockData =>
      let parentHash := blockParent blockData
      if parentHash = sd.lastFinalized.bpHash then .ok sd.lastFinalized
      else
        match sd.liveMap parentHash with
        | some parent => .ok parent
        | none => .error (.neitherLiveNorLastFinalized parentHash block.bpHash)

/-- `HM.delete` on the live map. -/
def deleteLive (liveMap : Nat → Option (BlockPointer σ)) (blockHash : Nat) :
    Nat → Option (BlockPointer σ) :=
  fun key => if key = blockHash then none else liveMap key

def markLiveBlocksFinal (blockPointers : List (BlockPointer σ)) (sd : SkovData σ) :
    SkovData σ :=
  { sd with liveMap := blockPointers.foldl (fun blocks bp => deleteLive blocks bp.bpHash) sd.liveMap }

/-- `markLiveBlockDead`, through `markBlockDead`, as it changes the live map. -/
def markLiveBlockDead (sd : SkovData σ) (bp : BlockPointer σ) : SkovData σ :=
  { sd with liveMap := deleteLive sd.liveMap bp.bpHash }

theorem foldl_deleteLive (blockPointers : List (BlockPointer σ))
    (liveMap : Nat → Option (BlockPointer σ)) (key : Nat) :
    blockPointers.foldl (fun blocks bp => deleteLive blocks bp.bpHash) liveMap key =
      if key ∈ blockPointers.map (·.bpHash) then none else liveMap key := by
  induction blockPointers generalizing liveMap with
  | nil => simp
  | cons head tail inductionHypothesis =>
      rw [List.foldl_cons, inductionHypothesis]
      by_cases inTail : key ∈ tail.map (·.bpHash)
      · simp [inTail]
      · by_cases isHead : key = head.bpHash
        · simp [deleteLive, isHead]
        · simp [deleteLive, isHead, inTail]

theorem markLiveBlocksFinal_liveMap (blockPointers : List (BlockPointer σ)) (sd : SkovData σ)
    (key : Nat) :
    (markLiveBlocksFinal blockPointers sd).liveMap key =
      if key ∈ blockPointers.map (·.bpHash) then none else sd.liveMap key :=
  foldl_deleteLive blockPointers sd.liveMap key

@[simp] theorem markLiveBlocksFinal_storedBlocks (blockPointers : List (BlockPointer σ))
    (sd : SkovData σ) : (markLiveBlocksFinal blockPointers sd).storedBlocks = sd.storedBlocks :=
  rfl

theorem foldl_markLiveBlockDead_liveMap (sd : SkovData σ) (removed : List (BlockPointer σ))
    (key : Nat) :
    (removed.foldl markLiveBlockDead sd).liveMap key =
      if key ∈ removed.map (·.bpHash) then none else sd.liveMap key := by
  induction removed generalizing sd with
  | nil => simp
  | cons head tail inductionHypothesis =>
      rw [List.foldl_cons, inductionHypothesis]
      by_cases inTail : key ∈ tail.map (·.bpHash)
      · simp [inTail]
      · by_cases isHead : key = head.bpHash
        · simp [markLiveBlockDead, deleteLive, isHead]
        · simp [markLiveBlockDead, deleteLive, isHead, inTail]

@[simp] theorem foldl_markLiveBlockDead_storedBlocks (sd : SkovData σ)
    (removed : List (BlockPointer σ)) :
    (removed.foldl markLiveBlockDead sd).storedBlocks = sd.storedBlocks := by
  induction removed generalizing sd with
  | nil => rfl
  | cons head tail inductionHypothesis => rw [List.foldl_cons, inductionHypothesis]; rfl

/-! ## The invariant -/

/-- `child` hangs off `parent`: its parent hash is the parent's, one height higher. -/
def ParentLink (parent child : BlockPointer σ) : Prop :=
  ∃ baked, child.blockBakedData = some baked ∧ blockParent baked = parent.bpHash ∧
    child.blockHeight = parent.blockHeight + 1

/-- The block `parentOfLive` looks up for a parent hash. -/
def parentPointer (sd : SkovData σ) (parentHash : Nat) : Option (BlockPointer σ) :=
  if parentHash = sd.lastFinalized.bpHash then some sd.lastFinalized else sd.liveMap parentHash

/-- A live block: a baked block whose parent is the last finalized block or live, one height
lower, and whose quorum certificate has the parent's round and epoch. -/
def LiveParent (sd : SkovData σ) (block : BlockPointer σ) : Prop :=
  ∃ baked parent, block.blockBakedData = some baked ∧
    parentPointer sd (blockParent baked) = some parent ∧
    block.blockHeight = parent.blockHeight + 1 ∧
    baked.blockQuorumCertificate.qcRound = parent.blockRound ∧
    baked.blockQuorumCertificate.qcEpoch = parent.blockEpoch

/-- The documented invariants of `SkovData` that finality relies on. -/
structure Invariant (sd : SkovData σ) : Prop where
  liveKeys : ∀ blockHash block, sd.liveMap blockHash = some block → block.bpHash = blockHash
  liveParent : ∀ blockHash block, sd.liveMap blockHash = some block → LiveParent sd block
  lastFinalizedNotLive : sd.liveMap sd.lastFinalized.bpHash = none
  lastFinalizedStored : sd.storedBlocks sd.lastFinalized.bpHash = true
  /-- Level `i` of the branches holds live blocks of height `i + 1` above the last finalized
  block. -/
  levels : ∀ index (level : List (BlockPointer σ)), sd.branches[index]? = some level →
    ∀ block ∈ level, sd.liveMap block.bpHash = some block ∧
      block.blockHeight = sd.lastFinalized.blockHeight + index + 1
  /-- Every live block is in the level of its height. -/
  complete : ∀ blockHash block, sd.liveMap blockHash = some block →
    ∃ level, sd.branches[block.blockHeight - sd.lastFinalized.blockHeight - 1]? = some level ∧
      block ∈ level

/-- Descent from the last finalized block through live blocks. -/
inductive Descends (sd : SkovData σ) : BlockPointer σ → Prop
  | child {block : BlockPointer σ} : ParentLink sd.lastFinalized block → Descends sd block
  | liveChild {parent block : BlockPointer σ} : sd.liveMap parent.bpHash = some parent →
      Descends sd parent → ParentLink parent block → Descends sd block

section Invariant

variable {sd : SkovData σ}

theorem parentPointer_hash (invariant : Invariant sd) {parentHash : Nat}
    {parent : BlockPointer σ} (found : parentPointer sd parentHash = some parent) :
    parent.bpHash = parentHash := by
  unfold parentPointer at found
  split at found
  · cases found
    symm
    assumption
  · exact invariant.liveKeys _ _ found

/-- The parent of a live block is the last finalized block or live. -/
theorem parentPointer_live_or (invariant : Invariant sd) {parentHash : Nat}
    {parent : BlockPointer σ} (found : parentPointer sd parentHash = some parent) :
    parent = sd.lastFinalized ∨ sd.liveMap parent.bpHash = some parent := by
  unfold parentPointer at found
  split at found
  · exact Or.inl (Option.some.inj found).symm
  · right
    rw [invariant.liveKeys _ _ found]
    exact found

/-- Two live blocks with one hash are one block. -/
theorem live_unique {first second : BlockPointer σ}
    (firstLive : sd.liveMap first.bpHash = some first)
    (secondLive : sd.liveMap second.bpHash = some second)
    (sameHash : first.bpHash = second.bpHash) : first = second := by
  rw [sameHash, secondLive] at firstLive
  exact (Option.some.inj firstLive).symm

/-- Live blocks lie above the last finalized block. -/
theorem height_gt_of_live (invariant : Invariant sd) {blockHash : Nat} {block : BlockPointer σ}
    (live : sd.liveMap blockHash = some block) :
    sd.lastFinalized.blockHeight < block.blockHeight := by
  -- strong induction on the height: the parent is lower, and is live or the last finalized
  induction height : block.blockHeight using Nat.strong_induction_on generalizing blockHash block
    with
  | _ height inductionHypothesis =>
      obtain ⟨baked, parent, _, found, parentHeight, _, _⟩ := invariant.liveParent _ _ live
      rcases parentPointer_live_or invariant found with isLastFinalized | parentLive
      · subst isLastFinalized
        omega
      · have := inductionHypothesis parent.blockHeight (by omega) parentLive rfl
        omega

theorem lastFinalized_ne_of_live (invariant : Invariant sd) {block : BlockPointer σ}
    (live : sd.liveMap block.bpHash = some block) : block.bpHash ≠ sd.lastFinalized.bpHash := by
  intro same
  rw [same, invariant.lastFinalizedNotLive] at live
  cases live

/-- `parentOfLive` succeeds on a live block, with the block's parent. -/
theorem parentOfLive_of_live (invariant : Invariant sd) {block : BlockPointer σ}
    (live : sd.liveMap block.bpHash = some block) :
    ∃ parent, parentOfLive sd block = .ok parent ∧ ParentLink parent block ∧
      (parent = sd.lastFinalized ∨ sd.liveMap parent.bpHash = some parent) ∧
      ∀ baked, block.blockBakedData = some baked →
        baked.blockQuorumCertificate.qcRound = parent.blockRound ∧
        baked.blockQuorumCertificate.qcEpoch = parent.blockEpoch := by
  obtain ⟨baked, parent, bakedData, found, parentHeight, sameRound, sameEpoch⟩ :=
    invariant.liveParent _ _ live
  refine ⟨parent, ?_, ⟨baked, bakedData, (parentPointer_hash invariant found).symm, parentHeight⟩,
    parentPointer_live_or invariant found, ?_⟩
  · unfold parentOfLive
    rw [bakedData]
    unfold parentPointer at found
    dsimp only
    split
    · exact congrArg Except.ok (Option.some.inj (by rwa [if_pos ‹_›] at found))
    · rw [if_neg ‹_›] at found
      rw [found]
  · intro other otherData
    rw [bakedData, Option.some.injEq] at otherData
    subst otherData
    exact ⟨sameRound, sameEpoch⟩

/-- Every live block descends from the last finalized block. -/
theorem descends_of_live (invariant : Invariant sd) {block : BlockPointer σ}
    (live : sd.liveMap block.bpHash = some block) : Descends sd block := by
  induction height : block.blockHeight using Nat.strong_induction_on generalizing block with
  | _ height inductionHypothesis =>
      obtain ⟨parent, _, link, parentLive, _⟩ := parentOfLive_of_live invariant live
      rcases parentLive with isLastFinalized | parentLive
      · subst isLastFinalized
        exact .child link
      · obtain ⟨_, _, _, parentHeight⟩ := link
        exact .liveChild parentLive
          (inductionHypothesis parent.blockHeight (by omega) parentLive rfl) ⟨_, ‹_›, ‹_›, parentHeight⟩

end Invariant

end Concordium.KonsensusV1.TreeState
