import Concordium.KonsensusV1.TreeState.Implementation
import Concordium.GlobalState.TransactionTable

/-!
Contract: `updateFocusBlockTo` of `Concordium.KonsensusV1.TreeState.Implementation` moves the
pending transaction table to the new focus block, whatever the way it gets there.

Owns:
- `updatePTs`, generic in the block type as the source's local function is in effect: it walks
  the old and the new focus block down to their common ancestor, reversing the old branch and
  stacking the new one, then forwards the stack. Its recursion is on the sum of the two heights,
  given to it as fuel;
- `updateFocusBlockTo` on the focus block and the pending table, reading the tree state through
  `parentOfLive`;
- `Consistent`: a rooted tree of blocks, each with the pending table after it, obtained from its
  parent's by `forwardPTT`; `updatePTs_spec`, that the walk between two blocks of such a tree
  turns the first block's table into the second's; and the path independence of focus moves.

Does not own: the tree state fields the focus block and the pending table live in (they are
`FocusState` here), and the transaction table the pending table summarises.
-/

set_option autoImplicit false

namespace Concordium.KonsensusV1.TreeState.FocusBlock

open Concordium.GlobalState.TransactionTable

section Walk

variable {β Account Hash Update : Type} [BEq β] [DecidableEq Account] [DecidableEq Hash]
  [DecidableEq Update] (blockHeight : β → Nat) (parent : β → Option β)
  (blockTransactions : β → List (BlockItem Account Hash Update))

/-- `updatePTs oldBranchBlock newBranchBlock forwardBlocks pendingTable`, with a failure for
every `error` of the source and for running out of fuel. -/
def updatePTs : Nat → β → β → List β → PendingTransactionTable Account Hash Update →
    Option (PendingTransactionTable Account Hash Update)
  | 0, _, _, _, _ => none
  | fuel + 1, oldBranchBlock, newBranchBlock, forwardBlocks, pendingTable =>
      match compare (blockHeight oldBranchBlock) (blockHeight newBranchBlock) with
      | .lt => do
          -- the new branch is higher: stack its block and go to its parent
          let newParent ← parent newBranchBlock
          updatePTs fuel oldBranchBlock newParent (newBranchBlock :: forwardBlocks) pendingTable
      | .eq =>
          if oldBranchBlock == newBranchBlock then
            -- the common ancestor: forward the stacked blocks
            forwardBlocks.foldlM (fun p f => forwardPTT (blockTransactions f) p) pendingTable
          else do
            let oldParent ← parent oldBranchBlock
            let newParent ← parent newBranchBlock
            let reversed ← reversePTT (blockTransactions oldBranchBlock) pendingTable
            updatePTs fuel oldParent newParent (newBranchBlock :: forwardBlocks) reversed
      | .gt => do
          -- the old branch is higher: roll back its block and go to its parent
          let oldParent ← parent oldBranchBlock
          let reversed ← reversePTT (blockTransactions oldBranchBlock) pendingTable
          updatePTs fuel oldParent newBranchBlock forwardBlocks reversed

/-- A tree of blocks `inTree` rooted at `root`, lowest at the root, whose other blocks have a
parent in the tree one height lower; `==` is equality on it, and `pending` gives each block the
table after it, forwarded from its parent's. -/
structure Consistent (inTree : β → Prop) (root : β)
    (pending : β → PendingTransactionTable Account Hash Update) : Prop where
  rootInTree : inTree root
  rootLowest : ∀ block, inTree block → block ≠ root → blockHeight root < blockHeight block
  parentInTree : ∀ block, inTree block → block ≠ root →
    ∃ blockParent, parent block = some blockParent ∧ inTree blockParent ∧
      blockHeight blockParent + 1 = blockHeight block ∧
      forwardPTT (blockTransactions block) (pending blockParent) = some (pending block)
  beqIff : ∀ first second, inTree first → inTree second →
    ((first == second) = true ↔ first = second)

variable {inTree : β → Prop} {root : β} {pending : β → PendingTransactionTable Account Hash Update}

/-- A block other than the root of a lower or equal block is not the root. -/
theorem Consistent.ne_root (consistent : Consistent blockHeight parent blockTransactions inTree
      root pending)
    {block other : β} (otherIn : inTree other) (different : block ≠ other)
    (lower : blockHeight other ≤ blockHeight block) : block ≠ root := by
  intro isRoot
  subst isRoot
  have otherAbove := consistent.rootLowest other otherIn (Ne.symm different)
  omega

/-- Going to a parent: the parent's table is the child's, reversed. -/
theorem Consistent.reverse_parent (consistent : Consistent blockHeight parent blockTransactions
      inTree root pending)
    {block : β} (blockIn : inTree block) (notRoot : block ≠ root) :
    ∃ blockParent, parent block = some blockParent ∧ inTree blockParent ∧
      blockHeight blockParent + 1 = blockHeight block ∧
      reversePTT (blockTransactions block) (pending block) = some (pending blockParent) ∧
      forwardPTT (blockTransactions block) (pending blockParent) = some (pending block) := by
  obtain ⟨blockParent, found, parentIn, parentHeight, forwarded⟩ :=
    consistent.parentInTree block blockIn notRoot
  exact ⟨blockParent, found, parentIn, parentHeight,
    reversePTT_of_forwardPTT (blockTransactions block) forwarded, forwarded⟩

/-- The walk from `old` to `new` with `forwardBlocks` stacked above `new`, starting from `old`'s
table, gives the table at the top of the stack, given fuel above the sum of the heights. -/
theorem updatePTs_spec (consistent : Consistent blockHeight parent blockTransactions inTree root
      pending) :
    ∀ (fuel : Nat) (old new : β) (forwardBlocks : List β)
      (final : PendingTransactionTable Account Hash Update),
      inTree old → inTree new → blockHeight old + blockHeight new < fuel →
      forwardBlocks.foldlM (fun p f => forwardPTT (blockTransactions f) p) (pending new) =
        some final →
      updatePTs blockHeight parent blockTransactions fuel old new forwardBlocks (pending old) =
        some final := by
  intro fuel
  -- induction on the fuel; each call goes down one height on at least one branch
  induction fuel with
  | zero =>
      intro old new forwardBlocks final _ _ enough
      omega
  | succ fuel inductionHypothesis =>
      intro old new forwardBlocks final oldIn newIn enough forwarded
      rw [updatePTs]
      rcases lt_trichotomy (blockHeight old) (blockHeight new) with lower | same | higher
      · -- `lt`: the new block is above the root; stack it
        rw [compare_lt_iff_lt.mpr lower]
        have newNotRoot := consistent.ne_root blockHeight parent blockTransactions oldIn
          (fun same => by subst same; omega) lower.le
        obtain ⟨newParent, found, parentIn, parentHeight, _, forwardedParent⟩ :=
          consistent.reverse_parent blockHeight parent blockTransactions newIn newNotRoot
        rw [found]
        refine inductionHypothesis old newParent (new :: forwardBlocks) final oldIn parentIn
          (by omega) ?_
        rw [List.foldlM_cons, forwardedParent]
        exact forwarded
      · rw [compare_eq_iff_eq.mpr same]
        by_cases equal : (old == new) = true
        · -- the common ancestor
          rw [if_pos equal, (consistent.beqIff old new oldIn newIn).mp equal]
          exact forwarded
        · -- two blocks at one height: neither is the root; go to both parents
          rw [if_neg equal]
          have different : old ≠ new := fun same =>
            equal ((consistent.beqIff old new oldIn newIn).mpr same)
          have oldNotRoot := consistent.ne_root blockHeight parent blockTransactions newIn
            different same.ge
          have newNotRoot := consistent.ne_root blockHeight parent blockTransactions oldIn
            (Ne.symm different) same.le
          obtain ⟨oldParent, oldFound, oldParentIn, oldParentHeight, reversed, _⟩ :=
            consistent.reverse_parent blockHeight parent blockTransactions oldIn oldNotRoot
          obtain ⟨newParent, newFound, newParentIn, newParentHeight, _, forwardedParent⟩ :=
            consistent.reverse_parent blockHeight parent blockTransactions newIn newNotRoot
          rw [oldFound, newFound]
          show (reversePTT (blockTransactions old) (pending old) >>= _) = _
          rw [reversed]
          refine inductionHypothesis oldParent newParent (new :: forwardBlocks) final
            oldParentIn newParentIn (by omega) ?_
          rw [List.foldlM_cons, forwardedParent]
          exact forwarded
      · -- `gt`: the old block is above the root; roll it back
        rw [compare_gt_iff_gt.mpr higher]
        have oldNotRoot := consistent.ne_root blockHeight parent blockTransactions newIn
          (fun same => by subst same; omega) higher.le
        obtain ⟨oldParent, found, parentIn, parentHeight, reversed, _⟩ :=
          consistent.reverse_parent blockHeight parent blockTransactions oldIn oldNotRoot
        rw [found]
        show (reversePTT (blockTransactions old) (pending old) >>= _) = _
        rw [reversed]
        exact inductionHypothesis oldParent new forwardBlocks final parentIn newIn (by omega)
          forwarded

end Walk

/-! ## Moving the focus block -/

variable {σ Account Hash Update : Type} [DecidableEq Account] [DecidableEq Hash]
  [DecidableEq Update]

/-- The focus block and the pending table after it, as the tree state keeps them. -/
structure FocusState (σ Account Hash Update : Type) where
  focusBlock : BlockPointer σ
  pendingTransactionTable : PendingTransactionTable Account Hash Update

/-- `updateFocusBlockTo`: the walk runs with `parentOfLive` of the current tree state; its
recursion is bounded by the heights of the two focus blocks. -/
def updateFocusBlockTo (sd : SkovData σ)
    (blockTransactions : BlockPointer σ → List (BlockItem Account Hash Update))
    (focus : FocusState σ Account Hash Update) (newFocusBlock : BlockPointer σ) :
    Option (FocusState σ Account Hash Update) := do
  let parent := fun block => (parentOfLive sd block).toOption
  let oldFocusBlock := focus.focusBlock
  let pendingTable ← updatePTs (·.blockHeight) parent blockTransactions
    (oldFocusBlock.blockHeight + newFocusBlock.blockHeight + 1) oldFocusBlock newFocusBlock []
    focus.pendingTransactionTable
  pure { focusBlock := newFocusBlock, pendingTransactionTable := pendingTable }

/-- A block the focus may move to: live, or the last finalized block. -/
def LiveOrLastFinalized (sd : SkovData σ) (block : BlockPointer σ) : Prop :=
  sd.liveMap block.bpHash = some block ∨ block = sd.lastFinalized

section Tree

variable {sd : SkovData σ}

/-- Over a tree state satisfying the invariant, the live blocks and the last finalized block
form a consistent tree for every assignment of pending tables forwarded along live blocks. -/
theorem consistent_of_invariant (invariant : Invariant sd)
    (blockTransactions : BlockPointer σ → List (BlockItem Account Hash Update))
    (pending : BlockPointer σ → PendingTransactionTable Account Hash Update)
    (pendingForwards : ∀ block parent, sd.liveMap block.bpHash = some block →
      parentOfLive sd block = .ok parent →
      forwardPTT (blockTransactions block) (pending parent) = some (pending block)) :
    Consistent (·.blockHeight) (fun block => (parentOfLive sd block).toOption) blockTransactions
      (LiveOrLastFinalized sd) sd.lastFinalized pending where
  rootInTree := Or.inr rfl
  rootLowest := by
    intro block blockIn notRoot
    rcases blockIn with live | isRoot
    · exact height_gt_of_live invariant live
    · exact absurd isRoot notRoot
  parentInTree := by
    intro block blockIn notRoot
    rcases blockIn with live | isRoot
    · obtain ⟨blockParent, found, ⟨_, _, _, parentHeight⟩, parentLiveOr, _⟩ :=
        parentOfLive_of_live invariant live
      refine ⟨blockParent, by rw [found]; rfl, ?_, parentHeight.symm,
        pendingForwards block blockParent live found⟩
      rcases parentLiveOr with isRoot | parentLive
      · exact Or.inr isRoot
      · exact Or.inl parentLive
    · exact absurd isRoot notRoot
  beqIff := by
    intro first second firstIn secondIn
    rw [beq_iff_hash_eq]
    refine ⟨fun sameHash => ?_, fun same => by rw [same]⟩
    -- blocks of the tree are determined by their hashes
    rcases firstIn with firstLive | firstRoot <;> rcases secondIn with secondLive | secondRoot
    · exact live_unique firstLive secondLive sameHash
    · rw [secondRoot] at sameHash
      exact absurd sameHash (lastFinalized_ne_of_live invariant firstLive)
    · rw [firstRoot] at sameHash
      exact absurd sameHash.symm (lastFinalized_ne_of_live invariant secondLive)
    · rw [firstRoot, secondRoot]

/-- From the table of a block of the tree, moving the focus to another gives that block's
table. -/
theorem updateFocusBlockTo_spec (invariant : Invariant sd)
    (blockTransactions : BlockPointer σ → List (BlockItem Account Hash Update))
    (pending : BlockPointer σ → PendingTransactionTable Account Hash Update)
    (pendingForwards : ∀ block parent, sd.liveMap block.bpHash = some block →
      parentOfLive sd block = .ok parent →
      forwardPTT (blockTransactions block) (pending parent) = some (pending block))
    {focus target : BlockPointer σ} (focusIn : LiveOrLastFinalized sd focus)
    (targetIn : LiveOrLastFinalized sd target) :
    updateFocusBlockTo sd blockTransactions ⟨focus, pending focus⟩ target =
      some ⟨target, pending target⟩ := by
  have walked := updatePTs_spec (·.blockHeight) (fun block => (parentOfLive sd block).toOption)
    blockTransactions (consistent_of_invariant invariant blockTransactions pending pendingForwards)
    (focus.blockHeight + target.blockHeight + 1) focus target [] (pending target) focusIn
    targetIn (by omega) rfl
  show (updatePTs _ _ _ _ focus target [] (pending focus) >>= _) = _
  rw [walked]
  rfl

/-- Moving the focus block is path independent: from a table consistent with the focus block,
moving to `middle` and then to `target` gives the table of moving to `target` directly, which is
`target`'s own; so moving away and back restores the table. -/
theorem updateFocusBlockTo_path_independent (invariant : Invariant sd)
    (blockTransactions : BlockPointer σ → List (BlockItem Account Hash Update))
    (pending : BlockPointer σ → PendingTransactionTable Account Hash Update)
    (pendingForwards : ∀ block parent, sd.liveMap block.bpHash = some block →
      parentOfLive sd block = .ok parent →
      forwardPTT (blockTransactions block) (pending parent) = some (pending block))
    {focus middle target : BlockPointer σ} (focusIn : LiveOrLastFinalized sd focus)
    (middleIn : LiveOrLastFinalized sd middle) (targetIn : LiveOrLastFinalized sd target) :
    ((updateFocusBlockTo sd blockTransactions ⟨focus, pending focus⟩ middle).bind
        fun moved => updateFocusBlockTo sd blockTransactions moved target) =
      updateFocusBlockTo sd blockTransactions ⟨focus, pending focus⟩ target ∧
    updateFocusBlockTo sd blockTransactions ⟨focus, pending focus⟩ target =
      some ⟨target, pending target⟩ := by
  have direct := updateFocusBlockTo_spec invariant blockTransactions pending pendingForwards
    focusIn targetIn
  refine ⟨?_, direct⟩
  rw [updateFocusBlockTo_spec invariant blockTransactions pending pendingForwards focusIn
    middleIn, Option.bind_some, direct]
  exact updateFocusBlockTo_spec invariant blockTransactions pending pendingForwards middleIn
    targetIn

/-- A genesis block, last finalized, with one live block on it. -/
def focusGenesis : BlockPointer Unit :=
  { bpHash := 0, blockRound := 0, blockEpoch := 0, blockHeight := 0, blockBakedData := none }

def focusChild : BlockPointer Unit :=
  { bpHash := 1, blockRound := 1, blockEpoch := 0, blockHeight := 1,
    blockBakedData := some
      { blockQuorumCertificate :=
          { qcBlock := 0, qcRound := 0, qcEpoch := 0, qcAggregateSignature := (),
            qcSignatories := Types.emptyFinalizerSet }
        bakedBlockHash := 11 } }

def focusState : SkovData Unit where
  liveMap blockHash := if blockHash = 1 then some focusChild else none
  branches := [[focusChild]]
  lastFinalized := focusGenesis
  latestFinalizationEntry := none
  storedBlocks blockHash := blockHash == 0

theorem focusState_invariant : Invariant focusState where
  liveKeys := by
    intro blockHash block found
    simp only [focusState] at found
    split_ifs at found with isChild
    cases found
    exact isChild.symm
  liveParent := by
    intro blockHash block found
    simp only [focusState] at found
    split_ifs at found
    cases found
    exact ⟨_, focusGenesis, rfl, rfl, rfl, rfl, rfl⟩
  lastFinalizedNotLive := rfl
  lastFinalizedStored := rfl
  levels := by
    intro index level found block member
    rcases index with _ | index
    · cases found
      rw [List.mem_singleton] at member
      subst member
      exact ⟨rfl, rfl⟩
    · cases found
  complete := by
    intro blockHash block found
    simp only [focusState] at found
    split_ifs at found
    cases found
    exact ⟨_, rfl, List.mem_singleton_self _⟩

/-- The child block holds the transaction of nonce 1 from account 0. -/
def focusTransactions (block : BlockPointer Unit) : List (BlockItem Nat Nat Nat) :=
  if block.bpHash = 1 then [.normalTransaction 0 1] else []

/-- Before the child, account 0 has that transaction pending; after it, nothing. -/
def focusPending (block : BlockPointer Unit) : PendingTransactionTable Nat Nat Nat :=
  let atGenesis : PendingTransactionTable Nat Nat Nat :=
    { pttWithSender := fun account => if account = 0 then some (1, 1) else none
      pttDeployCredential := fun _ => false
      pttUpdates := fun _ => none }
  if block.bpHash = 1 then
    { atGenesis with pttWithSender := Function.update atGenesis.pttWithSender 0 none }
  else atGenesis

theorem focusPending_forwards : ∀ block parent, focusState.liveMap block.bpHash = some block →
    parentOfLive focusState block = .ok parent →
    forwardPTT (focusTransactions block) (focusPending parent) = some (focusPending block) := by
  intro block parent live found
  simp only [focusState] at live
  split_ifs at live
  cases live
  cases found
  rfl

theorem updateFocusBlockTo_path_independent_on_example :
    ((updateFocusBlockTo focusState focusTransactions ⟨focusChild, focusPending focusChild⟩
        focusGenesis).bind
        fun moved => updateFocusBlockTo focusState focusTransactions moved focusChild) =
      updateFocusBlockTo focusState focusTransactions ⟨focusChild, focusPending focusChild⟩
        focusChild ∧
    updateFocusBlockTo focusState focusTransactions ⟨focusChild, focusPending focusChild⟩
        focusChild = some ⟨focusChild, focusPending focusChild⟩ :=
  updateFocusBlockTo_path_independent focusState_invariant focusTransactions focusPending
    focusPending_forwards (Or.inl rfl) (Or.inr rfl) (Or.inl rfl)

end Tree

end Concordium.KonsensusV1.TreeState.FocusBlock
