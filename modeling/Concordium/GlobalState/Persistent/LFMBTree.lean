import Concordium.GlobalState.Basic.BlockState.LFMBTree

/-!
Contract: the persistent left-full Merkle binary tree of
`Concordium.GlobalState.Persistent.LFMBTree`, with references taken as identities, computes
what the basic tree of `Concordium.GlobalState.Basic.BlockState.LFMBTree` computes, and its
stored form loads back.

Owns:
- `appendV` with `createLeaf` and the reused reference `refNode`, `update`, `lookupRef`,
  `toAscList`, `getHashM`, `toHashV0` and `toHashV1`, as the source computes them when
  `refMake` and `refLoad` are `pure`. A reference is then the value it refers to, so
  `T ref v` is the basic `T v` and `LFMBTree' k ref v` the basic `LFMBTree k v`, and the
  monad is the identity;
- the `BlobStorable` instances of `T` and of the tree: `storeUpdateT`, `loadT`,
  `storeUpdate` and `load` over `Concordium.Library.Serialize`, a child reference being
  stored inline and a leaf's value through the value's own `storeUpdate` and `load`;
- refinement of the basic tree, operation by operation and over whole runs, and the round
  trip of the stored form.

Does not own: the blob store, caching, `mfold`, `mmap_`, `migrateLFMBTree` and the
`Nullable` helpers.
-/

set_option autoImplicit false

namespace Concordium.GlobalState.Persistent.LFMBTree

open Concordium.GlobalState.Basic.BlockState.LFMBTree (T LFMBTree setBits HashScheme
  emptyTreeHashV0 Operation Response answerUpdate WellFormed Shaped Perfect)
open Serialize

variable {α β : Type}

def size : LFMBTree α → Nat
  | .empty => 0
  | .nonEmpty size _ => size

def empty : LFMBTree α := .empty

def lookupT (key : Nat) : T α → Option α
  | .leaf ref => some ref
  | .node height left right =>
      if key.testBit height then lookupT key right else lookupT key left

def lookupRef (key : Nat) : LFMBTree α → Option α
  | .empty => none
  | .nonEmpty size tree => if key ≥ size then none else lookupT key tree

/-- `createLeaf`: a node over the original node's reference and a new leaf. The original node
is given a reference only when it has none, which happens at the root. -/
def createLeaf (value : α) (originalNode : T α) (refNode : Option (T α))
    (f : T α → T α → T α) : T α :=
  let ref := refNode.getD originalNode
  f ref (.leaf value)

/-- `appendT key node refNode`, where `refNode` is the stored reference to `node` if any. -/
def appendT (value : α) (key : Nat) (node : T α) (refNode : Option (T α)) : T α :=
  match node with
  | originalNode@(.leaf _) => createLeaf value originalNode refNode (.node 0)
  | originalNode@(.node height leftNode rightNode) =>
      let saturatedLevel := setBits height
      let modLevel := fun key => key &&& setBits ((height : Int) - 1)
      if key > saturatedLevel then createLeaf value originalNode refNode (.node (height + 1))
      else
        -- the right child is loaded from `rightNode`, which is then its reference
        .node height leftNode (appendT value (modLevel key) rightNode (some rightNode))

def appendV (value : α) : LFMBTree α → Nat × LFMBTree α
  | .empty => (0, .nonEmpty 1 (.leaf value))
  | .nonEmpty size tree => (size, .nonEmpty (size + 1) (appendT value size tree none))

def updateT (key : Nat) (change : α → β × α) : T α → β × T α
  | .leaf ref =>
      let (result, newValue) := change ref
      (result, .leaf newValue)
  | .node height left right =>
      if key.testBit height then
        let (result, right') := updateT key change right
        (result, .node height left right')
      else
        let (result, left') := updateT key change left
        (result, .node height left' right)

def update (change : α → β × α) (key : Nat) : LFMBTree α → Option (β × LFMBTree α)
  | .empty => none
  | .nonEmpty size tree =>
      if key ≥ size then none
      else
        let (result, tree') := updateT key change tree
        some (result, .nonEmpty size tree')

def toListT : T α → List α
  | .leaf ref => [ref]
  | .node _ left right => toListT left ++ toListT right

def toAscList : LFMBTree α → List α
  | .empty => []
  | .nonEmpty _ tree => toListT tree

section Hash

variable {H : Type} (scheme : HashScheme H) (hashValue : α → H)

/-- The hash of a node: a child reference hashes as the node it refers to. -/
def getHashM : T α → H
  | .leaf ref => hashValue ref
  | .node _ left right => scheme.hashOfHashes (getHashM left) (getHashM right)

def toHashV0 : LFMBTree α → H
  | .empty => emptyTreeHashV0 scheme
  | .nonEmpty _ tree => getHashM scheme hashValue tree

def toHashV1 (tree : LFMBTree α) : H :=
  let preHash := toHashV0 scheme hashValue tree
  let sz := match tree with
    | .empty => 0
    | .nonEmpty size _ => size
  scheme.hashBytes (putWord64be sz ++ scheme.hashToBytes preHash)

end Hash

/-! ## Refinement of the basic tree -/

/-- The reused reference is the node's own, so appending computes the basic `appendT`. -/
theorem appendT_eq_basic (value : α) (key : Nat) (node : T α) {refNode : Option (T α)}
    (ownReference : refNode.getD node = node) :
    appendT value key node refNode = Basic.BlockState.LFMBTree.appendT key value node := by
  induction node generalizing key refNode with
  | leaf stored =>
      rw [appendT, Basic.BlockState.LFMBTree.appendT, createLeaf, ownReference]
  | node height left right _ rightIH =>
      rw [appendT, Basic.BlockState.LFMBTree.appendT]
      simp only [createLeaf, ownReference]
      split
      · rfl
      · rw [rightIH _ rfl]

theorem appendV_eq_append (value : α) (tree : LFMBTree α) :
    appendV value tree = Basic.BlockState.LFMBTree.append value tree := by
  cases tree with
  | empty => rfl
  | nonEmpty size inner =>
      rw [appendV, Basic.BlockState.LFMBTree.append, appendT_eq_basic value size inner rfl]

theorem updateT_eq_basic (key : Nat) (change : α → β × α) (tree : T α) :
    updateT key change tree = Basic.BlockState.LFMBTree.updateT key change tree := by
  induction tree with
  | leaf ref => rfl
  | node height left right leftIH rightIH =>
      rw [updateT, Basic.BlockState.LFMBTree.updateT, leftIH, rightIH]

theorem update_eq_basic (change : α → β × α) (key : Nat) (tree : LFMBTree α) :
    update change key tree = Basic.BlockState.LFMBTree.update change key tree := by
  cases tree with
  | empty => rfl
  | nonEmpty size inner =>
      rw [update, Basic.BlockState.LFMBTree.update, updateT_eq_basic]

theorem lookupRef_eq_lookup (key : Nat) (tree : LFMBTree α) :
    lookupRef key tree = Basic.BlockState.LFMBTree.lookup key tree := by
  have lookupSame : ∀ inner : T α,
      lookupT key inner = Basic.BlockState.LFMBTree.lookupT key inner := by
    intro inner
    induction inner with
    | leaf ref => rfl
    | node height left right leftIH rightIH =>
        rw [lookupT, Basic.BlockState.LFMBTree.lookupT, leftIH, rightIH]
  cases tree with
  | empty => rfl
  | nonEmpty size inner => rw [lookupRef, Basic.BlockState.LFMBTree.lookup, lookupSame]

theorem toAscList_eq_basic (tree : LFMBTree α) :
    toAscList tree = Basic.BlockState.LFMBTree.toAscList tree := by
  have listSame : ∀ inner : T α, toListT inner = Basic.BlockState.LFMBTree.toListT inner := by
    intro inner
    induction inner with
    | leaf ref => rfl
    | node height left right leftIH rightIH =>
        rw [toListT, Basic.BlockState.LFMBTree.toListT, leftIH, rightIH]
  cases tree with
  | empty => rfl
  | nonEmpty size inner => exact listSame inner

theorem size_eq_basic (tree : LFMBTree α) :
    size tree = Basic.BlockState.LFMBTree.size tree := by
  cases tree <;> rfl

section Hash

variable {H : Type} (scheme : HashScheme H) (hashValue : α → H)

theorem toHashV0_eq_hashV0 (tree : LFMBTree α) :
    toHashV0 scheme hashValue tree = Basic.BlockState.LFMBTree.hashV0 scheme hashValue tree := by
  have hashSame : ∀ inner : T α,
      getHashM scheme hashValue inner =
        Basic.BlockState.LFMBTree.getHashT scheme hashValue inner := by
    intro inner
    induction inner with
    | leaf ref => rfl
    | node height left right leftIH rightIH =>
        rw [getHashM, Basic.BlockState.LFMBTree.getHashT, leftIH, rightIH]
  cases tree with
  | empty => rfl
  | nonEmpty size inner => exact hashSame inner

theorem toHashV1_eq_hashV1 (tree : LFMBTree α) :
    toHashV1 scheme hashValue tree = Basic.BlockState.LFMBTree.hashV1 scheme hashValue tree := by
  cases tree with
  | empty =>
      simp only [toHashV1, Basic.BlockState.LFMBTree.hashV1, Basic.BlockState.LFMBTree.size,
        toHashV0_eq_hashV0]
  | nonEmpty count inner =>
      simp only [toHashV1, Basic.BlockState.LFMBTree.hashV1, Basic.BlockState.LFMBTree.size,
        toHashV0_eq_hashV0]

end Hash

/-- One operation on the persistent tree, through `appendV`, `update` and `lookupRef`. -/
def applyPersistent : Operation α β → LFMBTree α → Response α β × LFMBTree α
  | .append value, tree => (.appended (appendV value tree).1, (appendV value tree).2)
  | .update change key, tree => answerUpdate tree (update change key tree)
  | .lookup key, tree => (.lookedUp (lookupRef key tree), tree)

theorem applyPersistent_eq_applyTree (operation : Operation α β) (tree : LFMBTree α) :
    applyPersistent operation tree = Basic.BlockState.LFMBTree.applyTree operation tree := by
  cases operation with
  | append value => rw [applyPersistent, Basic.BlockState.LFMBTree.applyTree, appendV_eq_append]
  | update change key =>
      rw [applyPersistent, Basic.BlockState.LFMBTree.applyTree, update_eq_basic]
  | lookup key =>
      rw [applyPersistent, Basic.BlockState.LFMBTree.applyTree, lookupRef_eq_lookup]

/-- The persistent tree simulates the basic one, with no invariant: the two agree on every
tree. -/
theorem applyPersistent_simulates :
    Machine.Simulates (applyPersistent (α := α) (β := β))
      Basic.BlockState.LFMBTree.applyTree id (fun _ => True) where
  preserves := fun _ _ _ => trivial
  agrees := by
    intro operation tree _
    rw [applyPersistent_eq_applyTree]
    rfl

/-! ## Stored form -/

/-- `storeUpdate` for `T`: tag `0` and the value for a leaf; tag `1`, the height as a
`Word64` and both children for a node. -/
def storeUpdateT (storeValue : α → List UInt8 × α) : T α → List UInt8 × T α
  | .leaf ref =>
      let (pt, ref') := storeValue ref
      (putWord8 0 ++ pt, .leaf ref')
  | .node height left right =>
      let (leftp, left') := storeUpdateT storeValue left
      let (rightp, right') := storeUpdateT storeValue right
      (putWord8 1 ++ putWord64be height ++ leftp ++ rightp, .node height left' right')

/-- `load` for `T`, reading at most `depth` levels. Any tag other than `0` is a node. -/
def loadTWithin (loadValue : Get α) : Nat → Get (T α)
  | 0 => Get.fail
  | depth + 1 => do
      let tag ← getWord8
      if tag = 0 then
        let value ← loadValue
        pure (.leaf value)
      else
        let height ← getWord64be
        let left ← loadTWithin loadValue depth
        let right ← loadTWithin loadValue depth
        pure (.node height left right)

/-- `load` for `T`. Every level reads its tag byte, so no input holds more levels than bytes
and the bound never cuts a parse short. -/
def loadT (loadValue : Get α) : Get (T α) := fun input =>
  loadTWithin loadValue input.length input

def storeUpdate (storeValue : α → List UInt8 × α) : LFMBTree α → List UInt8 × LFMBTree α
  | .empty => (putWord64be 0, .empty)
  | .nonEmpty size tree =>
      let (pt, tree') := storeUpdateT storeValue tree
      (putWord64be size ++ pt, .nonEmpty size tree')

/-- `load` for the tree: a stored size of `0` is the empty tree. -/
def load (loadValue : Get α) : Get (LFMBTree α) := do
  let size ← getWord64be
  if size = 0 then pure .empty
  else
    let tree ← loadT loadValue
    pure (.nonEmpty size tree)

/-- Every node height of the tree is below `bound`: heights are stored as `Word64`. -/
def HeightsBelow (bound : Nat) : T α → Prop
  | .leaf _ => True
  | .node height left right => height < bound ∧ HeightsBelow bound left ∧ HeightsBelow bound right

def depth : T α → Nat
  | .leaf _ => 0
  | .node _ left right => max (depth left) (depth right) + 1

theorem depth_lt_length (storeValue : α → List UInt8 × α) (tree : T α) :
    depth tree < (storeUpdateT storeValue tree).1.length := by
  induction tree with
  | leaf ref => simp [depth, storeUpdateT, putWord8]
  | node height left right leftIH rightIH =>
      simp only [depth, storeUpdateT, List.length_append, putWord8, List.length_singleton]
      omega

/-! ## Heights of shaped trees -/

theorem HeightsBelow.mono {low high : Nat} {tree : T α} (below : HeightsBelow low tree)
    (le : low ≤ high) : HeightsBelow high tree := by
  induction tree with
  | leaf ref => trivial
  | node height left right leftIH rightIH =>
      obtain ⟨heightBelow, leftBelow, rightBelow⟩ := below
      exact ⟨by omega, leftIH leftBelow, rightIH rightBelow⟩

theorem heightsBelow_of_perfect {level : Nat} {tree : T α} (perfect : Perfect level tree) :
    HeightsBelow level tree := by
  induction perfect with
  | leaf ref => trivial
  | node _ _ leftBelow rightBelow =>
      exact ⟨Nat.lt_succ_self _, leftBelow.mono (Nat.le_succ _), rightBelow.mono (Nat.le_succ _)⟩

/-- A shaped tree of at most `2 ^ bound` leaves has all its heights below `bound`. -/
theorem heightsBelow_of_shaped {tree : T α} {count bound : Nat} (shaped : Shaped tree count)
    (fits : count ≤ 2 ^ bound) : HeightsBelow bound tree := by
  induction shaped generalizing bound with
  | leaf ref => trivial
  | @node height count left right leftPerfect rightShaped rightBound rightIH =>
      have heightBelow := (Shaped.node leftPerfect rightShaped rightBound).height_lt fits
      have rightFits : count ≤ 2 ^ bound :=
        Nat.le_trans rightBound (Nat.pow_le_pow_right (by decide) heightBelow.le)
      exact ⟨heightBelow, (heightsBelow_of_perfect leftPerfect).mono heightBelow.le, rightIH rightFits⟩

section RoundTrip

variable {storeValue : α → List UInt8 × α} {loadValue : Get α}

/-- Reading a stored tree with enough levels gives back the tree `storeUpdateT` returned. -/
theorem loadTWithin_storeUpdateT
    (valueRoundTrip : ∀ value rest,
      loadValue ((storeValue value).1 ++ rest) = some ((storeValue value).2, rest))
    (tree : T α) (heightsFit : HeightsBelow (2 ^ 64) tree) (levels : Nat)
    (enough : depth tree < levels) (rest : List UInt8) :
    loadTWithin loadValue levels ((storeUpdateT storeValue tree).1 ++ rest) =
      some ((storeUpdateT storeValue tree).2, rest) := by
  induction tree generalizing levels rest with
  | leaf ref =>
      obtain ⟨levels, rfl⟩ : ∃ below, levels = below + 1 := ⟨levels - 1, by omega⟩
      simp only [storeUpdateT, loadTWithin, List.append_assoc]
      rw [bind_run_of_some (getWord8_putWord8 0 _), if_pos rfl,
        bind_run_of_some (valueRoundTrip ref rest)]
      rfl
  | node height left right leftIH rightIH =>
      obtain ⟨heightFits, leftFits, rightFits⟩ := heightsFit
      obtain ⟨levels, rfl⟩ : ∃ below, levels = below + 1 := ⟨levels - 1, by omega⟩
      have leftEnough : depth left < levels := by simp only [depth] at enough; omega
      have rightEnough : depth right < levels := by simp only [depth] at enough; omega
      simp only [storeUpdateT, loadTWithin, List.append_assoc]
      rw [bind_run_of_some (getWord8_putWord8 1 _), if_neg (by decide),
        bind_run_of_some (getWord64be_putWord64be heightFits _),
        bind_run_of_some (leftIH leftFits levels leftEnough _),
        bind_run_of_some (rightIH rightFits levels rightEnough rest)]
      rfl

theorem loadT_storeUpdateT
    (valueRoundTrip : ∀ value rest,
      loadValue ((storeValue value).1 ++ rest) = some ((storeValue value).2, rest))
    (tree : T α) (heightsFit : HeightsBelow (2 ^ 64) tree) (rest : List UInt8) :
    loadT loadValue ((storeUpdateT storeValue tree).1 ++ rest) =
      some ((storeUpdateT storeValue tree).2, rest) := by
  have enough : depth tree < ((storeUpdateT storeValue tree).1 ++ rest).length := by
    have := depth_lt_length storeValue tree
    rw [List.length_append]
    omega
  exact loadTWithin_storeUpdateT valueRoundTrip tree heightsFit _ enough rest

/-- When storing a value leaves its reference as it is, storing leaves the tree as it is. -/
theorem storeUpdateT_snd (keepsValue : ∀ value, (storeValue value).2 = value) (tree : T α) :
    (storeUpdateT storeValue tree).2 = tree := by
  induction tree with
  | leaf ref => simp only [storeUpdateT, keepsValue]
  | node height left right leftIH rightIH => simp only [storeUpdateT, leftIH, rightIH]

/-- A well-formed tree whose size fits a `Word64` loads back from its stored form. The size
is never `0` on a non-empty tree, which would load back as the empty one. -/
theorem load_storeUpdate
    (valueRoundTrip : ∀ value rest,
      loadValue ((storeValue value).1 ++ rest) = some ((storeValue value).2, rest))
    {tree : LFMBTree α} (wellFormed : WellFormed tree) (sizeFits : size tree < 2 ^ 64)
    (rest : List UInt8) :
    load loadValue ((storeUpdate storeValue tree).1 ++ rest) =
      some ((storeUpdate storeValue tree).2, rest) := by
  cases tree with
  | empty =>
      simp only [storeUpdate, load]
      rw [bind_run_of_some (getWord64be_putWord64be (by decide) rest), if_pos rfl]
      rfl
  | nonEmpty count inner =>
      have shaped : Shaped inner count := wellFormed
      have countFits : count < 2 ^ 64 := sizeFits
      have heightsFit : HeightsBelow (2 ^ 64) inner :=
        (heightsBelow_of_shaped shaped countFits.le).mono Nat.lt_two_pow_self.le
      simp only [storeUpdate, load, List.append_assoc]
      rw [bind_run_of_some (getWord64be_putWord64be countFits _),
        if_neg (Nat.pos_iff_ne_zero.mp shaped.pos),
        bind_run_of_some (loadT_storeUpdateT valueRoundTrip inner heightsFit rest)]
      rfl

end RoundTrip

/-- Two bytes, each stored as itself, as a tree of size `2`. -/
def twoBytes : LFMBTree UInt8 :=
  .nonEmpty 2 (.node 0 (.leaf 7) (.leaf 9))

theorem load_storeUpdate_on_two_bytes :
    WellFormed twoBytes ∧
      load getWord8 ((storeUpdate (fun value : UInt8 => (putWord8 value, value)) twoBytes).1 ++
          [5]) =
        some ((storeUpdate (fun value : UInt8 => (putWord8 value, value)) twoBytes).2, [5]) ∧
      (storeUpdate (fun value : UInt8 => (putWord8 value, value)) twoBytes).2 = twoBytes := by
  have wellFormed : WellFormed twoBytes :=
    Basic.BlockState.LFMBTree.Shaped.node (.leaf 7) (.leaf 9) (by decide)
  exact ⟨wellFormed, load_storeUpdate (fun value rest => getWord8_putWord8 value rest) wellFormed
    (by decide) [5], rfl⟩

/-! ## Runs -/

theorem persistent_refines_basic {H : Type} (scheme : HashScheme H) (hashValue : α → H)
    (storeValue : α → List UInt8 × α) (loadValue : Get α)
    (valueRoundTrip : ∀ value rest,
      loadValue ((storeValue value).1 ++ rest) = some ((storeValue value).2, rest))
    (keepsValue : ∀ value, (storeValue value).2 = value)
    (operations : List (Operation α β)) :
    let persistent := Machine.run applyPersistent operations empty
    let basic := Machine.run Basic.BlockState.LFMBTree.applyTree operations
      Basic.BlockState.LFMBTree.empty
    persistent.1 = basic.1 ∧
      size persistent.2 = Basic.BlockState.LFMBTree.size basic.2 ∧
      toAscList persistent.2 = Basic.BlockState.LFMBTree.toAscList basic.2 ∧
      toHashV0 scheme hashValue persistent.2 =
        Basic.BlockState.LFMBTree.hashV0 scheme hashValue basic.2 ∧
      toHashV1 scheme hashValue persistent.2 =
        Basic.BlockState.LFMBTree.hashV1 scheme hashValue basic.2 ∧
      ∀ (tree : T α) (rest : List UInt8), HeightsBelow (2 ^ 64) tree →
        loadT loadValue ((storeUpdateT storeValue tree).1 ++ rest) = some (tree, rest) := by
  obtain ⟨agrees, -⟩ := applyPersistent_simulates.run operations empty trivial
  have sameRun : Machine.run applyPersistent operations empty =
      Machine.run Basic.BlockState.LFMBTree.applyTree operations
        Basic.BlockState.LFMBTree.empty := by
    rw [Prod.map_id] at agrees
    exact agrees
  dsimp only
  rw [sameRun]
  refine ⟨rfl, size_eq_basic _, toAscList_eq_basic _, toHashV0_eq_hashV0 scheme hashValue _,
    toHashV1_eq_hashV1 scheme hashValue _, ?_⟩
  intro tree rest heightsFit
  rw [loadT_storeUpdateT valueRoundTrip tree heightsFit rest, storeUpdateT_snd keepsValue]

/-- Bytes as values, each stored as itself, with hashes that are the bytes they hash. -/
def byteScheme : HashScheme (List UInt8) :=
  ⟨id, fun left right => left ++ right, id⟩

theorem persistent_refines_basic_on_bytes :
    loadT getWord8 ((storeUpdateT (fun value : UInt8 => (putWord8 value, value))
        (.node 0 (.leaf 7) (.leaf 9))).1) = some (.node 0 (.leaf 7) (.leaf 9), []) := by
  have roundTrip := (persistent_refines_basic byteScheme (fun value => [value])
    (fun value => (putWord8 value, value)) getWord8
    (fun value rest => getWord8_putWord8 value rest) (fun _ => rfl)
    ([] : List (Operation UInt8 Unit))).2.2.2.2.2 (.node 0 (.leaf 7) (.leaf 9)) []
    ⟨by decide, trivial, trivial⟩
  simpa using roundTrip

end Concordium.GlobalState.Persistent.LFMBTree
