import Concordium.GlobalState.Basic.BlockState.LFMBTree

/-!
Contract: hashing a list of leaf hashes level by level (`hashAsLFMBTV0`, `hashAsLFMBTV1`) gives
the hash of the tree that appending the values builds, so that `lfmbtV0Hash'` and
`lfmbtV1Hash'` compute the Merkle root of `fromList` without building it.

Owns:
- `T.map` and `pairUp`, one level of a tree of hashes collapsed: each bottom node of two leaves
  becomes the leaf of their combined hash;
- `Shaped.pairUp`: on a shaped tree, `pairUp` keeps the root hash, lists the leaf hashes paired
  as `hashPairs` pairs them, and leaves a shaped tree of half the leaves rounded up;
- `getHashT_eq_hashAsLFMBTV0`, by induction on the number of leaves; and
  `lfmbtHash_eq_hash_fromList` for the two hash versions.

Does not own: the hash scheme, which is a parameter.
-/

set_option autoImplicit false

namespace Concordium.GlobalState.Basic.BlockState.LFMBTree

variable {α H : Type}

/-! ## Trees of hashes -/

def T.map (change : α → H) : T α → T H
  | .leaf value => .leaf (change value)
  | .node height left right => .node height (left.map change) (right.map change)

theorem toListT_map (change : α → H) (tree : T α) :
    toListT (tree.map change) = (toListT tree).map change := by
  induction tree with
  | leaf value => rfl
  | node height left right leftIH rightIH =>
      rw [T.map, toListT, toListT, leftIH, rightIH, List.map_append]

theorem Perfect.map (change : α → H) {height : Nat} {tree : T α} (perfect : Perfect height tree) :
    Perfect height (tree.map change) := by
  induction perfect with
  | leaf value => exact .leaf (change value)
  | node _ _ leftIH rightIH => exact .node leftIH rightIH

theorem Shaped.map (change : α → H) {tree : T α} {count : Nat} (shaped : Shaped tree count) :
    Shaped (tree.map change) count := by
  induction shaped with
  | leaf value => exact .leaf (change value)
  | node leftPerfect _ bound rightIH => exact .node (leftPerfect.map change) rightIH bound

variable (scheme : HashScheme H)

theorem getHashT_map (hashValue : α → H) (tree : T α) :
    getHashT scheme hashValue tree = getHashT scheme id (tree.map hashValue) := by
  induction tree with
  | leaf value => rfl
  | node height left right leftIH rightIH =>
      rw [getHashT, T.map, getHashT, leftIH, rightIH]

/-- One level of a tree of hashes collapsed: a bottom node of two leaves becomes the leaf of
their combined hash, and every other node keeps its place one level lower. -/
def pairUp : T H → T H
  | .leaf hash => .leaf hash
  | .node 0 (.leaf first) (.leaf second) => .leaf (scheme.hashOfHashes first second)
  | .node (height + 1) left right => .node height (pairUp left) (pairUp right)
  -- a node of height `0` always has two leaves in a shaped tree
  | tree@(.node 0 _ _) => tree

/-- Pairing a list of even length pairs its halves apart. -/
theorem hashPairs_append : ∀ (first second : List H), first.length % 2 = 0 →
    hashPairs scheme (first ++ second) = hashPairs scheme first ++ hashPairs scheme second
  | [], second, _ => rfl
  | [_], _, odd => by simp at odd
  | one :: two :: rest, second, even => by
      have restEven : rest.length % 2 = 0 := by
        simp only [List.length_cons] at even
        omega
      rw [List.cons_append, List.cons_append, hashPairs, hashPairs_append rest second restEven,
        hashPairs, List.cons_append]

/-- A tree of one leaf is that leaf. -/
theorem Shaped.eq_leaf {tree : T H} {count : Nat} (shaped : Shaped tree count) (single : count = 1) :
    ∃ hash, tree = .leaf hash := by
  cases shaped with
  | leaf hash => exact ⟨hash, rfl⟩
  | @node height count _ _ _ rightShaped _ =>
      have := rightShaped.pos
      have := Nat.two_pow_pos height
      omega

/-- On a perfect tree of at least two leaves, `pairUp` halves the leaves, pairs their hashes
and keeps the root hash. -/
theorem Perfect.pairUp : ∀ {height : Nat} {tree : T H}, Perfect (height + 1) tree →
    Perfect height (pairUp scheme tree) ∧
      toListT (pairUp scheme tree) = hashPairs scheme (toListT tree) ∧
      getHashT scheme id (pairUp scheme tree) = getHashT scheme id tree
  | 0, _, .node (.leaf first) (.leaf second) => ⟨.leaf _, rfl, rfl⟩
  | height + 1, .node height' left right, perfect => by
      cases perfect with
      | node leftPerfect rightPerfect =>
          obtain ⟨leftPaired, leftList, leftHash⟩ := Perfect.pairUp leftPerfect
          obtain ⟨rightPaired, rightList, rightHash⟩ := Perfect.pairUp rightPerfect
          have even : (toListT left).length % 2 = 0 := by
            rw [leftPerfect.length, Nat.pow_succ]
            omega
          refine ⟨.node leftPaired rightPaired, ?_, ?_⟩
          · rw [LFMBTree.pairUp, toListT, toListT, leftList, rightList,
              hashPairs_append scheme _ _ even]
          · rw [LFMBTree.pairUp, getHashT, getHashT, leftHash, rightHash]

/-- On a shaped tree, `pairUp` leaves a shaped tree of half the leaves rounded up, pairs their
hashes and keeps the root hash. -/
theorem Shaped.pairUp {tree : T H} {count : Nat} (shaped : Shaped tree count) :
    Shaped (pairUp scheme tree) ((count + 1) / 2) ∧
      toListT (pairUp scheme tree) = hashPairs scheme (toListT tree) ∧
      getHashT scheme id (pairUp scheme tree) = getHashT scheme id tree := by
  induction shaped with
  | leaf hash => exact ⟨.leaf hash, rfl, rfl⟩
  | @node height count left right leftPerfect rightShaped bound rightIH =>
      cases height with
      | zero =>
          -- a bottom node: two leaves
          cases leftPerfect with
          | leaf first =>
              have single : count = 1 := by
                have := rightShaped.pos
                simp only [Nat.pow_zero] at bound
                omega
              subst single
              obtain ⟨second, rfl⟩ := rightShaped.eq_leaf rfl
              exact ⟨.leaf _, rfl, rfl⟩
      | succ height =>
          obtain ⟨leftPaired, leftList, leftHash⟩ := leftPerfect.pairUp scheme
          obtain ⟨rightPaired, rightList, rightHash⟩ := rightIH
          have even : (toListT left).length % 2 = 0 := by
            rw [leftPerfect.length, Nat.pow_succ]
            omega
          have halfBound : (count + 1) / 2 ≤ 2 ^ height := by
            rw [Nat.pow_succ] at bound
            omega
          have halfCount : (2 ^ (height + 1) + count + 1) / 2 = 2 ^ height + (count + 1) / 2 := by
            rw [Nat.pow_succ]
            omega
          refine ⟨?_, ?_, ?_⟩
          · rw [halfCount]
            exact .node leftPaired rightPaired halfBound
          · rw [LFMBTree.pairUp, toListT, toListT, leftList, rightList,
              hashPairs_append scheme _ _ even]
          · rw [LFMBTree.pairUp, getHashT, getHashT, leftHash, rightHash]

/-- The root hash of a shaped tree of hashes is the level-by-level hash of its leaves. -/
theorem getHashT_eq_hashAsLFMBTV0 (empty : H) :
    ∀ (count : Nat) {tree : T H}, Shaped tree count →
      getHashT scheme id tree = hashAsLFMBTV0 scheme empty (toListT tree)
  | count, tree, shaped => by
      cases tree with
      | leaf hash => rw [toListT, hashAsLFMBTV0]; rfl
      | node height left right =>
          -- at least two leaves: one level of pairing, then the tree of half the leaves
          obtain ⟨paired, pairedList, pairedHash⟩ := shaped.pairUp scheme
          have twoLeaves : 2 ≤ count := by
            cases shaped with
            | node _ rightShaped _ =>
                have := rightShaped.pos
                have := Nat.two_pow_pos height
                omega
          have listed := shaped.length
          obtain ⟨first, second, rest, split⟩ : ∃ first second rest,
              toListT (T.node height left right) = first :: second :: rest := by
            rcases leaves : toListT (T.node height left right) with _ | ⟨_, _ | ⟨second, rest⟩⟩
            · rw [leaves] at listed
              simp at listed
              omega
            · rw [leaves] at listed
              simp at listed
              omega
            · exact ⟨_, second, rest, rfl⟩
          have fewer : (count + 1) / 2 < count := by omega
          rw [← pairedHash, getHashT_eq_hashAsLFMBTV0 empty ((count + 1) / 2) paired,
            pairedList, split, hashAsLFMBTV0]
termination_by count => count

/-! ## The tree of a list -/

/-- Appending values one by one keeps the tree well formed and lists them after its own. -/
theorem foldl_append (values : List α) : ∀ tree : LFMBTree α, WellFormed tree →
    WellFormed (values.foldl (fun accumulated value => (append value accumulated).2) tree) ∧
      toAscList (values.foldl (fun accumulated value => (append value accumulated).2) tree) =
        toAscList tree ++ values := by
  induction values with
  | nil => exact fun tree wellFormed => ⟨wellFormed, (List.append_nil _).symm⟩
  | cons value rest inductionHypothesis =>
      intro tree wellFormed
      obtain ⟨restWellFormed, restList⟩ :=
        inductionHypothesis (append value tree).2 (wellFormed_append wellFormed value)
      refine ⟨restWellFormed, ?_⟩
      rw [List.foldl_cons, restList, toAscList_append, List.append_assoc, List.singleton_append]

theorem fromList_spec (values : List α) :
    WellFormed (fromList values) ∧ toAscList (fromList values) = values :=
  foldl_append values empty trivial

/-- `lfmbtV0Hash'`: the V0 hash of the tree of the values, from their hashes level by level. -/
def lfmbtV0Hash' (hsh : α → H) (values : List α) : H :=
  hashAsLFMBTV0 scheme (emptyTreeHashV0 scheme) (values.map hsh)

/-- `lfmbtV1Hash'`: the V1 hash of the tree of the values, from their hashes level by level. -/
def lfmbtV1Hash' (hsh : α → H) (values : List α) : H :=
  hashAsLFMBTV1 scheme (emptyTreeHashV0 scheme) (values.map hsh)

theorem hashV0_fromList (hashValue : α → H) (values : List α) :
    hashV0 scheme hashValue (fromList values) =
      hashAsLFMBTV0 scheme (emptyTreeHashV0 scheme) (values.map hashValue) := by
  obtain ⟨wellFormed, listed⟩ := fromList_spec values
  cases built : fromList values with
  | empty =>
      rw [built] at listed
      rw [← listed, toAscList, List.map_nil, hashAsLFMBTV0]
      rfl
  | nonEmpty count tree =>
      rw [built] at wellFormed listed
      have shaped : Shaped tree count := wellFormed
      rw [hashV0, getHashT_map, getHashT_eq_hashAsLFMBTV0 scheme _ count (shaped.map hashValue),
        toListT_map]
      rw [← listed]
      rfl

/-- Hashing the values' hashes level by level gives the Merkle root of the tree that appending
the values builds, in both versions: `hashAsLFMBTV0` with the empty tree's hash is the V0 hash of
`fromList`, and `hashAsLFMBTV1`, which puts the number of leaves in front, is its V1 hash. -/
theorem lfmbtHash_eq_hash_fromList (hashValue : α → H) (values : List α) :
    lfmbtV0Hash' scheme hashValue values = hashV0 scheme hashValue (fromList values) ∧
      lfmbtV1Hash' scheme hashValue values = hashV1 scheme hashValue (fromList values) := by
  have sized : size (fromList values) = values.length := by
    rw [(fromList_spec values).1.size_eq_length, (fromList_spec values).2]
  refine ⟨(hashV0_fromList scheme hashValue values).symm, ?_⟩
  rw [lfmbtV1Hash', hashAsLFMBTV1, hashV1, hashV0_fromList, sized, List.length_map]

end Concordium.GlobalState.Basic.BlockState.LFMBTree
