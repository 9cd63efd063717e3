import Concordium.Library.Serialize
import Concordium.Library.Machine
import Mathlib.Data.Nat.Log

/-!
Contract: the left-full Merkle binary tree of `Concordium.GlobalState.Basic.BlockState.LFMBTree`
is an append-only array.

Owns:
- `T`, `LFMBTree`, and `size`, `lookup`, `append`, `update`, `toAscList`, `fromList`
  as the source computes them, keys being natural numbers (the source's `Word64`-coercible
  keys; a tree of `2 ^ 64` leaves is not reachable);
- the V0 and V1 hashes, over a hash scheme that is a parameter (SHA-256 is outside the
  repository), and `hashAsLFMBTV0` / `hashAsLFMBTV1`, which hash a list of leaf hashes level by
  level;
- the representation invariant `Shaped`, its preservation by `append` and `update`, and the
  refinement of a list: every run of appends and updates from `empty` agrees, operation by
  operation, with the same run on the list of appended values.

Does not own: `lookupMaybe`, `delete`, `fromListChoosingFirst` and the `Ixed` instance.
-/

set_option autoImplicit false
set_option linter.dupNamespace false

namespace Concordium.GlobalState.Basic.BlockState.LFMBTree

/-- The inner type of a non-empty tree. -/
inductive T (α : Type) where
  | node (height : Nat) (left right : T α)
  | leaf (value : α)
deriving DecidableEq, Repr

/-- Left-full Merkle binary tree: empty, or its size and inner tree. -/
inductive LFMBTree (α : Type) where
  | empty
  | nonEmpty (size : Nat) (tree : T α)
deriving DecidableEq, Repr

variable {α β : Type}

/-- `setBits h = bit (h + 1) - 1`: the lowest `h + 1` bits set. At `h = -1` this is `0`. -/
def setBits (h : Int) : Nat :=
  2 ^ (h + 1).toNat - 1

def size : LFMBTree α → Nat
  | .empty => 0
  | .nonEmpty size _ => size

def empty : LFMBTree α := .empty

def lookupT (key : Nat) : T α → Option α
  | .leaf value => some value
  | .node height left right =>
      -- the bit at the node's height chooses the branch
      if key.testBit height then lookupT key right else lookupT key left

def lookup (key : Nat) : LFMBTree α → Option α
  | .empty => none
  | .nonEmpty size tree => if key ≥ size then none else lookupT key tree

/-- `appendT`: insert at relative key `key`. A full node gets a new root; otherwise the key
is cropped to the right subtree by masking off its top bit. -/
def appendT (key : Nat) (value : α) : T α → T α
  | originalNode@(.leaf _) => .node 0 originalNode (.leaf value)
  | originalNode@(.node height leftNode rightNode) =>
      let saturatedLevel := setBits height
      let modLevel := fun key => key &&& setBits ((height : Int) - 1)
      if key > saturatedLevel then .node (height + 1) originalNode (.leaf value)
      else .node height leftNode (appendT (modLevel key) value rightNode)

/-- Append a value, returning its key (the old size) and the new tree. -/
def append (value : α) : LFMBTree α → Nat × LFMBTree α
  | .empty => (0, .nonEmpty 1 (.leaf value))
  | .nonEmpty size tree => (size, .nonEmpty (size + 1) (appendT size value tree))

def updateT (key : Nat) (change : α → β × α) : T α → β × T α
  | .leaf value =>
      let (result, newValue) := change value
      (result, .leaf newValue)
  | .node height left right =>
      if key.testBit height then
        let (result, right') := updateT key change right
        (result, .node height left right')
      else
        let (result, left') := updateT key change left
        (result, .node height left' right)

/-- Update the value at a key, or `none` if the key is not present. -/
def update (change : α → β × α) (key : Nat) : LFMBTree α → Option (β × LFMBTree α)
  | .empty => none
  | .nonEmpty size tree =>
      if key ≥ size then none
      else
        let (result, tree') := updateT key change tree
        some (result, .nonEmpty size tree')

def toListT : T α → List α
  | .leaf value => [value]
  | .node _ left right => toListT left ++ toListT right

def toAscList : LFMBTree α → List α
  | .empty => []
  | .nonEmpty _ tree => toListT tree

/-- `fromFoldable`: append the values in order, starting from the empty tree. -/
def fromList (values : List α) : LFMBTree α :=
  values.foldl (fun accumulated value => (append value accumulated).2) empty

/-! ## Bit positions

A node of height `h` splits the positions below `2 ^ (h + 1)` by bit `h`: the lower half goes
left and the upper half goes right, each keeping the low `h` bits as its position. -/

theorem mod_two_pow_succ (key height : Nat) :
    key % 2 ^ (height + 1) =
      if key.testBit height then 2 ^ height + key % 2 ^ height else key % 2 ^ height := by
  rw [Nat.mod_pow_succ, Nat.testBit_eq_decide_div_mod_eq]
  rcases Nat.mod_two_eq_zero_or_one (key / 2 ^ height) with zero | one
  · simp [zero]
  · simp [one, Nat.add_comm]

/-- Reducing modulo a smaller power of two changes nothing once the value is below it. -/
theorem mod_two_pow_eq_of_lt {key bound height : Nat} (le : height ≤ bound)
    (lt : key % 2 ^ bound < 2 ^ height) : key % 2 ^ bound = key % 2 ^ height := by
  rw [← Nat.mod_mod_of_dvd key (Nat.pow_dvd_pow 2 le), Nat.mod_eq_of_lt lt]

theorem getElem?_append_mod_two_pow_succ {front back : List α} {height : Nat}
    (frontLength : front.length = 2 ^ height) (key : Nat) :
    (front ++ back)[key % 2 ^ (height + 1)]? =
      if key.testBit height then back[key % 2 ^ height]? else front[key % 2 ^ height]? := by
  rw [mod_two_pow_succ]
  split
  · rw [List.getElem?_append_right (by omega), frontLength, Nat.add_sub_cancel_left]
  · apply List.getElem?_append_left
    rw [frontLength]
    exact Nat.mod_lt _ (Nat.two_pow_pos _)

theorem set_append_mod_two_pow_succ {front back : List α} {height : Nat}
    (frontLength : front.length = 2 ^ height) (key : Nat) (value : α) :
    (front ++ back).set (key % 2 ^ (height + 1)) value =
      if key.testBit height then front ++ back.set (key % 2 ^ height) value
      else front.set (key % 2 ^ height) value ++ back := by
  rw [mod_two_pow_succ, List.set_append]
  split
  · rw [if_neg (by omega), frontLength, Nat.add_sub_cancel_left]
  · have inFront : key % 2 ^ height < front.length := by
      rw [frontLength]
      exact Nat.mod_lt _ (Nat.two_pow_pos _)
    rw [if_pos inFront]

@[simp] theorem setBits_natCast (height : Nat) : setBits height = 2 ^ (height + 1) - 1 := by
  simp [setBits]

/-- `modLevel` at a node of height `h` keeps the low `h` bits. -/
theorem and_setBits_pred (key height : Nat) :
    key &&& setBits ((height : Int) - 1) = key % 2 ^ height := by
  rw [setBits, sub_add_cancel, Int.toNat_natCast, Nat.and_two_pow_sub_one_eq_mod]

/-! ## The representation invariant -/

/-- A perfect tree of level `h`: `2 ^ h` leaves, both children of a node one level lower. -/
inductive Perfect : Nat → T α → Prop
  | leaf (value : α) : Perfect 0 (.leaf value)
  | node {height : Nat} {left right : T α} :
      Perfect height left → Perfect height right → Perfect (height + 1) (.node height left right)

/-- `Shaped tree count`: the shape that appending builds, with `count` leaves. A node of
height `h` has a perfect left subtree of `2 ^ h` leaves and a shaped right subtree of at most
`2 ^ h` leaves; that is at least one leaf (`Shaped.pos`), and its root is a leaf or a node
lower than `h` (`Shaped.height_lt`). -/
inductive Shaped : T α → Nat → Prop
  | leaf (value : α) : Shaped (.leaf value) 1
  | node {height count : Nat} {left right : T α} :
      Perfect height left → Shaped right count → count ≤ 2 ^ height →
      Shaped (.node height left right) (2 ^ height + count)

/-- The invariant of a tree: its inner tree is shaped with exactly `size` leaves. -/
def WellFormed : LFMBTree α → Prop
  | .empty => True
  | .nonEmpty size tree => Shaped tree size

theorem Perfect.length {height : Nat} {tree : T α} (perfect : Perfect height tree) :
    (toListT tree).length = 2 ^ height := by
  induction perfect with
  | leaf value => rfl
  | node _ _ leftLength rightLength =>
      rw [toListT, List.length_append, leftLength, rightLength, Nat.pow_succ, Nat.mul_two]

theorem Perfect.shaped {height : Nat} {tree : T α} (perfect : Perfect height tree) :
    Shaped tree (2 ^ height) := by
  induction perfect with
  | leaf value => exact .leaf value
  | @node height left right leftPerfect _ _ rightShaped =>
      have full := Shaped.node leftPerfect rightShaped le_rfl
      rwa [← Nat.two_mul, ← Nat.pow_succ'] at full

theorem Shaped.pos {tree : T α} {count : Nat} (shaped : Shaped tree count) : 0 < count := by
  cases shaped with
  | leaf => exact Nat.one_pos
  | @node height _ _ _ _ _ _ => have := Nat.two_pow_pos height; omega

theorem Shaped.length {tree : T α} {count : Nat} (shaped : Shaped tree count) :
    (toListT tree).length = count := by
  induction shaped with
  | leaf value => rfl
  | node leftPerfect _ _ rightLength =>
      rw [toListT, List.length_append, leftPerfect.length, rightLength]

/-- A shaped node with at most `2 ^ bound` leaves is lower than `bound`. -/
theorem Shaped.height_lt {height count bound : Nat} {left right : T α}
    (shaped : Shaped (.node height left right) count) (fits : count ≤ 2 ^ bound) :
    height < bound := by
  cases shaped with
  | node _ rightShaped _ =>
      have below : 2 ^ height < 2 ^ bound := by
        have := rightShaped.pos
        omega
      exact (Nat.pow_lt_pow_iff_right (by decide : 1 < 2)).mp below

/-- A shaped tree whose leaves fill a power of two is perfect. -/
theorem Shaped.perfect {tree : T α} {height : Nat} (shaped : Shaped tree (2 ^ height)) :
    Perfect height tree := by
  generalize fullCount : 2 ^ height = count at shaped
  induction shaped generalizing height with
  | leaf value =>
      have flat : height = 0 := by simpa using fullCount
      exact flat ▸ .leaf value
  | @node nodeHeight count left right leftPerfect rightShaped bound rightIH =>
      -- `2 ^ nodeHeight < 2 ^ height ≤ 2 ^ (nodeHeight + 1)` fixes the level
      have lower : nodeHeight < height := by
        have := rightShaped.pos
        exact (Nat.pow_lt_pow_iff_right (by decide : 1 < 2)).mp (by omega)
      have upper : height ≤ nodeHeight + 1 := by
        apply (Nat.pow_le_pow_iff_right (by decide : 1 < 2)).mp
        rw [Nat.pow_succ]
        omega
      obtain rfl : height = nodeHeight + 1 := by omega
      have rightFull : 2 ^ nodeHeight = count := by
        rw [Nat.pow_succ] at fullCount
        omega
      exact .node leftPerfect (rightIH rightFull)

/-- The root's height is the highest set bit of `count - 1`. -/
theorem Shaped.height_eq_log {height count : Nat} {left right : T α}
    (shaped : Shaped (.node height left right) count) : Nat.log 2 (count - 1) = height := by
  cases shaped with
  | node _ rightShaped bound =>
      have positive := rightShaped.pos
      have powerPositive := Nat.two_pow_pos height
      rw [Nat.log_eq_iff (Or.inr ⟨by decide, by omega⟩), Nat.pow_succ]
      omega

/-! ## Appending -/

theorem toListT_appendT (key : Nat) (value : α) (tree : T α) :
    toListT (appendT key value tree) = toListT tree ++ [value] := by
  induction tree generalizing key with
  | leaf original => rfl
  | node height left right _ rightIH =>
      simp only [appendT]
      split
      · rfl
      · rw [toListT, toListT, rightIH, List.append_assoc]

/-- Appending at the size of a shaped tree keeps it shaped, with one leaf more. -/
theorem appendT_shaped {tree : T α} {count : Nat} (shaped : Shaped tree count) (value : α) :
    Shaped (appendT count value tree) (count + 1) := by
  induction shaped with
  | leaf original => exact .node (.leaf original) (.leaf value) le_rfl
  | @node height count left right leftPerfect rightShaped bound rightIH =>
      simp only [appendT, setBits_natCast, and_setBits_pred]
      by_cases saturated : 2 ^ height + count > 2 ^ (height + 1) - 1
      · -- the tree is full: a new root over it and the new leaf
        rw [if_pos saturated]
        have full : count = 2 ^ height := by rw [Nat.pow_succ] at saturated; omega
        have perfect : Perfect (height + 1) (.node height left right) :=
          .node leftPerfect (full ▸ rightShaped).perfect
        have grown := Shaped.node perfect (.leaf value) Nat.one_le_two_pow
        have total : 2 ^ (height + 1) + 1 = 2 ^ height + count + 1 := by
          rw [Nat.pow_succ]
          omega
        rwa [total] at grown
      · -- room on the right: descend with the key cropped to the right subtree
        rw [if_neg saturated]
        have room : count < 2 ^ height := by
          have := Nat.one_le_two_pow (n := height)
          rw [Nat.pow_succ] at saturated
          omega
        rw [Nat.add_mod_left, Nat.mod_eq_of_lt room]
        exact .node leftPerfect rightIH room

/-! ## Lookup and update -/

/-- In a shaped node, a key positioned in range is positioned by the node's own bits. -/
theorem Shaped.node_position {height count bound key : Nat} {left right : T α}
    (shaped : Shaped (.node height left right) count) (fits : count ≤ 2 ^ bound)
    (inRange : key % 2 ^ bound < count) : key % 2 ^ bound = key % 2 ^ (height + 1) := by
  apply mod_two_pow_eq_of_lt (shaped.height_lt fits)
  cases shaped with
  | node _ _ rightBound =>
      rw [Nat.pow_succ]
      omega

/-- Navigating by the bits of `key` reaches the leaf at the key's position; in a tree of at
most `2 ^ bound` leaves that position is `key % 2 ^ bound`. -/
theorem lookupT_eq_getElem? {tree : T α} {count bound : Nat} (key : Nat)
    (shaped : Shaped tree count) (fits : count ≤ 2 ^ bound) (inRange : key % 2 ^ bound < count) :
    lookupT key tree = (toListT tree)[key % 2 ^ bound]? := by
  induction tree generalizing count bound with
  | leaf value =>
      cases shaped
      have first : key % 2 ^ bound = 0 := by omega
      rw [first]
      rfl
  | node height left right leftIH rightIH =>
      have position := shaped.node_position fits inRange
      rw [position] at inRange ⊢
      cases shaped with
      | node leftPerfect rightShaped rightBound =>
          rw [toListT, getElem?_append_mod_two_pow_succ leftPerfect.length, lookupT]
          by_cases bit : key.testBit height
          · rw [mod_two_pow_succ, if_pos bit] at inRange
            simp only [if_pos bit]
            exact rightIH rightShaped rightBound (by omega)
          · simp only [if_neg bit]
            exact leftIH leftPerfect.shaped le_rfl (Nat.mod_lt _ (Nat.two_pow_pos _))

theorem updateT_leaf (key : Nat) (change : α → β × α) (value : α) :
    updateT key change (.leaf value) = ((change value).1, .leaf (change value).2) := rfl

theorem updateT_node (key : Nat) (change : α → β × α) (height : Nat) (left right : T α) :
    updateT key change (.node height left right) =
      if key.testBit height then
        ((updateT key change right).1, .node height left (updateT key change right).2)
      else ((updateT key change left).1, .node height (updateT key change left).2 right) := by
  rw [updateT]

/-- The result of an update is the change applied to the value that lookup finds. -/
theorem updateT_fst {tree : T α} {key : Nat} {value : α} (found : lookupT key tree = some value)
    (change : α → β × α) : (updateT key change tree).1 = (change value).1 := by
  induction tree with
  | leaf stored =>
      rw [lookupT, Option.some.injEq] at found
      rw [updateT_leaf, found]
  | node height left right leftIH rightIH =>
      rw [lookupT] at found
      rw [updateT_node]
      by_cases bit : key.testBit height
      · simp only [if_pos bit] at found ⊢
        exact rightIH found
      · simp only [if_neg bit] at found ⊢
        exact leftIH found

theorem perfect_updateT {height : Nat} {tree : T α} (perfect : Perfect height tree)
    (key : Nat) (change : α → β × α) : Perfect height (updateT key change tree).2 := by
  induction perfect with
  | leaf value => exact .leaf _
  | node leftPerfect rightPerfect leftIH rightIH =>
      rw [updateT_node]
      split
      · exact .node leftPerfect rightIH
      · exact .node leftIH rightPerfect

/-- An update changes leaves only, so it keeps the shape. -/
theorem shaped_updateT {tree : T α} {count : Nat} (shaped : Shaped tree count)
    (key : Nat) (change : α → β × α) : Shaped (updateT key change tree).2 count := by
  induction shaped with
  | leaf value => exact .leaf _
  | node leftPerfect rightShaped bound rightIH =>
      rw [updateT_node]
      split
      · exact .node leftPerfect rightIH bound
      · exact .node (perfect_updateT leftPerfect key change) rightShaped bound

/-- An update changes exactly the leaf at the key's position. -/
theorem toListT_updateT {tree : T α} {count bound : Nat} (key : Nat) (change : α → β × α)
    (shaped : Shaped tree count) (fits : count ≤ 2 ^ bound) (inRange : key % 2 ^ bound < count)
    {value : α} (found : lookupT key tree = some value) :
    toListT (updateT key change tree).2 =
      (toListT tree).set (key % 2 ^ bound) (change value).2 := by
  induction tree generalizing count bound with
  | leaf stored =>
      cases shaped
      have first : key % 2 ^ bound = 0 := by omega
      rw [lookupT, Option.some.injEq] at found
      rw [first, updateT_leaf, found]
      rfl
  | node height left right leftIH rightIH =>
      have position := shaped.node_position fits inRange
      rw [position] at inRange ⊢
      cases shaped with
      | node leftPerfect rightShaped rightBound =>
          rw [lookupT] at found
          rw [toListT, set_append_mod_two_pow_succ leftPerfect.length, updateT_node]
          by_cases bit : key.testBit height
          · rw [mod_two_pow_succ, if_pos bit] at inRange
            simp only [if_pos bit] at found ⊢
            rw [toListT, rightIH rightShaped rightBound (by omega) found]
          · simp only [if_neg bit] at found ⊢
            rw [toListT,
              leftIH leftPerfect.shaped le_rfl (Nat.mod_lt _ (Nat.two_pow_pos _)) found]

/-! ## The whole tree -/

theorem WellFormed.size_eq_length {tree : LFMBTree α} (wellFormed : WellFormed tree) :
    size tree = (toAscList tree).length := by
  cases tree with
  | empty => rfl
  | nonEmpty count inner => exact (Shaped.length wellFormed).symm

theorem append_fst (value : α) (tree : LFMBTree α) : (append value tree).1 = size tree := by
  cases tree <;> rfl

theorem toAscList_append (value : α) (tree : LFMBTree α) :
    toAscList (append value tree).2 = toAscList tree ++ [value] := by
  cases tree with
  | empty => rfl
  | nonEmpty count inner => exact toListT_appendT count value inner

theorem wellFormed_append {tree : LFMBTree α} (wellFormed : WellFormed tree) (value : α) :
    WellFormed (append value tree).2 := by
  cases tree with
  | empty => exact Shaped.leaf value
  | nonEmpty count inner => exact appendT_shaped wellFormed value

/-- Below the size, the key is its own position. -/
theorem key_mod_two_pow_size {key count : Nat} (inRange : key < count) :
    key % 2 ^ count = key :=
  Nat.mod_eq_of_lt (Nat.lt_trans inRange Nat.lt_two_pow_self)

theorem lookup_eq_getElem? {tree : LFMBTree α} (wellFormed : WellFormed tree) (key : Nat) :
    lookup key tree = (toAscList tree)[key]? := by
  cases tree with
  | empty => rfl
  | nonEmpty count inner =>
      have shaped : Shaped inner count := wellFormed
      rw [lookup, toAscList]
      by_cases outside : key ≥ count
      · rw [if_pos outside, List.getElem?_eq_none (by rw [shaped.length]; exact outside)]
      · have inRange : key < count := Nat.lt_of_not_le outside
        rw [if_neg outside, lookupT_eq_getElem? key shaped Nat.lt_two_pow_self.le
          (by rwa [key_mod_two_pow_size inRange]), key_mod_two_pow_size inRange]

theorem update_of_lt (change : α → β × α) {key count : Nat} (inner : T α)
    (inRange : key < count) :
    update change key (.nonEmpty count inner) =
      some ((updateT key change inner).1, .nonEmpty count (updateT key change inner).2) := by
  rw [update, if_neg (Nat.not_le_of_lt inRange)]

theorem wellFormed_update {tree updated : LFMBTree α} {change : α → β × α} {key : Nat}
    {result : β} (wellFormed : WellFormed tree)
    (returned : update change key tree = some (result, updated)) : WellFormed updated := by
  cases tree with
  | empty => cases returned
  | nonEmpty count inner =>
      by_cases outside : key ≥ count
      · rw [update, if_pos outside] at returned
        cases returned
      · rw [update_of_lt change inner (Nat.lt_of_not_le outside), Option.some.injEq,
          Prod.mk.injEq] at returned
        rw [← returned.2]
        exact shaped_updateT wellFormed key change

/-! ## The array the tree implements -/

/-- An operation on a tree, with the arguments `append`, `update` and `lookup` take. -/
inductive Operation (α β : Type) where
  | append (value : α)
  | update (change : α → β × α) (key : Nat)
  | lookup (key : Nat)

/-- What an operation returns: the key assigned, the update's result (`none` for a key that
is not present), the value found. -/
inductive Response (α β : Type) where
  | appended (key : Nat)
  | updated (result : Option β)
  | lookedUp (value : Option α)
deriving DecidableEq, Repr

/-- An update's response, and the state it leaves: unchanged when the key is absent. -/
def answerUpdate {State : Type} (unchanged : State) : Option (β × State) → Response α β × State
  | none => (.updated none, unchanged)
  | some (result, updated) => (.updated (some result), updated)

theorem answerUpdate_map {State Abstract : Type} (abstraction : State → Abstract)
    (unchanged : State) (returned : Option (β × State)) :
    Prod.map id abstraction (answerUpdate (α := α) unchanged returned) =
      answerUpdate (abstraction unchanged) (returned.map (Prod.map id abstraction)) := by
  cases returned <;> rfl

def applyTree : Operation α β → LFMBTree α → Response α β × LFMBTree α
  | .append value, tree => (.appended (append value tree).1, (append value tree).2)
  | .update change key, tree => answerUpdate tree (update change key tree)
  | .lookup key, tree => (.lookedUp (lookup key tree), tree)

/-- The update the tree implements, on a list: `none` past the end. -/
def listUpdate (change : α → β × α) (key : Nat) (values : List α) : Option (β × List α) :=
  match values[key]? with
  | none => none
  | some value => some ((change value).1, values.set key (change value).2)

/-- The array: a list, appended at its end and updated in place. -/
def applyList : Operation α β → List α → Response α β × List α
  | .append value, values => (.appended values.length, values ++ [value])
  | .update change key, values => answerUpdate values (listUpdate change key values)
  | .lookup key, values => (.lookedUp values[key]?, values)

theorem update_map_toAscList {tree : LFMBTree α} (wellFormed : WellFormed tree)
    (change : α → β × α) (key : Nat) :
    (update change key tree).map (Prod.map id toAscList) =
      listUpdate change key (toAscList tree) := by
  cases tree with
  | empty => rfl
  | nonEmpty count inner =>
      have shaped : Shaped inner count := wellFormed
      by_cases outside : key ≥ count
      · have absent : (toListT inner)[key]? = none :=
          List.getElem?_eq_none (by rw [shaped.length]; exact outside)
        rw [update, if_pos outside, toAscList, listUpdate, absent]
        rfl
      · have inRange : key < count := Nat.lt_of_not_le outside
        have found := lookupT_eq_getElem? key shaped Nat.lt_two_pow_self.le
          (by rwa [key_mod_two_pow_size inRange])
        rw [key_mod_two_pow_size inRange] at found
        have inList : key < (toListT inner).length := by rw [shaped.length]; exact inRange
        have present : (toListT inner)[key]? = some (toListT inner)[key] :=
          List.getElem?_eq_getElem inList
        rw [present] at found
        show _ = listUpdate change key (toListT inner)
        rw [update_of_lt change inner inRange, listUpdate, present]
        simp only [Option.map_some, Prod.map, id, toAscList]
        rw [updateT_fst found,
          toListT_updateT key change shaped Nat.lt_two_pow_self.le
            (by rwa [key_mod_two_pow_size inRange]) found,
          key_mod_two_pow_size inRange]

/-- The tree simulates the list through `toAscList`, on well-formed trees. -/
theorem applyTree_simulates :
    Machine.Simulates (applyTree (α := α) (β := β)) applyList toAscList WellFormed where
  preserves := by
    intro operation tree wellFormed
    cases operation with
    | append value => exact wellFormed_append wellFormed value
    | update change key =>
        rw [applyTree]
        cases returned : update change key tree with
        | none => exact wellFormed
        | some pair => exact wellFormed_update wellFormed returned
    | lookup key => exact wellFormed
  agrees := by
    intro operation tree wellFormed
    cases operation with
    | append value =>
        rw [applyTree, applyList, Prod.map, append_fst, toAscList_append,
          wellFormed.size_eq_length]
        rfl
    | update change key =>
        rw [applyTree, applyList, answerUpdate_map, update_map_toAscList wellFormed]
    | lookup key =>
        rw [applyTree, applyList, lookup_eq_getElem? wellFormed]
        rfl

theorem lfmbtree_run_refines_list (operations : List (Operation α β)) :
    let tree := (Machine.run applyTree operations empty).2
    let values := (Machine.run applyList operations []).2
    (Machine.run applyTree operations empty).1 = (Machine.run applyList operations []).1 ∧
      size tree = values.length ∧ toAscList tree = values ∧
      (∀ key, lookup key tree = values[key]?) ∧ WellFormed tree ∧
      ∀ count height left right, tree = .nonEmpty count (.node height left right) →
        Nat.log 2 (count - 1) = height := by
  intro tree values
  obtain ⟨agrees, wellFormed⟩ := applyTree_simulates.run operations empty trivial
  rw [Prod.map, Prod.mk.injEq] at agrees
  have listed : toAscList tree = values := agrees.2
  have shaped : WellFormed tree := wellFormed
  refine ⟨agrees.1, ?_, listed, ?_, shaped, ?_⟩
  · rw [shaped.size_eq_length, listed]
  · intro key
    rw [lookup_eq_getElem? shaped, listed]
  · intro count height left right root
    rw [root] at shaped
    exact Shaped.height_eq_log shaped

/-! ## Hashes -/

/-- The hashing the tree uses: hashing a byte string (`H.hash`, `H.hashLazy`), combining two
hashes (`H.hashOfHashes`), and a hash's serialization. -/
structure HashScheme (H : Type) where
  hashBytes : List UInt8 → H
  hashOfHashes : H → H → H
  hashToBytes : H → List UInt8

section Hash

variable {H : Type} (scheme : HashScheme H) (hashValue : α → H)

def getHashT : T α → H
  | .leaf value => hashValue value
  | .node _ left right => scheme.hashOfHashes (getHashT left) (getHashT right)

/-- The hash of the string `"EmptyLFMBTree"`. -/
def emptyTreeHashV0 : H :=
  scheme.hashBytes "EmptyLFMBTree".toUTF8.toList

def hashV0 : LFMBTree α → H
  | .empty => emptyTreeHashV0 scheme
  | .nonEmpty _ tree => getHashT scheme hashValue tree

/-- The size as a big-endian `Word64`, followed by the V0 hash, hashed. -/
def hashV1 (tree : LFMBTree α) : H :=
  scheme.hashBytes (Serialize.putWord64be (size tree) ++ scheme.hashToBytes (hashV0 scheme hashValue tree))

/-- `f` of `hashAsLFMBTV0`: one level up, neighbours hashed in pairs and a last odd hash kept. -/
def hashPairs : List H → List H
  | first :: second :: rest => scheme.hashOfHashes first second :: hashPairs rest
  | other => other

theorem length_hashPairs_le : ∀ hashes : List H, (hashPairs scheme hashes).length ≤ hashes.length
  | first :: second :: rest => by
      have shorter := length_hashPairs_le rest
      simp only [hashPairs, List.length_cons]
      omega
  | [] => Nat.le_refl 0
  | [_] => Nat.le_refl 1

/-- `hashAsLFMBTV0`: the V0 hash of the tree whose leaves have the given hashes, found level by
level without building the tree; `empty` when there are no leaves. -/
def hashAsLFMBTV0 (empty : H) : List H → H
  | [] => empty
  | [single] => single
  | first :: second :: rest => hashAsLFMBTV0 empty (hashPairs scheme (first :: second :: rest))
termination_by hashes => hashes.length
decreasing_by
  have shorter := length_hashPairs_le scheme rest
  simp only [hashPairs, List.length_cons]
  omega

/-- `hashAsLFMBTV1`: the number of leaves as a big-endian `Word64`, followed by the V0 hash,
hashed. -/
def hashAsLFMBTV1 (empty : H) (hashes : List H) : H :=
  scheme.hashBytes (Serialize.putWord64be hashes.length ++
    scheme.hashToBytes (hashAsLFMBTV0 scheme empty hashes))

end Hash

end Concordium.GlobalState.Basic.BlockState.LFMBTree
