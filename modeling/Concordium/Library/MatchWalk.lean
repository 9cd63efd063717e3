import Mathlib
import Concordium.Library.Word

/-!
Contract: walking an ascending list of wanted keys along an ascending list of items, and adding
up, on words of `bits` bits, the weight of each item whose key is the next wanted key.

Owns:
- `matchWalk`, one step of the walk: an item whose key is the next wanted key adds its weight and
  takes that key off the list; any other item is passed over;
- `foldl_matchWalk_of_covered`: when every wanted key is the key of some item, the walk adds up
  exactly the items whose key is wanted, reduced to a word, and uses up the wanted keys
  (`foldl_matchWalk_of_covered_zero` when the walk starts from nothing added);
- `foldl_matchWalk_of_missing`: a wanted key that no item has stops the walk, so that no key
  after it is counted.

Does not own: where the keys and the weights come from.
-/

set_option autoImplicit false

namespace MatchWalk

variable {κ β : Type} [LinearOrder κ] (bits : Nat) (key : β → κ) (weight : β → Nat)

/-- One step of the walk, on the wanted keys left and the weight added so far. -/
def matchWalk : List κ × Nat → β → List κ × Nat
  | ([], total), _ => ([], total)
  | (wanted :: rest, total), item =>
      if wanted = key item then (rest, Word.add bits total (weight item))
      else (wanted :: rest, total)

/-- The weight of the items whose key is wanted. -/
def wantedWeight (items : List β) (wanted : List κ) : Nat :=
  ((items.filter fun item => key item ∈ wanted).map weight).sum

theorem foldl_matchWalk_nil (items : List β) (total : Nat) :
    items.foldl (matchWalk bits key weight) ([], total) = ([], total) := by
  induction items with
  | nil => rfl
  | cons item rest inductionHypothesis => exact inductionHypothesis

theorem wantedWeight_nil (items : List β) : wantedWeight key weight items [] = 0 := by
  have none : (items.filter fun item => key item ∈ ([] : List κ)) = [] :=
    List.filter_eq_nil_iff.mpr fun item _ => by simp
  rw [wantedWeight, none, List.map_nil, List.sum_nil]

/-- Past an item whose key is below every wanted key, the wanted items are those of the rest. -/
theorem wantedWeight_cons_of_lt {item : β} {rest : List β} {wanted : List κ}
    (below : ∀ k ∈ wanted, key item < k) :
    wantedWeight key weight (item :: rest) wanted = wantedWeight key weight rest wanted := by
  have absent : key item ∉ wanted := fun listed => lt_irrefl _ (below _ listed)
  simp [wantedWeight, absent]

/-- An item whose key is the least wanted key counts, and the rest is matched against the
other wanted keys. -/
theorem wantedWeight_cons_of_eq {item : β} {rest : List β} {ws : List κ}
    (restAbove : ∀ other ∈ rest, key item < key other) :
    wantedWeight key weight (item :: rest) (key item :: ws) =
      weight item + wantedWeight key weight rest ws := by
  have sameFilter : (rest.filter fun other => key other ∈ key item :: ws) =
      rest.filter fun other => key other ∈ ws := by
    apply List.filter_congr
    intro other listed
    have differ : key other ≠ key item := ne_of_gt (restAbove other listed)
    simp [differ]
  rw [wantedWeight, List.filter_cons_of_pos (by simp), sameFilter, List.map_cons, List.sum_cons]
  rfl

/-- When the items and the wanted keys ascend and every wanted key is some item's key, the walk
uses up the wanted keys and adds exactly the weight of the wanted items, on words. -/
theorem foldl_matchWalk_of_covered :
    ∀ (items : List β) (wanted : List κ) (total : Nat), total < 2 ^ bits →
      (items.map key).Pairwise (· < ·) → wanted.Pairwise (· < ·) →
      (∀ k ∈ wanted, k ∈ items.map key) →
      items.foldl (matchWalk bits key weight) (wanted, total) =
        ([], Word.add bits total (wantedWeight key weight items wanted))
  | [], [], total, isWord, _, _, _ => by
      rw [List.foldl_nil, wantedWeight_nil, Word.add_zero_of_lt isWord]
  | [], k :: _, _, _, _, _, covered => absurd (covered k List.mem_cons_self) List.not_mem_nil
  | item :: rest, [], total, isWord, _, _, _ => by
      rw [List.foldl_cons, matchWalk, foldl_matchWalk_nil, wantedWeight_nil,
        Word.add_zero_of_lt isWord]
  | item :: rest, w :: ws, total, isWord, itemsAscending, wantedAscending, covered => by
      rw [List.map_cons, List.pairwise_cons] at itemsAscending
      rw [List.pairwise_cons] at wantedAscending
      have restAbove : ∀ other ∈ rest, key item < key other :=
        fun other listed => itemsAscending.1 _ (List.mem_map_of_mem listed)
      rw [List.foldl_cons, matchWalk]
      by_cases same : w = key item
      · -- the item is the next wanted one: it counts, and the later keys lie in the rest
        rw [if_pos same]
        have restCovered : ∀ k ∈ ws, k ∈ rest.map key := by
          intro k listed
          have above : w < k := wantedAscending.1 k listed
          rcases List.mem_cons.mp (covered k (List.mem_cons_of_mem w listed)) with first | later
          · exact absurd (first ▸ same ▸ above) (lt_irrefl _)
          · exact later
        rw [foldl_matchWalk_of_covered rest ws _ (Word.add_lt _ _) itemsAscending.2
            wantedAscending.2 restCovered,
          same, wantedWeight_cons_of_eq key weight restAbove, Word.add_add]
      · -- the item is passed over: every wanted key lies above it, in the rest
        rw [if_neg same]
        have wInRest : w ∈ rest.map key := by
          rcases List.mem_cons.mp (covered w List.mem_cons_self) with first | later
          · exact absurd first same
          · exact later
        obtain ⟨next, nextListed, nextKey⟩ := List.mem_map.mp wInRest
        have itemBelow : key item < w := nextKey ▸ restAbove next nextListed
        have allAbove : ∀ k ∈ w :: ws, key item < k := by
          intro k listed
          rcases List.mem_cons.mp listed with first | later
          · exact first ▸ itemBelow
          · exact lt_trans itemBelow (wantedAscending.1 k later)
        have restCovered : ∀ k ∈ w :: ws, k ∈ rest.map key := by
          intro k listed
          rcases List.mem_cons.mp (covered k listed) with first | later
          · exact absurd first (ne_of_gt (allAbove k listed))
          · exact later
        rw [foldl_matchWalk_of_covered rest (w :: ws) _ isWord itemsAscending.2
            (List.pairwise_cons.mpr wantedAscending) restCovered,
          wantedWeight_cons_of_lt key weight allAbove]

/-- From nothing added, a covered walk adds up the wanted weight reduced to a word. -/
theorem foldl_matchWalk_of_covered_zero {items : List β} {wanted : List κ}
    (itemsAscending : (items.map key).Pairwise (· < ·)) (wantedAscending : wanted.Pairwise (· < ·))
    (covered : ∀ k ∈ wanted, k ∈ items.map key) :
    items.foldl (matchWalk bits key weight) (wanted, 0) =
      ([], wantedWeight key weight items wanted % 2 ^ bits) := by
  rw [foldl_matchWalk_of_covered bits key weight items wanted 0 (Nat.two_pow_pos bits)
    itemsAscending wantedAscending covered, Word.add, Nat.zero_add]

/-- A wanted key that no item has is never taken off the list, so nothing after it counts. -/
theorem foldl_matchWalk_of_missing {wanted : κ} (rest : List κ) :
    ∀ (items : List β) (total : Nat), wanted ∉ items.map key →
      items.foldl (matchWalk bits key weight) (wanted :: rest, total) = (wanted :: rest, total)
  | [], _, _ => rfl
  | item :: items, total, missing => by
      rw [List.map_cons, List.mem_cons, not_or] at missing
      rw [List.foldl_cons, matchWalk, if_neg missing.1]
      exact foldl_matchWalk_of_missing rest items total missing.2

end MatchWalk
