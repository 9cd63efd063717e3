import Mathlib.Data.Finmap

/-!
Contract: the finite map a list of pairs lists, and how inserting and erasing a key change the
number of keys of a finite map.

Owns:
- `ofPairs`: the finite map of a list of pairs;
- `lookup_ofPairs_eq_some`: on a list whose keys are distinct, a lookup finds exactly the listed
  pairs;
- `card_keys_insert` and `card_keys_erase`: inserting a new key adds one key, erasing a present
  key removes one, and otherwise the number of keys stays (`erase_of_notMem`).

Does not own: any particular container the map abstracts.
-/

set_option autoImplicit false

namespace FiniteMap

variable {κ β : Type} [DecidableEq κ]

/-- The finite map of a list of pairs. -/
def ofPairs (pairs : List (κ × β)) : Finmap (fun _ : κ => β) :=
  (pairs.map fun pair => (⟨pair.1, pair.2⟩ : Σ _ : κ, β)).toFinmap

@[simp] theorem ofPairs_nil : ofPairs ([] : List (κ × β)) = ∅ :=
  Finmap.toFinmap_nil

theorem lookup_ofPairs_eq_some {pairs : List (κ × β)}
    (distinct : pairs.Pairwise fun first second => first.1 ≠ second.1) (key : κ) (value : β) :
    (ofPairs pairs).lookup key = some value ↔ (key, value) ∈ pairs := by
  have nodupKeys : (pairs.map fun pair => (⟨pair.1, pair.2⟩ : Σ _ : κ, β)).NodupKeys := by
    rw [List.nodupKeys_iff_pairwise, List.pairwise_map]
    exact distinct
  rw [ofPairs, Finmap.dlookup_list_toFinmap, ← Option.mem_def, List.mem_dlookup_iff nodupKeys,
    List.mem_map]
  constructor
  · rintro ⟨pair, listed, same⟩
    cases same
    exact listed
  · intro listed
    exact ⟨(key, value), listed, rfl⟩

theorem erase_of_notMem {m : Finmap (fun _ : κ => β)} {key : κ} (absent : key ∉ m) :
    m.erase key = m := by
  apply Finmap.ext_lookup
  intro query
  by_cases same : query = key
  · rw [same, Finmap.lookup_erase, Finmap.lookup_eq_none.mpr absent]
  · exact Finmap.lookup_erase_ne same

theorem keys_insert (m : Finmap (fun _ : κ => β)) (key : κ) (value : β) :
    (m.insert key value).keys = insert key m.keys := by
  ext other
  rw [Finmap.mem_keys, Finmap.mem_insert, Finset.mem_insert, Finmap.mem_keys]

theorem card_keys_insert (m : Finmap (fun _ : κ => β)) (key : κ) (value : β) :
    (m.insert key value).keys.card = if key ∈ m then m.keys.card else m.keys.card + 1 := by
  rw [keys_insert]
  split
  · next present => exact Finset.card_insert_of_mem (Finmap.mem_keys.mpr present)
  · next absent => exact Finset.card_insert_of_notMem (mt Finmap.mem_keys.mp absent)

theorem card_keys_erase (m : Finmap (fun _ : κ => β)) (key : κ) :
    (m.erase key).keys.card = if key ∈ m then m.keys.card - 1 else m.keys.card := by
  rw [Finmap.keys_erase]
  split
  · next present => exact Finset.card_erase_of_mem (Finmap.mem_keys.mpr present)
  · next absent => rw [Finset.erase_eq_of_notMem (mt Finmap.mem_keys.mp absent)]

end FiniteMap
