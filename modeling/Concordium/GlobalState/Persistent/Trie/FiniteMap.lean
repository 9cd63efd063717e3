import Concordium.Library.FiniteMap
import Concordium.Library.Machine
import Concordium.Library.Serialize
import Concordium.GlobalState.Persistent.Trie.Alter

/-!
Contract: a `TrieN` that `insert`, `delete` and `adjust` build from `empty` is a finite map, for
keys that all unpack to the same positive number of bytes and that `packKey` recovers.

Owns:
- `FixedWidth`, what the keys satisfy, and `OrdFixedTrieKey`, a key order that is the order of the
  unpacked bytes; both hold of the `Word64` keys of `word64TrieKey`;
- `toMap`, the map a `TrieN` stands for, and `TrieN.Invariant`, what every `TrieN` the operations
  reach satisfies: a well-formed trie that holds only unpacked keys, and a size that counts them;
- the queries against that map: `lookup_toMap`, `mem_toList`, `toList_ascending`, `keys_eq`,
  `lookupPrefix_perm_toList` and `findMin_isLookupMin`;
- one spec lemma per operation (`insert_spec`, `delete_spec`, `adjust_spec`) and
  `applyTrie_simulates`: the operations on a `TrieN` simulate the same operations on the map;
- `trie_run_refines_finmap`: every run from `empty` answers and queries as the map does.

Does not own: a single alteration of a trie (`alterM_spec`).
-/

set_option autoImplicit false

namespace Concordium.GlobalState.Persistent.Trie

/-- Keys that all unpack to `width` bytes, at least one, from which `packKey` recovers the key. -/
structure FixedWidth (k : Type) [FixedTrieKey k] (width : Nat) : Prop where
  positive : 0 < width
  unpackLength : ∀ key : k, (unpackKey key).length = width
  packUnpack : ∀ key : k, packKey (unpackKey key) = key

/-- `OrdFixedTrieKey`: the order of the keys is the lexicographic order of their bytes. -/
def OrdFixedTrieKey (k : Type) [FixedTrieKey k] [LT k] : Prop :=
  ∀ first second : k, first < second ↔ List.Lex (· < ·) (unpackKey first) (unpackKey second)

/-- A trie as the operations leave it: well formed for keys of `width` bytes, and holding only
keys that are unpacked keys. -/
structure Stored {v : Type} (k : Type) [FixedTrieKey k] (width : Nat) (t : Trie v) : Prop where
  wellFormed : WellFormed width t
  unpacked : ∀ bytes value, lookupF.lu bytes t = some value → ∃ key : k, unpackKey key = bytes

variable {k v α : Type}

/-! ## The finite map the trie implements -/

/-- The operations on a `TrieN`, with the arguments of `insert`, `delete` and `adjust`. -/
inductive Operation (k v α : Type) where
  | insert (key : k) (value : v)
  | delete (key : k)
  | adjust (adj : Option v → α × Alteration v) (key : k)

section AbstractMap

variable [DecidableEq k]

/-- `alterM`'s alteration of the value at `key`, on the map. -/
def alterEntry (key : k) : Alteration v → Finmap (fun _ : k => v) → Finmap (fun _ : k => v)
  | .noChange, m => m
  | .remove, m => m.erase key
  | .insert value, m => m.insert key value

/-- How many keys an alteration adds, given the value it replaces. -/
def sizeChange : Option v → Alteration v → Int
  | none, .insert _ => 1
  | some _, .remove => -1
  | none, .noChange | none, .remove | some _, .noChange | some _, .insert _ => 0

theorem lookup_alterEntry (key query : k) (alteration : Alteration v)
    (m : Finmap (fun _ : k => v)) :
    (alterEntry key alteration m).lookup query =
      if query = key then alteration.apply (m.lookup key) else m.lookup query := by
  by_cases same : query = key
  · rw [if_pos same, same]
    cases alteration with
    | noChange => rfl
    | remove => exact Finmap.lookup_erase key m
    | insert value => exact Finmap.lookup_insert m
  · rw [if_neg same]
    cases alteration with
    | noChange => rfl
    | remove => exact Finmap.lookup_erase_ne same
    | insert value => exact Finmap.lookup_insert_of_ne m same

theorem card_alterEntry (key : k) (alteration : Alteration v) (m : Finmap (fun _ : k => v)) :
    ((alterEntry key alteration m).keys.card : Int) =
      m.keys.card + sizeChange (m.lookup key) alteration := by
  cases alteration with
  | noChange => cases m.lookup key <;> simp [alterEntry, sizeChange]
  | remove =>
      rw [alterEntry, FiniteMap.card_keys_erase]
      cases found : m.lookup key with
      | none =>
          rw [if_neg (Finmap.lookup_eq_none.mp found)]
          simp [sizeChange]
      | some value =>
          have present : key ∈ m := Finmap.mem_iff.mpr ⟨value, found⟩
          have positive : 0 < m.keys.card := Finset.card_pos.mpr ⟨key, Finmap.mem_keys.mpr present⟩
          rw [if_pos present, sizeChange]
          omega
  | insert value =>
      rw [alterEntry, FiniteMap.card_keys_insert]
      cases found : m.lookup key with
      | none =>
          rw [if_neg (Finmap.lookup_eq_none.mp found), sizeChange]
          push_cast
          rfl
      | some old =>
          rw [if_pos (Finmap.mem_iff.mpr ⟨old, found⟩), sizeChange]
          omega

/-- `Map.lookupMin`: nothing for the empty map, otherwise the least key and its value. -/
def IsLookupMin [LT k] (m : Finmap (fun _ : k => v)) : Option (k × v) → Prop
  | none => m = ∅
  | some (key, value) => m.lookup key = some value ∧ ∀ other ∈ m, other = key ∨ key < other

/-- The same operations on the map, which never fail. -/
def applyMap : Operation k v α → Finmap (fun _ : k => v) →
    Except String (Option α) × Finmap (fun _ : k => v)
  | .insert key value, m => (.ok none, m.insert key value)
  | .delete key, m => (.ok none, m.erase key)
  | .adjust adj key, m =>
      (.ok (some (adj (m.lookup key)).1), alterEntry key (adj (m.lookup key)).2 m)

theorem applyMap_ok (operation : Operation k v α) (m : Finmap (fun _ : k => v)) :
    ∃ answer, (applyMap operation m).1 = .ok answer := by
  cases operation <;> exact ⟨_, rfl⟩

end AbstractMap

variable [FixedTrieKey k] {width : Nat}

namespace FixedWidth

theorem unpackKey_inj (keyWidth : FixedWidth k width) {first second : k} :
    unpackKey first = unpackKey second ↔ first = second := by
  constructor
  · intro same
    rw [← keyWidth.packUnpack first, same, keyWidth.packUnpack]
  · intro same
    rw [same]

theorem unpackKey_ne_nil (keyWidth : FixedWidth k width) (key : k) : unpackKey key ≠ [] := by
  intro empty
  have length := keyWidth.unpackLength key
  rw [empty, List.length_nil] at length
  exact Nat.ne_of_lt keyWidth.positive length

theorem ite_unpackKey_eq [DecidableEq k] (keyWidth : FixedWidth k width) {β : Type}
    (query key : k) (same other : β) :
    (if unpackKey query = unpackKey key then same else other) =
      if query = key then same else other := by
  by_cases equal : query = key
  · rw [if_pos equal, if_pos (keyWidth.unpackKey_inj.mpr equal)]
  · rw [if_neg equal, if_neg (mt keyWidth.unpackKey_inj.mp equal)]

end FixedWidth

/-! ## The map a `TrieN` stands for -/

/-- The trie of a `TrieN`, if it has one, is `Stored`. -/
def StoredN (width : Nat) : TrieN k v → Prop
  | .emptyTrieN => True
  | .trieN _ t => Stored k width t

/-- The size a `TrieN` records; `storeUpdate` writes `0` for the empty one. -/
def storedSize : TrieN k v → Int
  | .emptyTrieN => 0
  | .trieN size _ => size

/-- The map a `TrieN` stands for: the one its `toList` lists. -/
def toMap [DecidableEq k] (trie : TrieN k v) : Finmap (fun _ : k => v) :=
  FiniteMap.ofPairs (toList trie)

/-- What every `TrieN` the operations reach satisfies. -/
structure TrieN.Invariant [DecidableEq k] (width : Nat) (trie : TrieN k v) : Prop where
  stored : StoredN width trie
  size : storedSize trie = (toMap trie).keys.card

theorem toList_trieN (s : Int) {t : Trie v} (wellFormed : WellFormed width t) :
    toList (.trieN s t : TrieN k v) = (entries [] t).map packEntry := by
  rw [toList, mapReduceF, mr_eq_flatMap _ wellFormed, List.map_eq_flatMap]
  rfl

theorem Stored.unpackKey_packKey (keyWidth : FixedWidth k width) {t : Trie v}
    (stored : Stored k width t) {entry : List UInt8 × v} (listed : entry ∈ entries [] t) :
    unpackKey (packKey entry.1 : k) = entry.1 := by
  obtain ⟨suffix, spelled, found⟩ := (stored.wellFormed.mem_entries [] entry).mp listed
  rw [List.nil_append] at spelled
  obtain ⟨key, unpacked⟩ := stored.unpacked suffix entry.2 found
  rw [spelled, ← unpacked, keyWidth.packUnpack]

theorem mem_toList (keyWidth : FixedWidth k width) {trie : TrieN k v}
    (storedN : StoredN width trie) (key : k) (value : v) :
    (key, value) ∈ toList trie ↔ lookup key trie = some value := by
  cases trie with
  | emptyTrieN => simp [toList, lookup]
  | trieN s t =>
      have stored : Stored k width t := storedN
      rw [toList_trieN s stored.wellFormed, List.mem_map, lookup, lookupF]
      constructor
      · rintro ⟨entry, listed, packed⟩
        obtain ⟨suffix, spelled, found⟩ := (stored.wellFormed.mem_entries [] entry).mp listed
        rw [packEntry, Prod.mk.injEq] at packed
        rw [← packed.1, ← packed.2, stored.unpackKey_packKey keyWidth listed, spelled,
          List.nil_append]
        exact found
      · intro found
        refine ⟨(unpackKey key, value),
          (stored.wellFormed.mem_entries [] _).mpr ⟨unpackKey key, rfl, found⟩, ?_⟩
        show (packKey (unpackKey key), value) = (key, value)
        rw [keyWidth.packUnpack]

theorem toList_ascending (keyWidth : FixedWidth k width) {trie : TrieN k v}
    (storedN : StoredN width trie) :
    (toList trie).Pairwise fun first second =>
      List.Lex (· < ·) (unpackKey first.1) (unpackKey second.1) := by
  cases trie with
  | emptyTrieN => exact List.Pairwise.nil
  | trieN s t =>
      have stored : Stored k width t := storedN
      rw [toList_trieN s stored.wellFormed, List.pairwise_map]
      refine List.Pairwise.imp_of_mem ?_ (stored.wellFormed.ascending [])
      intro first second firstListed secondListed below
      show List.Lex _ (unpackKey (packKey first.1 : k)) (unpackKey (packKey second.1 : k))
      rw [stored.unpackKey_packKey keyWidth firstListed,
        stored.unpackKey_packKey keyWidth secondListed]
      exact below

theorem keys_eq {trie : TrieN k v} (storedN : StoredN width trie) :
    keys trie = (toList trie).map Prod.fst := by
  cases trie with
  | emptyTrieN => rfl
  | trieN s t =>
      have stored : Stored k width t := storedN
      rw [keys, mapReduceF, mr_eq_flatMap _ stored.wellFormed, toList_trieN s stored.wellFormed,
        List.map_map, List.map_eq_flatMap]
      rfl

theorem lookupPrefix_perm_toList (keyWidth : FixedWidth k width) {trie : TrieN k v}
    (storedN : StoredN width trie) (bytes : List UInt8) :
    (lookupPrefix bytes trie).Perm
      ((toList trie).filter fun entry => bytes.isPrefixOf (unpackKey entry.1)) := by
  cases trie with
  | emptyTrieN => exact List.Perm.nil
  | trieN s t =>
      have stored : Stored k width t := storedN
      -- on the stored entries, unpacking a packed key gives back its bytes
      have unpacked : ((entries [] t).filter fun entry => ([] ++ bytes).isPrefixOf entry.1) =
          (entries [] t).filter
            ((fun entry : k × v => bytes.isPrefixOf (unpackKey entry.1)) ∘ packEntry) := by
        apply List.filter_congr
        intro entry listed
        show ([] ++ bytes).isPrefixOf entry.1 = bytes.isPrefixOf (unpackKey (packKey entry.1 : k))
        rw [stored.unpackKey_packKey keyWidth listed, List.nil_append]
      rw [lookupPrefix, lookupPrefixF, toList_trieN s stored.wellFormed, List.filter_map,
        ← unpacked]
      exact stored.wellFormed.lookupPrefix_perm [] bytes

section Map

variable [DecidableEq k]

@[simp] theorem toMap_emptyTrieN : toMap (.emptyTrieN : TrieN k v) = ∅ :=
  FiniteMap.ofPairs_nil

theorem toMap_empty : toMap (empty : TrieN k v) = ∅ :=
  toMap_emptyTrieN

theorem lookup_toMap (keyWidth : FixedWidth k width) {trie : TrieN k v}
    (storedN : StoredN width trie) (key : k) : (toMap trie).lookup key = lookup key trie := by
  have distinct : (toList trie).Pairwise fun first second => first.1 ≠ second.1 := by
    refine (toList_ascending keyWidth storedN).imp ?_
    intro first second below same
    rw [same] at below
    exact ListPrefix.lex_irrefl UInt8.lt_irrefl _ below
  apply Option.ext
  intro value
  rw [toMap, FiniteMap.lookup_ofPairs_eq_some distinct, mem_toList keyWidth storedN]

theorem toMap_eq_of_lookup (keyWidth : FixedWidth k width) {trie : TrieN k v}
    (storedN : StoredN width trie) {m : Finmap (fun _ : k => v)}
    (lookups : ∀ key, lookup key trie = m.lookup key) : toMap trie = m :=
  Finmap.ext_lookup fun key => (lookup_toMap keyWidth storedN key).trans (lookups key)

theorem emptyTrieN_invariant : TrieN.Invariant width (.emptyTrieN : TrieN k v) where
  stored := trivial
  size := by rw [toMap_emptyTrieN, Finmap.keys_empty, Finset.card_empty, Nat.cast_zero]; rfl

theorem findMin_isLookupMin [LT k] (keyWidth : FixedWidth k width) (ordered : OrdFixedTrieKey k)
    {trie : TrieN k v} (storedN : StoredN width trie) :
    ∃ found, findMin trie = .ok found ∧ IsLookupMin (toMap trie) found := by
  cases trie with
  | emptyTrieN => exact ⟨none, rfl, toMap_emptyTrieN⟩
  | trieN s t =>
      have stored : Stored k width t := storedN
      obtain ⟨least, first, found⟩ := stored.wellFormed.findMin_eq (k := k) []
      obtain ⟨rest, split⟩ := List.head?_eq_some_iff.mp first
      have listed : toList (.trieN s t : TrieN k v) = packEntry least :: rest.map packEntry := by
        rw [toList_trieN s stored.wellFormed, split, List.map_cons]
      refine ⟨some (packKey least.1, least.2), ?_, ?_⟩
      · rw [findMin, findMinF, found]
        rfl
      rw [IsLookupMin]
      constructor
      · rw [lookup_toMap keyWidth storedN, ← mem_toList keyWidth storedN, listed]
        exact List.mem_cons_self
      · intro other present
        obtain ⟨value, atOther⟩ := Finmap.mem_iff.mp present
        rw [lookup_toMap keyWidth storedN, ← mem_toList keyWidth storedN, listed] at atOther
        have ascending := toList_ascending keyWidth storedN
        rw [listed, List.pairwise_cons] at ascending
        rcases List.mem_cons.mp atOther with same | later
        · exact .inl (congrArg Prod.fst same)
        · exact .inr ((ordered _ _).mpr (ascending.1 _ later))

end Map

/-! ## The operations, against the map -/

/-- The `TrieN` that `insert`, `delete` and `adjust` make of `alterM`'s result. -/
def rebuild (size : Int) : Option (Trie v) → TrieN k v
  | some t => .trieN size t
  | none => .emptyTrieN

theorem lookup_rebuild (size : Int) (result : Option (Trie v)) (key : k) :
    lookup key (rebuild size result) = lookupIn result (unpackKey key) := by
  cases result <;> rfl

theorem insert_alt_snd (value : v) (old : Option v) : (insert.alt value old).2 = .insert value := by
  cases old <;> rfl

theorem delete_alt_snd (old : Option v) : (delete.alt old).2 = .remove := by
  cases old <;> rfl

theorem adjust_ur_eq (s : Int) (old : Option v) (change : α × Alteration v) :
    adjust.ur s old change = ((s + sizeChange old change.2, change.1), change.2) := by
  obtain ⟨answer, alteration⟩ := change
  cases old <;> cases alteration <;> simp [adjust.ur, sizeChange, Int.sub_eq_add_neg]

section Operations

variable [DecidableEq k]

/-- Whatever `alterM` leaves of a stored trie, with the size adjusted by the alteration, keeps the
invariant and stands for the altered map. -/
theorem rebuild_spec (keyWidth : FixedWidth k width) {s : Int} {t : Trie v}
    (invariant : TrieN.Invariant width (.trieN s t : TrieN k v)) {upd : Option v → α × Alteration v}
    {key : k} {outcome : Outcome α v} (alters : Alters upd width (unpackKey key) t outcome)
    (size : Int) (sized : size = s + sizeChange (lookupF.lu (unpackKey key) t)
      (upd (lookupF.lu (unpackKey key) t)).2) :
    TrieN.Invariant width (rebuild size (outcome.result t) : TrieN k v) ∧
      toMap (rebuild size (outcome.result t) : TrieN k v) =
        alterEntry key (upd (lookupF.lu (unpackKey key) t)).2 (toMap (.trieN s t)) := by
  obtain ⟨storedN, counted⟩ := invariant
  have stored : Stored k width t := storedN
  have storedAfter : StoredN width (rebuild size (outcome.result t) : TrieN k v) := by
    cases result : outcome.result t with
    | none => trivial
    | some t' =>
        show Stored k width t'
        refine ⟨alters.wellFormed t' result, ?_⟩
        intro bytes value found
        have altered := alters.lookups bytes
        rw [result] at altered
        by_cases same : bytes = unpackKey key
        · exact ⟨key, same.symm⟩
        · rw [if_neg same] at altered
          apply stored.unpacked bytes value
          rw [← altered]
          exact found
  have mapped := toMap_eq_of_lookup keyWidth storedAfter fun query => by
    rw [lookup_rebuild, alters.lookups, lookup_alterEntry, lookup_toMap keyWidth storedN,
      lookup_toMap keyWidth storedN, keyWidth.ite_unpackKey_eq]
    rfl
  refine ⟨⟨storedAfter, ?_⟩, mapped⟩
  cases result : outcome.result t with
  | none =>
      show (0 : Int) = ((toMap (.emptyTrieN : TrieN k v)).keys.card : Int)
      rw [toMap_emptyTrieN, Finmap.keys_empty, Finset.card_empty, Nat.cast_zero]
  | some t' =>
      show size = ((toMap (rebuild size (some t') : TrieN k v)).keys.card : Int)
      rw [← result, mapped, card_alterEntry, lookup_toMap keyWidth storedN, ← counted]
      exact sized

theorem singleton_spec (keyWidth : FixedWidth k width) (key : k) (value : v) :
    TrieN.Invariant width (singleton key value) ∧
      toMap (singleton key value) = alterEntry key (.insert value) (toMap .emptyTrieN) := by
  have stem : Trie.stem (unpackKey key) (.tip value) = stemOver (unpackKey key) (.tip value) := by
    cases unpacked : unpackKey key with
    | nil => exact absurd unpacked (keyWidth.unpackKey_ne_nil key)
    | cons byte rest => rfl
  have storedN : StoredN width (singleton key value) := by
    refine ⟨wellFormed_stem (keyWidth.unpackKey_ne_nil key) (.tip value)
      (by rw [keyWidth.unpackLength key, Nat.add_zero]), ?_⟩
    intro bytes found spelled
    rw [stem, lu_stemOver_tip] at spelled
    by_cases same : bytes = unpackKey key
    · exact ⟨key, same.symm⟩
    · rw [if_neg same] at spelled
      cases spelled
  have mapped : toMap (singleton key value) =
      alterEntry key (.insert value) (toMap .emptyTrieN) :=
    toMap_eq_of_lookup keyWidth storedN fun query => by
      rw [singleton, lookup, lookupF, stem, lu_stemOver_tip, keyWidth.ite_unpackKey_eq,
        lookup_alterEntry, toMap_emptyTrieN, Finmap.lookup_empty]
      rfl
  refine ⟨⟨storedN, ?_⟩, mapped⟩
  rw [mapped, toMap_emptyTrieN, alterEntry, FiniteMap.card_keys_insert,
    if_neg Finmap.notMem_empty, Finmap.keys_empty, Finset.card_empty]
  rfl

theorem insert_spec (keyWidth : FixedWidth k width) {trie : TrieN k v}
    (invariant : TrieN.Invariant width trie) (key : k) (value : v) :
    ∃ next, insert key value trie = .ok next ∧ TrieN.Invariant width next ∧
      toMap next = (toMap trie).insert key value := by
  cases trie with
  | emptyTrieN =>
      obtain ⟨singletonInvariant, singletonMap⟩ := singleton_spec keyWidth key value
      exact ⟨singleton key value, rfl, singletonInvariant, singletonMap⟩
  | trieN s t =>
      have stored : Stored k width t := invariant.stored
      obtain ⟨outcome, ran, alters⟩ :=
        alterM_spec key (insert.alt value) stored.wellFormed (keyWidth.unpackLength key)
      -- the result says whether the key was new, and the size grows by one exactly then
      have sized : (if outcome.res then s + 1 else s) = s + sizeChange
          (lookupF.lu (unpackKey key) t) (insert.alt value (lookupF.lu (unpackKey key) t)).2 := by
        rw [alters.res]
        cases lookupF.lu (unpackKey key) t <;> simp [insert.alt, sizeChange]
      obtain ⟨nextInvariant, nextMap⟩ := rebuild_spec keyWidth invariant alters _ sized
      refine ⟨rebuild (if outcome.res then s + 1 else s) (outcome.result t), ?_, nextInvariant, ?_⟩
      · rw [insert, ran]
        cases outcome.result t <;> rfl
      · rw [nextMap, insert_alt_snd]
        rfl

theorem delete_spec (keyWidth : FixedWidth k width) {trie : TrieN k v}
    (invariant : TrieN.Invariant width trie) (key : k) :
    ∃ next, delete key trie = .ok next ∧ TrieN.Invariant width next ∧
      toMap next = (toMap trie).erase key := by
  cases trie with
  | emptyTrieN =>
      refine ⟨.emptyTrieN, rfl, emptyTrieN_invariant, ?_⟩
      rw [toMap_emptyTrieN, FiniteMap.erase_of_notMem Finmap.notMem_empty]
  | trieN s t =>
      have stored : Stored k width t := invariant.stored
      obtain ⟨outcome, ran, alters⟩ :=
        alterM_spec key delete.alt stored.wellFormed (keyWidth.unpackLength key)
      -- the result says whether the key was present, and the size shrinks by one exactly then
      have sized : (if outcome.res then s - 1 else s) = s + sizeChange
          (lookupF.lu (unpackKey key) t) (delete.alt (lookupF.lu (unpackKey key) t)).2 := by
        rw [alters.res]
        cases lookupF.lu (unpackKey key) t <;> simp [delete.alt, sizeChange, Int.sub_eq_add_neg]
      obtain ⟨nextInvariant, nextMap⟩ := rebuild_spec keyWidth invariant alters _ sized
      refine ⟨rebuild (if outcome.res then s - 1 else s) (outcome.result t), ?_, nextInvariant, ?_⟩
      · rw [delete, ran]
        cases outcome.result t <;> rfl
      · rw [nextMap, delete_alt_snd]
        rfl

theorem adjust_spec (keyWidth : FixedWidth k width) {trie : TrieN k v}
    (invariant : TrieN.Invariant width trie) (adj : Option v → α × Alteration v) (key : k) :
    ∃ next, adjust adj key trie = .ok ((adj (lookup key trie)).1, next) ∧
      TrieN.Invariant width next ∧ toMap next = alterEntry key (adj (lookup key trie)).2 (toMap trie) := by
  cases trie with
  | emptyTrieN =>
      rw [lookup]
      rcases decided : adj none with ⟨res, _ | _ | value⟩
      · refine ⟨.emptyTrieN, ?_, emptyTrieN_invariant, rfl⟩
        rw [adjust, decided]
        rfl
      · refine ⟨.emptyTrieN, ?_, emptyTrieN_invariant, ?_⟩
        · rw [adjust, decided]
          rfl
        · rw [alterEntry, toMap_emptyTrieN, FiniteMap.erase_of_notMem Finmap.notMem_empty]
      · obtain ⟨singletonInvariant, singletonMap⟩ := singleton_spec keyWidth key value
        refine ⟨singleton key value, ?_, singletonInvariant, singletonMap⟩
        rw [adjust, decided]
        rfl
  | trieN s t =>
      have stored : Stored k width t := invariant.stored
      obtain ⟨outcome, ran, alters⟩ := alterM_spec key (fun old => adjust.ur s old (adj old))
        stored.wellFormed (keyWidth.unpackLength key)
      -- `ur` carries the adjusted size with the answer and passes the alteration through
      have answer : outcome.res = (s + sizeChange (lookupF.lu (unpackKey key) t)
          (adj (lookupF.lu (unpackKey key) t)).2, (adj (lookupF.lu (unpackKey key) t)).1) := by
        simp only [alters.res, adjust_ur_eq]
      obtain ⟨nextInvariant, nextMap⟩ := rebuild_spec keyWidth invariant alters outcome.res.1
        (by simp only [answer, adjust_ur_eq])
      refine ⟨rebuild outcome.res.1 (outcome.result t), ?_, nextInvariant, ?_⟩
      · show _ = Except.ok ((adj (lookupF.lu (unpackKey key) t)).1, _)
        rw [adjust, ran, answer]
        cases outcome.result t <;> rfl
      · show _ = alterEntry key (adj (lookupF.lu (unpackKey key) t)).2 (toMap (.trieN s t))
        rw [nextMap]
        simp only [adjust_ur_eq]

end Operations

/-! ## Runs of operations -/

/-- An operation's answer and the next state; a failed operation leaves the state as it was. -/
def settle (unchanged : TrieN k v) :
    Except String (Option α × TrieN k v) → Except String (Option α) × TrieN k v
  | .error message => (.error message, unchanged)
  | .ok (answer, next) => (.ok answer, next)

def applyTrie : Operation k v α → TrieN k v → Except String (Option α) × TrieN k v
  | .insert key value, trie => settle trie ((fun next => (none, next)) <$> insert key value trie)
  | .delete key, trie => settle trie ((fun next => (none, next)) <$> delete key trie)
  | .adjust adj key, trie =>
      settle trie ((fun (res, next) => (some res, next)) <$> adjust adj key trie)

section Simulation

variable [DecidableEq k]

/-- From a `TrieN` that keeps the invariant, every operation succeeds, keeps the invariant and
does to the map what the operation does on the map. -/
theorem applyTrie_spec (keyWidth : FixedWidth k width) {trie : TrieN k v}
    (invariant : TrieN.Invariant width trie) (operation : Operation k v α) :
    TrieN.Invariant width (applyTrie operation trie).2 ∧
      Prod.map id toMap (applyTrie operation trie) = applyMap operation (toMap trie) := by
  cases operation with
  | insert key value =>
      obtain ⟨next, inserted, nextInvariant, nextMap⟩ := insert_spec keyWidth invariant key value
      rw [applyTrie, inserted, applyMap, ← nextMap]
      exact ⟨nextInvariant, rfl⟩
  | delete key =>
      obtain ⟨next, deleted, nextInvariant, nextMap⟩ := delete_spec keyWidth invariant key
      rw [applyTrie, deleted, applyMap, ← nextMap]
      exact ⟨nextInvariant, rfl⟩
  | adjust adj key =>
      obtain ⟨next, adjusted, nextInvariant, nextMap⟩ := adjust_spec keyWidth invariant adj key
      rw [applyTrie, adjusted, applyMap, lookup_toMap keyWidth invariant.stored, ← nextMap]
      exact ⟨nextInvariant, rfl⟩

theorem applyTrie_simulates (keyWidth : FixedWidth k width) :
    Machine.Simulates (applyTrie (k := k) (v := v) (α := α)) applyMap toMap
      (TrieN.Invariant width) where
  preserves operation _ invariant := (applyTrie_spec keyWidth invariant operation).1
  agrees operation _ invariant := (applyTrie_spec keyWidth invariant operation).2

theorem trie_run_refines_finmap [LT k] (keyWidth : FixedWidth k width)
    (ordered : OrdFixedTrieKey k) (operations : List (Operation k v α)) :
    let trie := (Machine.run applyTrie operations empty).2
    let map := (Machine.run applyMap operations ∅).2
    (Machine.run applyTrie operations empty).1 = (Machine.run applyMap operations ∅).1 ∧
      (∀ output ∈ (Machine.run applyTrie operations empty).1, ∃ answer, output = .ok answer) ∧
      (∀ key, lookup key trie = map.lookup key) ∧
      storedSize trie = map.keys.card ∧
      (∀ key value, (key, value) ∈ toList trie ↔ map.lookup key = some value) ∧
      (toList trie).Pairwise (fun first second =>
        List.Lex (· < ·) (unpackKey first.1) (unpackKey second.1)) ∧
      keys trie = (toList trie).map Prod.fst ∧
      (∀ bytes, (lookupPrefix bytes trie).Perm
        ((toList trie).filter fun entry => bytes.isPrefixOf (unpackKey entry.1))) ∧
      (∃ found, findMin trie = .ok found ∧ IsLookupMin map found) ∧
      ∀ size t, trie = .trieN size t → WellFormed width t := by
  intro trie map
  obtain ⟨agrees, invariant⟩ :=
    (applyTrie_simulates keyWidth).run operations empty emptyTrieN_invariant
  rw [Prod.map, Prod.mk.injEq, toMap_empty] at agrees
  have outputs : (Machine.run applyTrie operations empty).1 =
      (Machine.run applyMap operations ∅).1 := agrees.1
  have mapped : toMap trie = map := agrees.2
  have storedN : StoredN width trie := invariant.stored
  refine ⟨outputs, ?_, ?_, ?_, ?_, toList_ascending keyWidth storedN, keys_eq storedN,
    lookupPrefix_perm_toList keyWidth storedN, ?_, ?_⟩
  · intro output listed
    rw [outputs] at listed
    obtain ⟨operation, state, same⟩ := Machine.mem_run_outputs applyMap operations ∅ listed
    obtain ⟨answer, ok⟩ := applyMap_ok operation state
    exact ⟨answer, same.trans ok⟩
  · intro key
    rw [← mapped, lookup_toMap keyWidth storedN]
  · rw [invariant.size, mapped]
  · intro key value
    rw [mem_toList keyWidth storedN, ← mapped, lookup_toMap keyWidth storedN]
  · rw [← mapped]
    exact findMin_isLookupMin keyWidth ordered storedN
  · intro size t root
    have stored : StoredN width (.trieN size t : TrieN k v) := root ▸ storedN
    exact stored.wellFormed

end Simulation

/-! ## `Word64` keys -/

/-- `Word64` keys (and the `BakerId`, `DelegatorId` and `Timestamp` keys derived from them) are
their big-endian `Serialize` encoding. -/
instance word64TrieKey : FixedTrieKey UInt64 where
  unpackKey key := Serialize.putWord64be key.toNat
  packKey bytes := UInt64.ofNat (Serialize.decodeBE 0 bytes)

theorem word64_fixedWidth : FixedWidth UInt64 8 where
  positive := by decide
  unpackLength key := Serialize.putWordBE_length 8 key.toNat
  packUnpack key := by
    show UInt64.ofNat (Serialize.decodeBE 0 (Serialize.putWordBE 8 key.toNat)) = key
    have fits : key.toNat < 256 ^ 8 := key.toNat_lt_size
    rw [Serialize.decodeBE_putWordBE, Nat.mod_eq_of_lt fits, Nat.zero_mul, Nat.zero_add,
      UInt64.ofNat_toNat]

theorem word64_ordered : OrdFixedTrieKey UInt64 := by
  intro first second
  show first < second ↔ List.Lex (· < ·) (Serialize.putWordBE 8 first.toNat)
    (Serialize.putWordBE 8 second.toNat)
  rw [UInt64.lt_iff_toNat_lt, Serialize.lex_putWordBE_iff 8 first.toNat_lt_size
    second.toNat_lt_size]

theorem trie_run_refines_finmap_on_word64 :
    lookup (27 : UInt64) (Machine.run applyTrie
      [(.insert 27 "Hello" : Operation UInt64 String Unit), .insert 13 "World"] empty).2 =
        some "Hello" := by
  have refines := (trie_run_refines_finmap word64_fixedWidth word64_ordered
    [(.insert 27 "Hello" : Operation UInt64 String Unit), .insert 13 "World"]).2.2.1 27
  rw [refines]
  simp [Machine.run, applyMap, Finmap.lookup_insert_of_ne]

end Concordium.GlobalState.Persistent.Trie
