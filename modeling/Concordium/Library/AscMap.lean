import Mathlib.Order.Basic
import Mathlib.Data.List.Pairwise
import Mathlib.Data.List.Sort

/-!
Contract: a finite map kept as its entries in strictly ascending order of key, which is how an
ordered map is traversed (`toAscList`, `keys`, `elems`, a fold with keys).

Owns:
- `AscMap`, whose ascending order is a field, so that no map with a repeated or misplaced key can
  be built;
- `empty`, `singleton`, `insert` (one pass that replaces the entry of the same key), `lookup`,
  `findWithDefault`, `keys`, `elems`, `null` and `foldlWithKey`;
- `mem_insertEntry` and `insertEntry_ascending`: an insertion adds its entry, keeps every other
  entry but the one it replaces, and keeps the keys ascending;
- `erase`, `alter`, `alterF` (an alteration that may fail), `deleteFindMin`, `size` and
  `maxViewWithKey`, with `maxViewWithKey_of_size_pos`: the greatest entry comes last;
- `insert_toAscList_of_notMem`: an insertion at a new key is `List.orderedInsert` by key;
- `fromList`, with `toAscList_fromList`: entries whose keys ascend are rebuilt as they are, and
  `fromList_self`; `map_map_of_leftInverse`;
- `fromAscList`, `traverseMaybeWithKey` and `traverseWithKey` (the traversals in a state monad as
  explicit state passing), `map`, `mapWithKey`, `filterWithKey`, `mapMaybeWithKey`, and
  `difference` and `differenceWithKey` through them, with the `lookup` equations, and a map
  without or combined with itself (`toAscList_difference_self`, `null_differenceWithKey_self`);
- `lookup_foldlWithKey_insert` and `foldlWithKey_update_apply`: a fold over a map's entries that
  changes only the entry's own key changes each key once;
- `insert_perm` and `perm_of_lookup`: the entries of a map are the entry at a key and those of
  the other keys;
- `mem_iff_lookup`: an entry is listed exactly when `lookup` finds its value, so that a map is
  determined by its lookups (`ext_lookup`); and one `lookup` equation per operation
  (`lookup_singleton`, `lookup_insert` with `lookup_insert_self`, `lookup_erase`,
  `lookup_setEntry`, `lookup_alter`), with `deleteFindMin_spec` for the least entry and what is
  left.

Does not own: balancing, or any other representation of an ordered map.
-/

set_option autoImplicit false

/-- A finite map as its entries in strictly ascending order of key. -/
structure AscMap (κ β : Type) [LinearOrder κ] where
  toAscList : List (κ × β)
  ascending : (toAscList.map Prod.fst).Pairwise (· < ·)

namespace AscMap

variable {κ β γ : Type} [LinearOrder κ]

def empty : AscMap κ β :=
  ⟨[], List.Pairwise.nil⟩

def singleton (key : κ) (value : β) : AscMap κ β :=
  ⟨[(key, value)], List.pairwise_singleton _ _⟩

/-- Insertion into an ascending entry list, replacing the entry of the same key. -/
def insertEntry (key : κ) (value : β) : List (κ × β) → List (κ × β)
  | [] => [(key, value)]
  | (other, stored) :: rest =>
      if key < other then (key, value) :: (other, stored) :: rest
      else if key = other then (key, value) :: rest
      else (other, stored) :: insertEntry key value rest

theorem mem_insertEntry {key : κ} {value : β} {entry : κ × β} :
    ∀ {entries : List (κ × β)}, entry ∈ insertEntry key value entries →
      entry = (key, value) ∨ entry ∈ entries
  | [], listed => Or.inl (List.mem_singleton.mp listed)
  | (other, stored) :: rest, listed => by
      rw [insertEntry] at listed
      split_ifs at listed with below same
      · exact List.mem_cons.mp listed
      · rcases List.mem_cons.mp listed with first | later
        · exact Or.inl first
        · exact Or.inr (List.mem_cons_of_mem _ later)
      · rcases List.mem_cons.mp listed with first | later
        · exact Or.inr (first ▸ List.mem_cons_self)
        · rcases mem_insertEntry later with inserted | kept
          · exact Or.inl inserted
          · exact Or.inr (List.mem_cons_of_mem _ kept)

theorem insertEntry_ascending (key : κ) (value : β) :
    ∀ {entries : List (κ × β)}, entries.Pairwise (fun first second => first.1 < second.1) →
      (insertEntry key value entries).Pairwise (fun first second => first.1 < second.1)
  | [], _ => List.pairwise_singleton _ _
  | (other, stored) :: rest, ascending => by
      rw [List.pairwise_cons] at ascending
      rw [insertEntry]
      split_ifs with below same
      · -- the new key goes first, below the old head and so below all of the rest
        refine List.Pairwise.cons (fun entry listed => ?_) (List.Pairwise.cons ascending.1 ascending.2)
        rcases List.mem_cons.mp listed with first | later
        · exact first ▸ below
        · exact lt_trans below (ascending.1 entry later)
      · -- the new entry takes the old head's place
        refine List.Pairwise.cons (fun entry listed => ?_) ascending.2
        exact same ▸ ascending.1 entry listed
      · -- the new key lies above the head, and the head stays below everything after it
        refine List.Pairwise.cons (fun entry listed => ?_) (insertEntry_ascending key value ascending.2)
        rcases mem_insertEntry listed with inserted | kept
        · exact inserted ▸ lt_of_le_of_ne (not_lt.mp below) (Ne.symm same)
        · exact ascending.1 entry kept

/-- `Map.insert`. -/
def insert (key : κ) (value : β) (map : AscMap κ β) : AscMap κ β :=
  ⟨insertEntry key value map.toAscList,
    List.pairwise_map.mpr (insertEntry_ascending key value (List.pairwise_map.mp map.ascending))⟩

/-- `Map.lookup`. -/
def lookup (key : κ) (map : AscMap κ β) : Option β :=
  (map.toAscList.find? fun entry => entry.1 = key).map Prod.snd

/-- `Map.findWithDefault`. -/
def findWithDefault (default : β) (key : κ) (map : AscMap κ β) : β :=
  (lookup key map).getD default

/-- `Map.keys`, in ascending order. -/
def keys (map : AscMap κ β) : List κ :=
  map.toAscList.map Prod.fst

/-- `Map.elems`, in ascending order of key. -/
def elems (map : AscMap κ β) : List β :=
  map.toAscList.map Prod.snd

/-- `Map.null`. -/
def null (map : AscMap κ β) : Bool :=
  map.toAscList.isEmpty

/-- `Map.foldlWithKey'`. -/
def foldlWithKey (step : γ → κ → β → γ) (init : γ) (map : AscMap κ β) : γ :=
  map.toAscList.foldl (fun acc entry => step acc entry.1 entry.2) init

theorem mem_insert {key : κ} {value : β} {map : AscMap κ β} {entry : κ × β}
    (listed : entry ∈ (insert key value map).toAscList) :
    entry = (key, value) ∨ entry ∈ map.toAscList :=
  mem_insertEntry listed

theorem insertEntry_ne_nil (key : κ) (value : β) :
    ∀ entries : List (κ × β), insertEntry key value entries ≠ []
  | [] => List.cons_ne_nil _ _
  | (other, stored) :: rest => by
      rw [insertEntry]
      split_ifs <;> exact List.cons_ne_nil _ _

theorem null_insert (key : κ) (value : β) (map : AscMap κ β) :
    (insert key value map).null = false := by
  rw [null, List.isEmpty_eq_false_iff]
  exact insertEntry_ne_nil key value map.toAscList


/-! ## Lookups -/

theorem ascending_entries (map : AscMap κ β) :
    map.toAscList.Pairwise fun first second => first.1 < second.1 :=
  List.pairwise_map.mp map.ascending

theorem find?_key_eq_some_iff {key : κ} {value : β} :
    ∀ {entries : List (κ × β)}, entries.Pairwise (fun first second => first.1 < second.1) →
      ((entries.find? fun entry => decide (entry.1 = key)).map Prod.snd = some value ↔
        (key, value) ∈ entries)
  | [], _ => by simp
  | (other, stored) :: rest, ascending => by
      obtain ⟨headBelow, restAscending⟩ := List.pairwise_cons.mp ascending
      rw [List.find?_cons, List.mem_cons]
      by_cases same : other = key
      · -- the head holds the key, and every later key lies above it
        subst same
        have notLater : (other, value) ∉ rest := fun later => lt_irrefl other (headBelow _ later)
        simp [notLater, eq_comm]
      · have differs : (key, value) ≠ (other, stored) := fun equal =>
          same (congrArg Prod.fst equal).symm
        simp only [same, decide_false]
        rw [find?_key_eq_some_iff restAscending]
        exact ⟨Or.inr, fun listed => listed.resolve_left differs⟩

/-- An entry is listed exactly when `lookup` finds its value at its key. -/
theorem mem_iff_lookup (map : AscMap κ β) (key : κ) (value : β) :
    (key, value) ∈ map.toAscList ↔ map.lookup key = some value :=
  (find?_key_eq_some_iff map.ascending_entries).symm

/-- A map is determined by its entries. -/
theorem ext_toAscList {first second : AscMap κ β} (entries : first.toAscList = second.toAscList) :
    first = second := by
  cases first
  cases second
  cases entries
  rfl

/-- A map is determined by its lookups. -/
theorem ext_lookup {first second : AscMap κ β}
    (lookups : ∀ key, first.lookup key = second.lookup key) : first = second := by
  have irreflexive : Std.Irrefl fun earlier later : κ × β => earlier.1 < later.1 :=
    ⟨fun entry => lt_irrefl entry.1⟩
  have antisymmetric : Std.Antisymm fun earlier later : κ × β => earlier.1 < later.1 :=
    ⟨fun _ _ below above => absurd (lt_trans below above) (lt_irrefl _)⟩
  have entries : first.toAscList = second.toAscList := by
    refine List.Pairwise.eq_of_mem_iff first.ascending_entries second.ascending_entries ?_
    rintro ⟨key, value⟩
    rw [mem_iff_lookup, mem_iff_lookup, lookups]
  exact ext_toAscList entries

@[simp] theorem lookup_empty (key : κ) : (empty : AscMap κ β).lookup key = none := rfl

@[simp] theorem toAscList_empty : (empty : AscMap κ β).toAscList = [] := rfl

theorem mem_insertEntry_iff {key : κ} {value : β} {entry : κ × β} :
    ∀ {entries : List (κ × β)}, entries.Pairwise (fun first second => first.1 < second.1) →
      (entry ∈ insertEntry key value entries ↔
        entry = (key, value) ∨ entry ∈ entries ∧ entry.1 ≠ key)
  | [], _ => by simp [insertEntry]
  | (other, stored) :: rest, ascending => by
      obtain ⟨headBelow, restAscending⟩ := List.pairwise_cons.mp ascending
      have laterAbove : ∀ later ∈ rest, other < later.1 := headBelow
      rw [insertEntry]
      split_ifs with below same
      · have differs : ∀ listed ∈ (other, stored) :: rest, listed.1 ≠ key := by
          intro listed present
          rcases List.mem_cons.mp present with rfl | later
          · exact ne_of_gt below
          · exact ne_of_gt (lt_trans below (laterAbove listed later))
        rw [List.mem_cons]
        exact or_congr_right ⟨fun present => ⟨present, differs entry present⟩, And.left⟩
      · subst same
        rw [List.mem_cons, List.mem_cons]
        constructor
        · rintro (rfl | later)
          · exact .inl rfl
          · exact .inr ⟨.inr later, ne_of_gt (laterAbove entry later)⟩
        · rintro (rfl | ⟨rfl | later, differs⟩)
          · exact .inl rfl
          · exact absurd rfl differs
          · exact .inr later
      · have headDiffers : other ≠ key := fun equal => same equal.symm
        rw [List.mem_cons, mem_insertEntry_iff restAscending, List.mem_cons]
        constructor
        · rintro (rfl | inserted | ⟨later, differs⟩)
          · exact .inr ⟨.inl rfl, headDiffers⟩
          · exact .inl inserted
          · exact .inr ⟨.inr later, differs⟩
        · rintro (inserted | ⟨rfl | later, differs⟩)
          · exact .inr (.inl inserted)
          · exact .inl rfl
          · exact .inr (.inr ⟨later, differs⟩)

theorem lookup_insert (key : κ) (value : β) (map : AscMap κ β) (query : κ) :
    (map.insert key value).lookup query = if query = key then some value else map.lookup query := by
  apply Option.ext
  intro stored
  rw [← mem_iff_lookup, insert]
  show (query, stored) ∈ insertEntry key value map.toAscList ↔ _
  rw [mem_insertEntry_iff map.ascending_entries, Prod.mk.injEq]
  split_ifs with same
  · subst same
    simp [eq_comm]
  · rw [← mem_iff_lookup]
    simp [same]

theorem lookup_insert_self (key : κ) (value : β) (map : AscMap κ β) :
    (map.insert key value).lookup key = some value := by
  rw [lookup_insert, if_pos rfl]

theorem lookup_singleton (key : κ) (value : β) (query : κ) :
    (singleton key value).lookup query = if query = key then some value else none := by
  by_cases same : query = key
  · subst same
    simp [singleton, lookup]
  · simp [singleton, lookup, Ne.symm same, same]

/-- `Map.delete`. -/
def erase (key : κ) (map : AscMap κ β) : AscMap κ β :=
  ⟨map.toAscList.filter fun entry => decide (entry.1 ≠ key),
    List.pairwise_map.mpr (map.ascending_entries.sublist List.filter_sublist)⟩

theorem lookup_erase (key : κ) (map : AscMap κ β) (query : κ) :
    (map.erase key).lookup query = if query = key then none else map.lookup query := by
  apply Option.ext
  intro stored
  rw [← mem_iff_lookup]
  show (query, stored) ∈ map.toAscList.filter _ ↔ _
  rw [List.mem_filter, decide_eq_true_iff]
  split_ifs with same
  · simp [same]
  · rw [← mem_iff_lookup]
    simp [same]

/-- The map with `key` bound to `changed`, or unbound where `changed` is `none`: the last step of
`Map.alter`. -/
def setEntry (key : κ) : Option β → AscMap κ β → AscMap κ β
  | none, map => map.erase key
  | some value, map => map.insert key value

theorem lookup_setEntry (key : κ) (changed : Option β) (map : AscMap κ β) (query : κ) :
    (setEntry key changed map).lookup query = if query = key then changed else map.lookup query := by
  cases changed with
  | none => exact lookup_erase key map query
  | some value => exact lookup_insert key value map query

/-- `Map.alter`. -/
def alter (change : Option β → Option β) (key : κ) (map : AscMap κ β) : AscMap κ β :=
  setEntry key (change (map.lookup key)) map

theorem lookup_alter (change : Option β → Option β) (key : κ) (map : AscMap κ β) (query : κ) :
    (map.alter change key).lookup query =
      if query = key then change (map.lookup key) else map.lookup query :=
  lookup_setEntry key _ map query

/-- `Map.alterF`: an alteration computed in a functor, as one that may fail. -/
def alterF {m : Type → Type} [Functor m] (change : Option β → m (Option β)) (key : κ)
    (map : AscMap κ β) : m (AscMap κ β) :=
  (fun changed => setEntry key changed map) <$> change (map.lookup key)

/-- `Map.deleteFindMin`, where the source calls `error` on the empty map: the entry of the least
key and the map without it. -/
def deleteFindMin : AscMap κ β → Option ((κ × β) × AscMap κ β)
  | ⟨[], _⟩ => none
  | ⟨entry :: rest, ascending⟩ => some (entry, ⟨rest, (List.pairwise_cons.mp ascending).2⟩)

theorem deleteFindMin_eq_none_iff (map : AscMap κ β) :
    map.deleteFindMin = none ↔ ∀ key, map.lookup key = none := by
  obtain ⟨_ | ⟨⟨key, value⟩, rest⟩, ascending⟩ := map
  · exact ⟨fun _ _ => rfl, fun _ => rfl⟩
  · refine ⟨fun found => absurd found (Option.some_ne_none _), fun absent => ?_⟩
    have listed := (mem_iff_lookup ⟨(key, value) :: rest, ascending⟩ key value).mp
      List.mem_cons_self
    rw [absent key] at listed
    exact absurd listed (Option.some_ne_none _).symm

/-- `deleteFindMin` finds the value of the least key, and leaves every other entry. -/
theorem deleteFindMin_spec {map rest : AscMap κ β} {key : κ} {value : β}
    (found : map.deleteFindMin = some ((key, value), rest)) :
    map.lookup key = some value ∧
      (∀ other stored, map.lookup other = some stored → key ≤ other) ∧
      (∀ query, rest.lookup query = if query = key then none else map.lookup query) ∧
      rest.toAscList.length < map.toAscList.length := by
  obtain ⟨_ | ⟨entry, tail⟩, ascending⟩ := map
  · exact absurd found (Option.some_ne_none _).symm
  simp only [deleteFindMin, Option.some.injEq, Prod.mk.injEq] at found
  obtain ⟨rfl, rfl⟩ := found
  have laterAbove : ∀ later ∈ tail, key < later.1 :=
    (List.pairwise_cons.mp (List.pairwise_map.mp ascending)).1
  refine ⟨(mem_iff_lookup _ key value).mp List.mem_cons_self, ?_, ?_, Nat.lt_succ_self _⟩
  · intro other stored present
    rw [← mem_iff_lookup] at present
    rcases List.mem_cons.mp present with same | later
    · exact le_of_eq (congrArg Prod.fst same).symm
    · exact le_of_lt (laterAbove _ later)
  · intro query
    apply Option.ext
    intro stored
    rw [← mem_iff_lookup]
    split_ifs with same
    · subst same
      exact ⟨fun later => lt_irrefl query (laterAbove _ later), fun none => absurd none nofun⟩
    · rw [← mem_iff_lookup, List.mem_cons]
      have differs : (query, stored) ≠ (key, value) := fun equal =>
        same (congrArg Prod.fst equal)
      exact ⟨Or.inr, fun listed => listed.resolve_left differs⟩

/-! ## Size and the greatest entry -/

/-- `Map.size`. -/
def size (map : AscMap κ β) : Nat :=
  map.toAscList.length

/-- `Map.maxViewWithKey`: the entry of the greatest key and the map without it. -/
def maxViewWithKey (map : AscMap κ β) : Option ((κ × β) × AscMap κ β) :=
  map.toAscList.getLast?.map fun last =>
    (last, ⟨map.toAscList.dropLast, map.ascending.sublist ((List.dropLast_sublist _).map _)⟩)

/-- A map with entries has a greatest one, listed after all the others. -/
theorem maxViewWithKey_of_size_pos {map : AscMap κ β} (nonEmpty : 0 < map.size) :
    ∃ last rest, map.maxViewWithKey = some (last, rest) ∧
      map.toAscList = rest.toAscList ++ [last] := by
  obtain ⟨last, found⟩ := Option.isSome_iff_exists.mp
    (List.getLast?_isSome.mpr (List.ne_nil_of_length_pos nonEmpty))
  refine ⟨last, _, by rw [maxViewWithKey, found]; rfl, ?_⟩
  exact (List.dropLast_append_getLast? last found).symm

/-- Insertion at a key the entries lack puts the new entry before the first of greater key. -/
theorem insertEntry_eq_orderedInsert (key : κ) (value : β) :
    ∀ {entries : List (κ × β)}, key ∉ entries.map Prod.fst →
      insertEntry key value entries =
        entries.orderedInsert (fun first second => first.1 ≤ second.1) (key, value)
  | [], _ => rfl
  | (other, stored) :: rest, fresh => by
      rw [List.map_cons, List.mem_cons, not_or] at fresh
      rw [insertEntry, List.orderedInsert_cons]
      by_cases below : key < other
      · rw [if_pos below, if_pos below.le]
      · have notLe : ¬ key ≤ other := fun le => below (lt_of_le_of_ne le fresh.1)
        rw [if_neg below, if_neg fresh.1, if_neg notLe, insertEntry_eq_orderedInsert key value fresh.2]

theorem insert_toAscList_of_notMem {key : κ} {value : β} {map : AscMap κ β}
    (fresh : key ∉ map.keys) :
    (map.insert key value).toAscList =
      map.toAscList.orderedInsert (fun first second => first.1 ≤ second.1) (key, value) :=
  insertEntry_eq_orderedInsert key value fresh

/-! ## Building from a list, and traversals with a state -/

/-- `Map.fromAscList`: the entries as they are when their keys ascend, as the source requires of
its callers; otherwise they are inserted one by one. -/
def fromAscList (entries : List (κ × β)) : AscMap κ β :=
  if ascending : (entries.map Prod.fst).Pairwise (· < ·) then ⟨entries, ascending⟩
  else entries.foldl (fun map entry => map.insert entry.1 entry.2) empty

theorem fromAscList_toAscList {entries : List (κ × β)}
    (ascending : (entries.map Prod.fst).Pairwise (· < ·)) :
    (fromAscList entries).toAscList = entries := by
  rw [fromAscList, dif_pos ascending]

theorem fromAscList_self (map : AscMap κ β) : fromAscList map.toAscList = map :=
  ext_toAscList (fromAscList_toAscList map.ascending)

/-- `Map.fromList`: the entries inserted one by one, a later entry replacing an earlier one of
the same key. -/
def fromList (entries : List (κ × β)) : AscMap κ β :=
  entries.foldl (fun map entry => map.insert entry.1 entry.2) empty

/-- The entries of `Map.traverseMaybeWithKey` in a state monad, as explicit state passing: in
ascending order of key, each entry is kept with its new value or dropped. -/
def traverseMaybeEntries {σ : Type} (step : κ → β → σ → Option γ × σ) :
    List (κ × β) → σ → List (κ × γ) × σ
  | [], state => ([], state)
  | (key, value) :: rest, state =>
      let stepped := step key value state
      let later := traverseMaybeEntries step rest stepped.2
      (match stepped.1 with
        | some changed => (key, changed) :: later.1
        | none => later.1, later.2)

omit [LinearOrder κ] in
theorem keys_traverseMaybeEntries_sublist {σ : Type} (step : κ → β → σ → Option γ × σ) :
    ∀ (entries : List (κ × β)) (state : σ),
      ((traverseMaybeEntries step entries state).1.map Prod.fst).Sublist (entries.map Prod.fst)
  | [], _ => List.Sublist.slnil
  | (key, value) :: rest, state => by
      have later := keys_traverseMaybeEntries_sublist step rest (step key value state).2
      rw [traverseMaybeEntries]
      cases (step key value state).1 with
      | none => exact later.cons _
      | some changed => exact later.cons_cons _

/-- `Map.traverseMaybeWithKey` in a state monad. -/
def traverseMaybeWithKey {σ : Type} (step : κ → β → σ → Option γ × σ) (map : AscMap κ β)
    (state : σ) : AscMap κ γ × σ :=
  (⟨(traverseMaybeEntries step map.toAscList state).1,
      map.ascending.sublist (keys_traverseMaybeEntries_sublist step map.toAscList state)⟩,
    (traverseMaybeEntries step map.toAscList state).2)

/-- The entries of `Map.traverseWithKey` in a state monad, as explicit state passing. -/
def traverseEntries {σ : Type} (step : κ → β → σ → γ × σ) :
    List (κ × β) → σ → List (κ × γ) × σ
  | [], state => ([], state)
  | (key, value) :: rest, state =>
      let stepped := step key value state
      let later := traverseEntries step rest stepped.2
      ((key, stepped.1) :: later.1, later.2)

omit [LinearOrder κ] in
theorem keys_traverseEntries {σ : Type} (step : κ → β → σ → γ × σ) :
    ∀ (entries : List (κ × β)) (state : σ),
      (traverseEntries step entries state).1.map Prod.fst = entries.map Prod.fst
  | [], _ => rfl
  | (key, value) :: rest, state => by
      rw [traverseEntries, List.map_cons, List.map_cons,
        keys_traverseEntries step rest (step key value state).2]

/-- `Map.traverseWithKey` in a state monad. -/
def traverseWithKey {σ : Type} (step : κ → β → σ → γ × σ) (map : AscMap κ β) (state : σ) :
    AscMap κ γ × σ :=
  (⟨(traverseEntries step map.toAscList state).1,
      (keys_traverseEntries step map.toAscList state).symm ▸ map.ascending⟩,
    (traverseEntries step map.toAscList state).2)

/-! ## Filtering -/

/-- `Map.filterWithKey`. -/
def filterWithKey (keep : κ → β → Bool) (map : AscMap κ β) : AscMap κ β :=
  ⟨map.toAscList.filter fun entry => keep entry.1 entry.2,
    map.ascending.sublist (List.filter_sublist.map _)⟩

omit [LinearOrder κ] in
theorem keys_filterMap_sublist (change : κ → β → Option γ) :
    ∀ entries : List (κ × β),
      ((entries.filterMap fun entry => (change entry.1 entry.2).map (entry.1, ·)).map
        Prod.fst).Sublist (entries.map Prod.fst)
  | [] => List.Sublist.slnil
  | (key, value) :: rest => by
      rw [List.filterMap_cons]
      cases change key value with
      | none => exact (keys_filterMap_sublist change rest).cons _
      | some changed => exact (keys_filterMap_sublist change rest).cons_cons _

/-- `Map.mapMaybeWithKey`: each entry changed, or dropped where the change gives nothing. -/
def mapMaybeWithKey (change : κ → β → Option γ) (map : AscMap κ β) : AscMap κ γ :=
  ⟨map.toAscList.filterMap fun entry => (change entry.1 entry.2).map (entry.1, ·),
    map.ascending.sublist (keys_filterMap_sublist change map.toAscList)⟩

/-- `Map.difference`: the entries of the first map whose keys the second map does not have. -/
def difference (first : AscMap κ β) (second : AscMap κ γ) : AscMap κ β :=
  first.filterWithKey fun key _ => (second.lookup key).isNone

/-- `Map.differenceWithKey`: the entries of the first map whose keys the second map does not
have, and at a key of both, what `combine` makes of the two values, if anything. -/
def differenceWithKey (combine : κ → β → γ → Option β) (first : AscMap κ β)
    (second : AscMap κ γ) : AscMap κ β :=
  first.mapMaybeWithKey fun key value =>
    match second.lookup key with
    | none => some value
    | some other => combine key value other

theorem lookup_filterWithKey (keep : κ → β → Bool) (map : AscMap κ β) (key : κ) :
    (map.filterWithKey keep).lookup key = (map.lookup key).filter (keep key) := by
  refine Option.ext fun value => ?_
  rw [← mem_iff_lookup, Option.filter_eq_some_iff, ← mem_iff_lookup]
  exact List.mem_filter

theorem lookup_mapMaybeWithKey (change : κ → β → Option γ) (map : AscMap κ β) (key : κ) :
    (map.mapMaybeWithKey change).lookup key = (map.lookup key).bind (change key) := by
  refine Option.ext fun changed => ?_
  rw [← mem_iff_lookup, Option.bind_eq_some_iff]
  simp only [mapMaybeWithKey, List.mem_filterMap, Option.map_eq_some_iff, Prod.mk.injEq,
    ← mem_iff_lookup]
  constructor
  · rintro ⟨⟨other, value⟩, listed, changed', found, rfl, rfl⟩
    exact ⟨value, listed, found⟩
  · rintro ⟨value, listed, found⟩
    exact ⟨(key, value), listed, changed, found, rfl, rfl⟩

@[simp] theorem toAscList_filterWithKey (keep : κ → β → Bool) (map : AscMap κ β) :
    (map.filterWithKey keep).toAscList = map.toAscList.filter fun entry => keep entry.1 entry.2 :=
  rfl

theorem mem_filterWithKey {keep : κ → β → Bool} {map : AscMap κ β} {entry : κ × β} :
    entry ∈ (map.filterWithKey keep).toAscList ↔
      entry ∈ map.toAscList ∧ keep entry.1 entry.2 = true :=
  List.mem_filter

theorem mem_of_mem_difference {first : AscMap κ β} {second : AscMap κ γ} {entry : κ × β}
    (listed : entry ∈ (first.difference second).toAscList) : entry ∈ first.toAscList :=
  (mem_filterWithKey.mp listed).1

/-- A map without its own keys is empty. -/
theorem toAscList_difference_self (map : AscMap κ β) : (map.difference map).toAscList = [] := by
  rw [difference, toAscList_filterWithKey, List.filter_eq_nil_iff]
  rintro ⟨key, value⟩ listed
  rw [(mem_iff_lookup map key value).mp listed]
  simp

/-- A map combined with itself by a `combine` that drops equal values is empty. -/
theorem null_differenceWithKey_self (combine : κ → β → β → Option β) (map : AscMap κ β)
    (drops : ∀ key value, combine key value value = none) :
    (map.differenceWithKey combine map).null = true := by
  simp only [differenceWithKey, mapMaybeWithKey, null, List.isEmpty_iff,
    List.filterMap_eq_nil_iff]
  rintro ⟨key, value⟩ listed
  rw [(mem_iff_lookup map key value).mp listed]
  simp [drops]

theorem null_eq_false_of_lookup {map : AscMap κ β} {key : κ} {value : β}
    (found : map.lookup key = some value) : map.null = false := by
  rw [null, List.isEmpty_eq_false_iff]
  exact List.ne_nil_of_mem ((mem_iff_lookup map key value).mpr found)

theorem keys_eq_nil_of_null {map : AscMap κ β} (empty : map.null = true) : map.keys = [] := by
  rw [null, List.isEmpty_iff] at empty
  rw [keys, empty, List.map_nil]

theorem mem_keys_iff (map : AscMap κ β) (key : κ) :
    key ∈ map.keys ↔ ∃ value, map.lookup key = some value := by
  simp only [keys, List.mem_map, ← mem_iff_lookup]
  exact ⟨fun ⟨⟨_, value⟩, listed, same⟩ => ⟨value, same ▸ listed⟩,
    fun ⟨value, listed⟩ => ⟨(key, value), listed, rfl⟩⟩

theorem mem_keys_insert (key : κ) (value : β) (map : AscMap κ β) (query : κ) :
    query ∈ (map.insert key value).keys ↔ query = key ∨ query ∈ map.keys := by
  rw [mem_keys_iff, mem_keys_iff, lookup_insert]
  by_cases same : query = key <;> simp [same]

theorem mem_keys_erase (key : κ) (map : AscMap κ β) (query : κ) :
    query ∈ (map.erase key).keys ↔ query ≠ key ∧ query ∈ map.keys := by
  rw [mem_keys_iff, mem_keys_iff, lookup_erase]
  by_cases same : query = key <;> simp [same]

/-- Inserting entries in turn binds exactly their keys besides those already bound. -/
theorem mem_keys_foldl_insert (query : κ) :
    ∀ (entries : List (κ × β)) (init : AscMap κ β),
      query ∈ (entries.foldl (fun map entry => map.insert entry.1 entry.2) init).keys ↔
        query ∈ entries.map Prod.fst ∨ query ∈ init.keys
  | [], init => by simp
  | entry :: rest, init => by
      rw [List.foldl_cons, mem_keys_foldl_insert query rest, mem_keys_insert, List.map_cons,
        List.mem_cons]
      tauto

/-- `Map.map`. -/
def map (change : β → γ) (map : AscMap κ β) : AscMap κ γ :=
  ⟨map.toAscList.map fun entry => (entry.1, change entry.2), by
    rw [List.map_map]
    exact map.ascending⟩

/-- `Map.mapWithKey`. -/
def mapWithKey (change : κ → β → γ) (map : AscMap κ β) : AscMap κ γ :=
  ⟨map.toAscList.map fun entry => (entry.1, change entry.1 entry.2), by
    rw [List.map_map]
    exact map.ascending⟩

/-- Mapping by a change and then by its left inverse gives the map back. -/
theorem map_map_of_leftInverse (change : β → γ) (restore : γ → β)
    (restores : ∀ value, restore (change value) = value) (map : AscMap κ β) :
    (map.map change).map restore = map := by
  apply ext_toAscList
  simp only [AscMap.map, List.map_map]
  conv_rhs => rw [← List.map_id map.toAscList]
  apply List.map_congr_left
  intro entry _
  simp [restores]

/-! ## Folds that change each key of a map once -/

theorem nodup_keys (map : AscMap κ β) : map.keys.Nodup :=
  map.ascending.nodup

theorem lookup_of_toAscList_eq_map {map : AscMap κ β} {mapped : AscMap κ γ} (change : β → γ)
    (entries : mapped.toAscList = map.toAscList.map fun entry => (entry.1, change entry.2))
    (key : κ) : mapped.lookup key = (map.lookup key).map change := by
  simp only [lookup, entries, List.find?_map, Option.map_map]
  rfl

theorem lookup_map (change : β → γ) (map : AscMap κ β) (key : κ) :
    (map.map change).lookup key = (map.lookup key).map change :=
  lookup_of_toAscList_eq_map change rfl key

/-- Inserting the change of each entry, where there is one, changes each key once. -/
theorem lookup_foldl_insert (change : κ → β → Option γ) :
    ∀ (entries : List (κ × β)), (entries.map Prod.fst).Nodup → ∀ (init : AscMap κ γ) (key : κ),
      (entries.foldl (fun acc entry =>
          (change entry.1 entry.2).elim acc fun changed => acc.insert entry.1 changed) init).lookup
          key =
        (((entries.find? fun entry => entry.1 = key).map Prod.snd).bind (change key)).or
          (init.lookup key)
  | [], _, init, key => by simp
  | (other, value) :: rest, distinct, init, key => by
      rw [List.map_cons, List.nodup_cons] at distinct
      rw [List.foldl_cons, lookup_foldl_insert change rest distinct.2, List.find?_cons]
      by_cases same : other = key
      · -- this entry holds the key, and no later one does
        subst same
        have absent : (rest.find? fun entry => entry.1 = other) = none :=
          List.find?_eq_none.mpr fun entry listed found => distinct.1 (by
            rw [← of_decide_eq_true found]
            exact List.mem_map.mpr ⟨entry, listed, rfl⟩)
        cases changed : change other value with
        | none => simp [absent, changed]
        | some result => simp [absent, changed, lookup_insert]
      · cases changed : change other value with
        | none => simp [same]
        | some result => simp [same, lookup_insert, Ne.symm same]

/-- Updating a function at the key of each entry changes each key once. -/
theorem foldl_update_apply {X : Type} (change : κ → β → X → X) :
    ∀ (entries : List (κ × β)), (entries.map Prod.fst).Nodup → ∀ (f : κ → X) (key : κ),
      entries.foldl (fun g entry => Function.update g entry.1 (change entry.1 entry.2 (g entry.1)))
          f key =
        ((entries.find? fun entry => entry.1 = key).map Prod.snd).elim (f key)
          fun value => change key value (f key)
  | [], _, f, key => rfl
  | (other, value) :: rest, distinct, f, key => by
      rw [List.map_cons, List.nodup_cons] at distinct
      rw [List.foldl_cons, foldl_update_apply change rest distinct.2, List.find?_cons]
      by_cases same : other = key
      · subst same
        have absent : (rest.find? fun entry => entry.1 = other) = none :=
          List.find?_eq_none.mpr fun entry listed found => distinct.1 (by
            rw [← of_decide_eq_true found]
            exact List.mem_map.mpr ⟨entry, listed, rfl⟩)
        simp [absent]
      · simp [same, Function.update_of_ne (Ne.symm same)]

theorem lookup_foldlWithKey_insert (change : κ → β → Option γ) (map : AscMap κ β)
    (init : AscMap κ γ) (key : κ) :
    (map.foldlWithKey (fun acc other value =>
        (change other value).elim acc fun changed => acc.insert other changed) init).lookup key =
      ((map.lookup key).bind (change key)).or (init.lookup key) :=
  lookup_foldl_insert change map.toAscList map.nodup_keys init key

/-- Entries whose keys ascend are rebuilt as they are by inserting them in order. -/
theorem toAscList_fromList {entries : List (κ × β)}
    (ascending : (entries.map Prod.fst).Pairwise (· < ·)) :
    (fromList entries).toAscList = entries := by
  have rebuilt : fromList entries = ⟨entries, ascending⟩ := by
    apply ext_lookup
    intro key
    have folded := lookup_foldl_insert (fun _ value => some value) entries ascending.nodup empty
      key
    simp only [Option.elim_some, Option.bind_fun_some, lookup_empty, Option.or_none] at folded
    exact folded
  rw [rebuilt]

theorem mem_keys_fromList (entries : List (κ × β)) (query : κ) :
    query ∈ (fromList entries).keys ↔ query ∈ entries.map Prod.fst := by
  rw [fromList, mem_keys_foldl_insert]
  simp [keys, empty]

/-- A map is rebuilt by inserting its entries in order. -/
theorem fromList_self (map : AscMap κ β) : fromList map.toAscList = map :=
  ext_toAscList (toAscList_fromList map.ascending)

theorem foldlWithKey_update_apply {X : Type} (change : κ → β → X → X) (map : AscMap κ β)
    (f : κ → X) (key : κ) :
    map.foldlWithKey (fun g other value => Function.update g other (change other value (g other)))
        f key =
      (map.lookup key).elim (f key) fun value => change key value (f key) :=
  foldl_update_apply change map.toAscList map.nodup_keys f key

/-! ## The entries of the other keys -/

theorem nodup_entries (map : AscMap κ β) : map.toAscList.Nodup :=
  map.ascending_entries.imp fun {first second} below same => by
    subst same
    exact lt_irrefl first.1 below

/-- The entries of an insertion are the new entry and the entries of the other keys. -/
theorem insert_perm (key : κ) (value : β) (map : AscMap κ β) :
    (map.insert key value).toAscList.Perm
      ((key, value) :: map.toAscList.filter fun entry => entry.1 ≠ key) := by
  have others : (map.toAscList.filter fun entry => entry.1 ≠ key).Nodup :=
    map.nodup_entries.filter _
  have fresh : (key, value) ∉ map.toAscList.filter fun entry => entry.1 ≠ key := by
    simp
  refine (List.perm_ext_iff_of_nodup (map.insert key value).nodup_entries
    (List.Nodup.cons fresh others)).mpr fun entry => ?_
  rw [List.mem_cons, List.mem_filter, decide_eq_true_iff]
  exact mem_insertEntry_iff map.ascending_entries

/-- The entries of a map with a value at a key are that entry and the entries of the other
keys. -/
theorem perm_of_lookup {map : AscMap κ β} {key : κ} {value : β}
    (found : map.lookup key = some value) :
    map.toAscList.Perm ((key, value) :: map.toAscList.filter fun entry => entry.1 ≠ key) := by
  have others : (map.toAscList.filter fun entry => entry.1 ≠ key).Nodup :=
    map.nodup_entries.filter _
  have fresh : (key, value) ∉ map.toAscList.filter fun entry => entry.1 ≠ key := by
    simp
  refine (List.perm_ext_iff_of_nodup map.nodup_entries (List.Nodup.cons fresh others)).mpr ?_
  rintro ⟨other, stored⟩
  rw [List.mem_cons, List.mem_filter, decide_eq_true_iff]
  by_cases same : other = key
  · subst same
    rw [mem_iff_lookup, found, Option.some_inj, Prod.mk.injEq]
    simp [eq_comm]
  · simp [same]

/-- A map without the key has no entry of it to leave out. -/
theorem filter_eq_self_of_lookup_eq_none {map : AscMap κ β} {key : κ}
    (absent : map.lookup key = none) :
    (map.toAscList.filter fun entry => entry.1 ≠ key) = map.toAscList := by
  refine List.filter_eq_self.mpr fun entry listed => ?_
  have kept : entry.1 ≠ key := fun same => by
    rw [← same, ← Option.not_isSome_iff_eq_none] at absent
    exact absent (Option.isSome_iff_exists.mpr ⟨entry.2, (mem_iff_lookup map _ _).mp listed⟩)
  exact decide_eq_true kept

end AscMap
