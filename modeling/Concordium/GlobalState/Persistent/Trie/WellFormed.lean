import Concordium.GlobalState.Persistent.Trie
import Concordium.Library.ListPrefix

/-!
Contract: what a trie means, and the shape of every trie the operations build.

Owns:
- `WellFormed`: every branch has at least two children in increasing index order, no stem is
  empty, and every path from the root to a value spells a key of the given length;
- the equations of `lookupF.lu`, which is the trie's meaning as a map from byte strings to
  values, and its facts on well-formed tries (keys have the length, some key has a value);
- `entries`: the entries in traversal order, of which `mapReduceF` computes the image; on a
  well-formed trie they are exactly the lookups that succeed, in increasing byte order;
- `lookupPrefixF` and `findMinF` on well-formed tries: the entries under a prefix, and the first
  entry.

Does not own: how `alterM` changes a trie.
-/

set_option autoImplicit false

namespace Concordium.GlobalState.Persistent.Trie

variable {k v : Type}

/-- The shape of the tries the operations build, for keys of `length` bytes. -/
inductive WellFormed : Nat → Trie v → Prop
  | tip (value : v) : WellFormed 0 (.tip value)
  | stem {pref : List UInt8} {rest : Trie v} {length : Nat} (nonempty : pref ≠ [])
      (restWellFormed : WellFormed length rest) :
      WellFormed (pref.length + length) (.stem pref rest)
  | branch {vec : List (BranchEntry (Trie v))} {length : Nat} (twoChildren : 2 ≤ vec.length)
      (ordered : Ordered vec) (children : ∀ entry ∈ vec, WellFormed length entry.beBranch) :
      WellFormed (length + 1) (.branch vec)

theorem mem_branchesToPairs {r : Type} {vec : List (BranchEntry r)} {i : UInt8} {child : r} :
    (i, child) ∈ branchesToPairs vec ↔ (⟨i, child⟩ : BranchEntry r) ∈ vec := by
  constructor
  · intro mem
    obtain ⟨⟨index, branch⟩, entryMem, same⟩ := List.mem_map.mp mem
    cases same
    exact entryMem
  · intro mem
    exact List.mem_map.mpr ⟨_, mem, rfl⟩

theorem WellFormed.tip_inv {length : Nat} {value : v}
    (wellFormed : WellFormed length (.tip value)) : length = 0 := by
  cases wellFormed
  rfl

theorem WellFormed.stem_inv {length : Nat} {pref : List UInt8} {rest : Trie v}
    (wellFormed : WellFormed length (.stem pref rest)) :
    ∃ restLength, length = pref.length + restLength ∧ pref ≠ [] ∧ WellFormed restLength rest := by
  cases wellFormed with
  | @stem _ _ restLength nonempty restWellFormed => exact ⟨restLength, rfl, nonempty, restWellFormed⟩

theorem WellFormed.branch_inv {length : Nat} {vec : List (BranchEntry (Trie v))}
    (wellFormed : WellFormed length (.branch vec)) :
    ∃ childLength, length = childLength + 1 ∧ 2 ≤ vec.length ∧ Ordered vec ∧
      ∀ entry ∈ vec, WellFormed childLength entry.beBranch := by
  cases wellFormed with
  | @branch _ childLength twoChildren ordered children =>
      exact ⟨childLength, rfl, twoChildren, ordered, children⟩

/-! ## Lookup -/

section Lookup

theorem lu_tip (key : List UInt8) (value : v) :
    lookupF.lu key (.tip value) = if key = [] then some value else none := by
  cases key <;> simp [lookupF.lu]

@[simp] theorem lu_tip_nil (value : v) : lookupF.lu [] (.tip value) = some value := by
  rw [lu_tip, if_pos rfl]

theorem lu_stem (key pref : List UInt8) (rest : Trie v) :
    lookupF.lu key (.stem pref rest) = (key.dropPrefix? pref).bind (lookupF.lu · rest) := by
  rw [lookupF.lu.eq_3]
  cases key.dropPrefix? pref <;> rfl

@[simp] theorem lu_branch_nil (vec : List (BranchEntry (Trie v))) :
    lookupF.lu [] (.branch vec) = none := by
  simp [lookupF.lu]

theorem lu_branch_cons (w : UInt8) (key : List UInt8) (vec : List (BranchEntry (Trie v))) :
    lookupF.lu (w :: key) (.branch vec) = (branchAt vec w).bind (lookupF.lu key) := by
  rw [lookupF.lu.eq_5]
  split <;> rename_i found <;> rw [found] <;> rfl

theorem lu_stem_append (pref key : List UInt8) (rest : Trie v) :
    lookupF.lu (pref ++ key) (.stem pref rest) = lookupF.lu key rest := by
  rw [lu_stem, ListPrefix.dropPrefix?_append_self]
  rfl

end Lookup

/-! ## Entries in traversal order -/

section Entries

/-- A byte string is its own key. -/
instance bytesKey : FixedTrieKey (List UInt8) := ⟨id, id⟩

/-- The entries of a trie under a key prefix, in the order `mapReduceF` visits them. -/
def entries (keyPrefix : List UInt8) (t : Trie v) : List (List UInt8 × v) :=
  mapReduceF.mr (k := List UInt8) (fun key value => [(key, value)]) keyPrefix t

/-- Keys in increasing lexicographic order of their bytes. -/
def Ascending (es : List (List UInt8 × v)) : Prop :=
  es.Pairwise fun first second => List.Lex (· < ·) first.1 second.1

/-- An entry with its bytes packed into a key. -/
def packEntry [FixedTrieKey k] (entry : List UInt8 × v) : k × v := (packKey entry.1, entry.2)

theorem mr_branch [FixedTrieKey k] {α : Type} (mfun : k → v → List α) (keyPrefix : List UInt8)
    (vec : List (BranchEntry (Trie v))) :
    mapReduceF.mr mfun keyPrefix (.branch vec) =
      (branchesToPairs vec).flatMap fun pair => mapReduceF.mr mfun (keyPrefix ++ [pair.1]) pair.2 := by
  rw [mapReduceF.mr.eq_3, ← List.flatMap_def]
  exact ListPrefix.flatMap_attach _
    fun pair : UInt8 × Trie v => mapReduceF.mr mfun (keyPrefix ++ [pair.1]) pair.2

@[simp] theorem entries_tip (keyPrefix : List UInt8) (value : v) :
    entries keyPrefix (.tip value) = [(keyPrefix, value)] := by
  simp [entries, mapReduceF.mr]
  rfl

@[simp] theorem entries_stem (keyPrefix pref : List UInt8) (rest : Trie v) :
    entries keyPrefix (.stem pref rest) = entries (keyPrefix ++ pref) rest := by
  simp [entries, mapReduceF.mr]

theorem entries_branch (keyPrefix : List UInt8) (vec : List (BranchEntry (Trie v))) :
    entries keyPrefix (.branch vec) =
      (branchesToPairs vec).flatMap fun pair => entries (keyPrefix ++ [pair.1]) pair.2 :=
  mr_branch _ keyPrefix vec

/-- `mapReduceF` maps its function over the entries, keys packed. -/
theorem mr_eq_flatMap [FixedTrieKey k] {α : Type} (mfun : k → v → List α) {length : Nat}
    {t : Trie v} (wellFormed : WellFormed length t) :
    ∀ keyPrefix, mapReduceF.mr mfun keyPrefix t =
      (entries keyPrefix t).flatMap fun entry => mfun (packKey entry.1) entry.2 := by
  induction wellFormed with
  | tip value =>
      intro keyPrefix
      simp [mapReduceF.mr]
  | @stem pref rest restLength nonempty restWellFormed inductionHypothesis =>
      intro keyPrefix
      rw [entries_stem, ← inductionHypothesis]
      simp [mapReduceF.mr]
  | @branch vec childLength twoChildren ordered children inductionHypothesis =>
      intro keyPrefix
      rw [mr_branch, entries_branch, List.flatMap_assoc]
      apply List.flatMap_congr
      intro pair mem
      exact inductionHypothesis ⟨pair.1, pair.2⟩ (mem_branchesToPairs.mp mem) _

theorem WellFormed.key_of_mem_entries {length : Nat} {t : Trie v}
    (wellFormed : WellFormed length t) :
    ∀ {keyPrefix : List UInt8} {entry : List UInt8 × v}, entry ∈ entries keyPrefix t →
      ∃ suffix, entry.1 = keyPrefix ++ suffix := by
  induction wellFormed with
  | tip value =>
      intro keyPrefix entry mem
      rw [entries_tip, List.mem_singleton] at mem
      exact ⟨[], by rw [mem, List.append_nil]⟩
  | @stem pref rest restLength nonempty restWellFormed inductionHypothesis =>
      intro keyPrefix entry mem
      rw [entries_stem] at mem
      obtain ⟨suffix, same⟩ := inductionHypothesis mem
      exact ⟨pref ++ suffix, by rw [same, List.append_assoc]⟩
  | @branch vec childLength twoChildren ordered children inductionHypothesis =>
      intro keyPrefix entry mem
      rw [entries_branch, List.mem_flatMap] at mem
      obtain ⟨pair, pairMem, entryMem⟩ := mem
      obtain ⟨suffix, same⟩ :=
        inductionHypothesis ⟨pair.1, pair.2⟩ (mem_branchesToPairs.mp pairMem) entryMem
      exact ⟨pair.1 :: suffix, by rw [same, List.append_assoc, List.singleton_append]⟩

/-- The entries of a well-formed trie are in increasing byte order of keys. -/
theorem WellFormed.ascending {length : Nat} {t : Trie v} (wellFormed : WellFormed length t) :
    ∀ keyPrefix, Ascending (entries keyPrefix t) := by
  induction wellFormed with
  | tip value =>
      intro keyPrefix
      rw [entries_tip]
      exact List.pairwise_singleton _ _
  | @stem pref rest restLength nonempty restWellFormed inductionHypothesis =>
      intro keyPrefix
      rw [entries_stem]
      exact inductionHypothesis _
  | @branch vec childLength twoChildren ordered children inductionHypothesis =>
      intro keyPrefix
      rw [Ascending, entries_branch, List.pairwise_flatMap]
      refine ⟨fun pair mem => inductionHypothesis _ (mem_branchesToPairs.mp mem) _, ?_⟩
      -- children in index order: every key below one is below every key of a later one
      have pairsOrdered :
          (branchesToPairs vec).Pairwise fun first second => first.1 < second.1 := by
        rw [branchesToPairs, List.pairwise_map]
        exact List.pairwise_map.mp ordered
      apply pairsOrdered.imp_of_mem
      intro first second firstMem secondMem below firstEntry firstEntryMem secondEntry
        secondEntryMem
      obtain ⟨firstSuffix, firstKey⟩ :=
        (children _ (mem_branchesToPairs.mp firstMem)).key_of_mem_entries firstEntryMem
      obtain ⟨secondSuffix, secondKey⟩ :=
        (children _ (mem_branchesToPairs.mp secondMem)).key_of_mem_entries secondEntryMem
      rw [firstKey, secondKey, List.append_assoc, List.append_assoc, List.singleton_append,
        List.singleton_append]
      exact List.Lex.append_left _ (List.Lex.rel below) keyPrefix

theorem Ascending.nodup {es : List (List UInt8 × v)} (ascending : Ascending es) : es.Nodup := by
  apply ascending.imp
  intro first second lex same
  rw [same] at lex
  exact ListPrefix.lex_irrefl UInt8.lt_irrefl _ lex

/-- The entries of a well-formed trie are exactly its successful lookups. -/
theorem WellFormed.mem_entries {length : Nat} {t : Trie v} (wellFormed : WellFormed length t) :
    ∀ (keyPrefix : List UInt8) (entry : List UInt8 × v),
      entry ∈ entries keyPrefix t ↔
        ∃ suffix, entry.1 = keyPrefix ++ suffix ∧ lookupF.lu suffix t = some entry.2 := by
  induction wellFormed with
  | tip value =>
      intro keyPrefix entry
      rw [entries_tip, List.mem_singleton]
      constructor
      · rintro rfl
        exact ⟨[], (List.append_nil _).symm, lu_tip_nil _⟩
      · rintro ⟨suffix, same, found⟩
        rw [lu_tip] at found
        split_ifs at found with empty
        cases found
        rw [Prod.ext_iff, same, empty, List.append_nil]
        exact ⟨rfl, rfl⟩
  | @stem pref rest restLength nonempty restWellFormed inductionHypothesis =>
      intro keyPrefix entry
      rw [entries_stem, inductionHypothesis]
      constructor
      · rintro ⟨suffix, same, found⟩
        exact ⟨pref ++ suffix, by rw [same, List.append_assoc], by rw [lu_stem_append, found]⟩
      · rintro ⟨suffix, same, found⟩
        rw [lu_stem] at found
        obtain ⟨suffix', stripped, restFound⟩ := Option.bind_eq_some_iff.mp found
        rw [ListPrefix.dropPrefix?_eq_some_iff.mp stripped] at same
        exact ⟨suffix', by rw [same, List.append_assoc], restFound⟩
  | @branch vec childLength twoChildren ordered children inductionHypothesis =>
      intro keyPrefix entry
      rw [entries_branch, List.mem_flatMap]
      constructor
      · rintro ⟨pair, pairMem, entryMem⟩
        obtain ⟨suffix, same, found⟩ :=
          (inductionHypothesis _ (mem_branchesToPairs.mp pairMem) _ entry).mp entryMem
        refine ⟨pair.1 :: suffix, by rw [same, List.append_assoc, List.singleton_append], ?_⟩
        rw [lu_branch_cons,
          (branchAt_eq_some_iff ordered _ _).mpr (mem_branchesToPairs.mp pairMem)]
        exact found
      · rintro ⟨suffix, same, found⟩
        cases suffix with
        | nil => simp at found
        | cons w suffix =>
            rw [lu_branch_cons] at found
            obtain ⟨child, childFound, restFound⟩ := Option.bind_eq_some_iff.mp found
            have childMem := mem_of_branchAt_eq_some childFound
            refine ⟨(w, child), mem_branchesToPairs.mpr childMem, ?_⟩
            rw [inductionHypothesis _ childMem]
            exact ⟨suffix, by rw [same, List.append_assoc, List.singleton_append], restFound⟩

end Entries

/-! ## Prefix lookups and the least entry -/

section Queries

variable [FixedTrieKey k]

theorem collect_branch (keyPrefix : List UInt8) (vec : List (BranchEntry (Trie v))) :
    (lookupPrefixF.collect (k := k) keyPrefix (.branch vec)).Perm
      ((branchesToPairs vec).flatMap fun pair =>
        lookupPrefixF.collect (keyPrefix ++ [pair.1]) pair.2) := by
  rw [lookupPrefixF.collect.eq_3]
  refine (ListPrefix.foldl_prepend_perm _ _).trans ?_
  rw [ListPrefix.flatMap_attach _
    fun pair : UInt8 × Trie v => lookupPrefixF.collect (k := k) (keyPrefix ++ [pair.1]) pair.2]

/-- `collect` lists every entry under a node, in some order. -/
theorem WellFormed.collect_perm {length : Nat} {t : Trie v} (wellFormed : WellFormed length t) :
    ∀ keyPrefix,
      (lookupPrefixF.collect (k := k) keyPrefix t).Perm ((entries keyPrefix t).map packEntry) := by
  induction wellFormed with
  | tip value =>
      intro keyPrefix
      rw [lookupPrefixF.collect.eq_1, entries_tip]
      rfl
  | @stem pref rest restLength nonempty restWellFormed inductionHypothesis =>
      intro keyPrefix
      rw [lookupPrefixF.collect.eq_2, entries_stem]
      exact inductionHypothesis _
  | @branch vec childLength twoChildren ordered children inductionHypothesis =>
      intro keyPrefix
      refine (collect_branch keyPrefix vec).trans ?_
      rw [entries_branch, List.map_flatMap]
      exact List.Perm.flatMap_left _ fun pair mem =>
        inductionHypothesis _ (mem_branchesToPairs.mp mem) _

/-- Keeping the entries under a prefix keeps all of them when the prefix starts every key. -/
theorem filter_entries_of_prefix {length : Nat} {t : Trie v} (wellFormed : WellFormed length t)
    {keyPrefix start : List UInt8} (starts : start <+: keyPrefix) :
    (entries keyPrefix t).filter (fun entry => start.isPrefixOf entry.1) = entries keyPrefix t := by
  rw [List.filter_eq_self]
  intro entry mem
  obtain ⟨suffix, same⟩ := wellFormed.key_of_mem_entries mem
  rw [List.isPrefixOf_iff_prefix, same]
  exact starts.trans (List.prefix_append _ _)

/-- Below a branch, the entries under `w :: key` are those under `key` of the child at `w`. -/
theorem WellFormed.mem_filter_branch {length : Nat} {vec : List (BranchEntry (Trie v))}
    (wellFormed : WellFormed length (.branch vec)) {w : UInt8} {child : Trie v}
    (found : branchAt vec w = some child) (keyPrefix key : List UInt8)
    (entry : List UInt8 × v) :
    entry ∈ (entries keyPrefix (.branch vec)).filter
        (fun entry => (keyPrefix ++ w :: key).isPrefixOf entry.1) ↔
      entry ∈ (entries (keyPrefix ++ [w]) child).filter
        (fun entry => (keyPrefix ++ [w] ++ key).isPrefixOf entry.1) := by
  obtain ⟨childLength, rfl, _, _, children⟩ := wellFormed.branch_inv
  have childWellFormed := children ⟨w, child⟩ (mem_of_branchAt_eq_some found)
  simp only [List.mem_filter, List.isPrefixOf_iff_prefix, wellFormed.mem_entries,
    childWellFormed.mem_entries]
  constructor
  · rintro ⟨⟨suffix, same, lookedUp⟩, isPrefix⟩
    rw [same, List.prefix_append_right_inj] at isPrefix
    obtain ⟨tail, rfl⟩ := isPrefix
    rw [List.cons_append, lu_branch_cons, found] at lookedUp
    refine ⟨⟨key ++ tail, ?_, lookedUp⟩, ?_⟩
    · rw [same, List.append_assoc, List.singleton_append, List.cons_append]
    · rw [same, List.append_assoc, List.singleton_append]
      exact List.prefix_append_right_inj _ |>.mpr (List.prefix_append _ _)
  · rintro ⟨⟨suffix, same, lookedUp⟩, isPrefix⟩
    refine ⟨⟨w :: suffix, ?_, ?_⟩, ?_⟩
    · rw [same, List.append_assoc, List.singleton_append]
    · rw [lu_branch_cons, found]
      exact lookedUp
    · rw [← List.singleton_append, ← List.append_assoc]
      exact isPrefix

/-- `lookupPrefixF` lists, in some order, exactly the entries whose key starts with the bytes. -/
theorem WellFormed.lookupPrefix_perm {length : Nat} {t : Trie v}
    (wellFormed : WellFormed length t) :
    ∀ keyPrefix key, (lookupPrefixF.lu (k := k) keyPrefix key t).Perm
      (((entries keyPrefix t).filter fun entry =>
        (keyPrefix ++ key).isPrefixOf entry.1).map packEntry) := by
  induction wellFormed with
  | tip value =>
      intro keyPrefix key
      cases key with
      | nil =>
          rw [lookupPrefixF.lu.eq_1, List.append_nil,
            filter_entries_of_prefix (.tip value) (List.prefix_refl _), entries_tip]
          rfl
      | cons w rest =>
          rw [lookupPrefixF.lu.eq_2 _ _ _ (fun empty => by cases empty), entries_tip,
            List.filter_eq_nil_iff.mpr]
          · rfl
          intro entry mem isPrefix
          rw [List.mem_singleton] at mem
          rw [mem, List.isPrefixOf_iff_prefix] at isPrefix
          have longer := isPrefix.length_le
          simp only [List.length_append, List.length_cons] at longer
          omega
  | @stem pref rest restLength nonempty restWellFormed inductionHypothesis =>
      intro keyPrefix key
      rw [lookupPrefixF.lu.eq_3, entries_stem]
      rcases followStem_cases key pref with ⟨remaining, rfl, result⟩ |
          ⟨byte, more, rfl, result⟩ | ⟨result, notKeyPrefix, notStemPrefix⟩
      · -- the stem starts the key: look for the rest of the key below it
        rw [result]
        dsimp only
        have below := inductionHypothesis (keyPrefix ++ pref) remaining
        rwa [List.append_assoc] at below
      · -- the key ends inside the stem: everything below it has the key as a prefix
        rw [result, filter_entries_of_prefix restWellFormed
          ((List.prefix_append_right_inj _).mpr (List.prefix_append _ _))]
        exact restWellFormed.collect_perm _
      · rw [result, List.filter_eq_nil_iff.mpr]
        · rfl
        intro entry mem isPrefix
        obtain ⟨suffix, same⟩ := restWellFormed.key_of_mem_entries mem
        rw [List.isPrefixOf_iff_prefix, same, List.append_assoc,
          List.prefix_append_right_inj] at isPrefix
        rcases List.prefix_or_prefix_of_prefix isPrefix (List.prefix_append pref suffix) with
          keyPrefix | stemPrefix
        · exact notKeyPrefix keyPrefix
        · exact notStemPrefix stemPrefix
  | @branch vec childLength twoChildren ordered children inductionHypothesis =>
      have wellFormed := WellFormed.branch twoChildren ordered children
      intro keyPrefix key
      cases key with
      | nil =>
          rw [lookupPrefixF.lu.eq_4, List.append_nil,
            filter_entries_of_prefix wellFormed (List.prefix_refl _)]
          exact wellFormed.collect_perm _
      | cons w rest =>
          rw [lookupPrefixF.lu.eq_5]
          split
          · -- no child at `w`: no key starts with `w`
            rename_i absent
            rw [List.filter_eq_nil_iff.mpr]
            · rfl
            intro entry mem isPrefix
            obtain ⟨suffix, same, lookedUp⟩ := (wellFormed.mem_entries _ _).mp mem
            rw [List.isPrefixOf_iff_prefix, same, List.prefix_append_right_inj] at isPrefix
            obtain ⟨tail, rfl⟩ := isPrefix
            rw [List.cons_append, lu_branch_cons, absent] at lookedUp
            cases lookedUp
          · rename_i child found
            refine (inductionHypothesis _ (mem_of_branchAt_eq_some found) _ rest).trans ?_
            apply List.Perm.map
            have nodup : ∀ keyPrefix (t : Trie v) (length : Nat), WellFormed length t →
                ∀ start : List UInt8,
                  ((entries keyPrefix t).filter fun entry => start.isPrefixOf entry.1).Nodup :=
              fun keyPrefix t length wellFormed start =>
                ((wellFormed.ascending keyPrefix).nodup).sublist List.filter_sublist
            rw [List.perm_ext_iff_of_nodup
              (nodup _ _ _ (children _ (mem_of_branchAt_eq_some found)) _) (nodup _ _ _ wellFormed _)]
            intro entry
            exact (wellFormed.mem_filter_branch found keyPrefix rest entry).symm

/-- `findMinF` returns the first entry in traversal order. -/
theorem WellFormed.findMin_eq {length : Nat} {t : Trie v} (wellFormed : WellFormed length t) :
    ∀ keyPrefix, ∃ entry, (entries keyPrefix t).head? = some entry ∧
      findMinF.fm (k := k) keyPrefix t = .ok (packEntry entry) := by
  induction wellFormed with
  | tip value =>
      intro keyPrefix
      exact ⟨(keyPrefix, value), by rw [entries_tip]; rfl, by rw [findMinF.fm.eq_1]; rfl⟩
  | @stem pref rest restLength nonempty restWellFormed inductionHypothesis =>
      intro keyPrefix
      rw [entries_stem, findMinF.fm.eq_2]
      exact inductionHypothesis _
  | @branch vec childLength twoChildren ordered children inductionHypothesis =>
      intro keyPrefix
      obtain ⟨first, others, rfl⟩ : ∃ first others, vec = first :: others := by
        cases vec with
        | nil => simp at twoChildren
        | cons first others => exact ⟨first, others, rfl⟩
      obtain ⟨entry, head, found⟩ :=
        inductionHypothesis first List.mem_cons_self (keyPrefix ++ [first.beIndex])
      refine ⟨entry, ?_, ?_⟩
      · rw [entries_branch, branchesToPairs, List.map_cons, List.flatMap_cons, List.head?_append,
          head]
        rfl
      · rw [findMinF.fm.eq_3]
        simp only [branchesToPairs]
        exact found

end Queries

end Concordium.GlobalState.Persistent.Trie
