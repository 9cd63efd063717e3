import Mathlib.Data.List.Lex

/-!
Contract: the persistent trie of `Concordium.GlobalState.Persistent.Trie`, instantiated with the
pure fixpoint, so that unrolling and rolling a node are its constructors.

Owns:
- `FixedTrieKey`, `BranchEntry`, the branch-array helpers `branchAt`, `updateBranch`,
  `pairBranch` and `branchesToPairs`, with the lemmas that say what they return;
- `Trie` (the fixpoint of `TrieF`), `lookupF`, `findMinF`, `followStem`, `lookupPrefixF`,
  `mapReduceF`, `commonPrefix`, `Alteration` and `alterM` in its continuation-passing form;
- `TrieN` with `empty`, `singleton`, `insert`, `delete`, `lookup`, `lookupPrefix`, `adjust`,
  `keys`, `findMin` and `toList`.

Every `error` of the source is an `Except.error` carrying its text. The branch array is a list
in index order; `branchAt` finds the entry with the index, which on the ordered array is what the
source's binary search finds.

Does not own: storage, caching, migration and serialization of tries.
-/

set_option autoImplicit false
set_option linter.dupNamespace false

namespace Concordium.GlobalState.Persistent.Trie

/-- Keys that are a fixed number of bytes. -/
class FixedTrieKey (k : Type) where
  unpackKey : k → List UInt8
  packKey : List UInt8 → k

export FixedTrieKey (unpackKey packKey)

/-! ## Branches -/

structure BranchEntry (r : Type) where
  beIndex : UInt8
  beBranch : r

section Branches

variable {r : Type}

def branchesToPairs (br : List (BranchEntry r)) : List (UInt8 × r) :=
  br.map fun entry => (entry.beIndex, entry.beBranch)

def branchAt (br : List (BranchEntry r)) (i : UInt8) : Option r :=
  (br.find? fun entry => entry.beIndex == i).map (·.beBranch)

/-- `updateBranch`: set (`some`) or clear (`none`) the entry at an index, keeping index order. -/
def updateBranch (i : UInt8) : Option r → List (BranchEntry r) → List (BranchEntry r)
  | some v, br => updl v br
  | none, br => remove br
where
  updl (v : r) : List (BranchEntry r) → List (BranchEntry r)
    | [] => [⟨i, v⟩]
    | p :: rest =>
        match compare i p.beIndex with
        | .lt => ⟨i, v⟩ :: p :: rest
        | .eq => ⟨i, v⟩ :: rest
        | .gt => p :: updl v rest
  remove : List (BranchEntry r) → List (BranchEntry r)
    | [] => []
    | p :: rest =>
        match compare i p.beIndex with
        | .lt => p :: rest
        | .eq => rest
        | .gt => p :: remove rest

/-- `pairBranch`: the branches of two entries with distinct indices. -/
def pairBranch : UInt8 × r → UInt8 × r → List (BranchEntry r)
  | (k1, v1), (k2, v2) => if k1 ≤ k2 then [⟨k1, v1⟩, ⟨k2, v2⟩] else [⟨k2, v2⟩, ⟨k1, v1⟩]

/-- Strictly increasing indices: the shape of the source's branch arrays. -/
def Ordered (br : List (BranchEntry r)) : Prop :=
  (br.map (·.beIndex)).Pairwise (· < ·)

theorem compare_eq (i k : UInt8) :
    compare i k = if i < k then .lt else if i = k then .eq else .gt := rfl

theorem updl_cons (i : UInt8) (v : r) (p : BranchEntry r) (rest : List (BranchEntry r)) :
    updateBranch.updl i v (p :: rest) =
      if i < p.beIndex then ⟨i, v⟩ :: p :: rest
      else if i = p.beIndex then ⟨i, v⟩ :: rest
      else p :: updateBranch.updl i v rest := by
  rw [updateBranch.updl, compare_eq]
  split_ifs <;> rfl

theorem remove_cons (i : UInt8) (p : BranchEntry r) (rest : List (BranchEntry r)) :
    updateBranch.remove i (p :: rest) =
      if i < p.beIndex then p :: rest
      else if i = p.beIndex then rest
      else p :: updateBranch.remove i rest := by
  rw [updateBranch.remove, compare_eq]
  split_ifs <;> rfl

@[simp] theorem branchAt_nil (i : UInt8) : branchAt ([] : List (BranchEntry r)) i = none := rfl

theorem branchAt_cons (entry : BranchEntry r) (rest : List (BranchEntry r)) (i : UInt8) :
    branchAt (entry :: rest) i =
      if entry.beIndex = i then some entry.beBranch else branchAt rest i := by
  by_cases same : entry.beIndex = i
  · simp [branchAt, same]
  · simp [branchAt, same]

theorem mem_of_branchAt_eq_some {br : List (BranchEntry r)} {i : UInt8} {v : r}
    (found : branchAt br i = some v) : (⟨i, v⟩ : BranchEntry r) ∈ br := by
  obtain ⟨entry, entryFound, same⟩ := Option.map_eq_some_iff.mp found
  have index := List.find?_some entryFound
  rw [beq_iff_eq] at index
  obtain ⟨index', branch⟩ := entry
  cases index
  cases same
  exact List.mem_of_find?_eq_some entryFound

/-- After the first entry of ordered branches, no index is at most the first one's. -/
theorem branchAt_rest_of_le {p : BranchEntry r} {rest : List (BranchEntry r)}
    (ordered : Ordered (p :: rest)) {index : UInt8} (le : index ≤ p.beIndex) :
    branchAt rest index = none := by
  rw [Ordered, List.map_cons, List.pairwise_cons] at ordered
  cases found : branchAt rest index with
  | none => rfl
  | some w =>
      have mem := List.mem_map_of_mem (f := (·.beIndex)) (mem_of_branchAt_eq_some found)
      exact absurd (UInt8.lt_of_lt_of_le (ordered.1 index mem) le) (UInt8.lt_irrefl _)

theorem Ordered.tail {p : BranchEntry r} {rest : List (BranchEntry r)}
    (ordered : Ordered (p :: rest)) : Ordered rest := by
  rw [Ordered, List.map_cons, List.pairwise_cons] at ordered
  exact ordered.2

theorem branchAt_eq_some_of_mem {br : List (BranchEntry r)} (ordered : Ordered br)
    {entry : BranchEntry r} (mem : entry ∈ br) :
    branchAt br entry.beIndex = some entry.beBranch := by
  induction br with
  | nil => cases mem
  | cons first rest inductionHypothesis =>
      rw [branchAt_cons]
      rcases List.mem_cons.mp mem with same | later
      · rw [if_pos (by rw [same]), same]
      · have below : first.beIndex < entry.beIndex := by
          rw [Ordered, List.map_cons, List.pairwise_cons] at ordered
          exact ordered.1 entry.beIndex (List.mem_map_of_mem later)
        rw [if_neg (UInt8.ne_of_lt below)]
        exact inductionHypothesis ordered.tail later

/-- On ordered branches an index has an entry exactly when `branchAt` finds it. -/
theorem branchAt_eq_some_iff {br : List (BranchEntry r)} (ordered : Ordered br) (i : UInt8)
    (v : r) : branchAt br i = some v ↔ (⟨i, v⟩ : BranchEntry r) ∈ br :=
  ⟨mem_of_branchAt_eq_some, fun mem => branchAt_eq_some_of_mem ordered mem⟩

theorem mem_updl {i : UInt8} {v : r} {entry : BranchEntry r} :
    ∀ {br : List (BranchEntry r)}, entry ∈ updateBranch.updl i v br → entry = ⟨i, v⟩ ∨ entry ∈ br
  | [], mem => by simpa [updateBranch.updl] using mem
  | p :: rest, mem => by
      rw [updl_cons] at mem
      split_ifs at mem
      · simp only [List.mem_cons] at mem ⊢
        tauto
      · simp only [List.mem_cons] at mem ⊢
        tauto
      · rcases List.mem_cons.mp mem with same | later
        · exact Or.inr (same ▸ List.mem_cons_self)
        · rcases mem_updl later with new | old
          · exact Or.inl new
          · exact Or.inr (List.mem_cons_of_mem p old)

theorem remove_sublist (i : UInt8) :
    ∀ br : List (BranchEntry r), (updateBranch.remove i br).Sublist br
  | [] => List.Sublist.slnil
  | p :: rest => by
      rw [remove_cons]
      split_ifs
      · exact List.Sublist.refl _
      · exact List.sublist_cons_self p rest
      · exact (remove_sublist i rest).cons_cons p

theorem ordered_updl (i : UInt8) (v : r) :
    ∀ {br : List (BranchEntry r)}, Ordered br → Ordered (updateBranch.updl i v br)
  | [], _ => List.pairwise_singleton _ _
  | p :: rest, ordered => by
      have orderedCons := ordered
      rw [Ordered, List.map_cons, List.pairwise_cons] at orderedCons
      rw [updl_cons]
      split_ifs with below same
      · rw [Ordered, List.map_cons, List.pairwise_cons]
        refine ⟨?_, ordered⟩
        intro index mem
        rcases List.mem_cons.mp mem with first | later
        · rw [first]
          exact below
        · exact UInt8.lt_trans below (orderedCons.1 index later)
      · rw [Ordered, List.map_cons, List.pairwise_cons]
        refine ⟨?_, orderedCons.2⟩
        intro index mem
        rw [same]
        exact orderedCons.1 index mem
      · rw [Ordered, List.map_cons, List.pairwise_cons]
        refine ⟨?_, ordered_updl i v orderedCons.2⟩
        intro index mem
        obtain ⟨entry, entryMem, sameIndex⟩ := List.mem_map.mp mem
        rcases mem_updl entryMem with new | old
        · rw [← sameIndex, new]
          dsimp only
          have notBelow : ¬ i.toNat < p.beIndex.toNat := fun lt =>
            below (UInt8.lt_iff_toNat_lt.mpr lt)
          have notSame : i.toNat ≠ p.beIndex.toNat := fun eq => same (UInt8.toNat_inj.mp eq)
          exact UInt8.lt_iff_toNat_lt.mpr (by omega)
        · exact orderedCons.1 index (List.mem_map.mpr ⟨entry, old, sameIndex⟩)

theorem ordered_updateBranch (i : UInt8) (v : Option r) {br : List (BranchEntry r)}
    (ordered : Ordered br) : Ordered (updateBranch i v br) := by
  cases v with
  | some v => exact ordered_updl i v ordered
  | none => exact List.Pairwise.sublist (List.Sublist.map _ (remove_sublist i br)) ordered

/-- Setting an entry: `branchAt` finds the new entry at its index and the old ones elsewhere. -/
theorem branchAt_updl (i : UInt8) (v : r) (j : UInt8) :
    ∀ br : List (BranchEntry r),
      branchAt (updateBranch.updl i v br) j = if j = i then some v else branchAt br j
  | [] => by simp only [updateBranch.updl, branchAt_cons, branchAt_nil, @eq_comm _ i j]
  | p :: rest => by
      rw [updl_cons]
      by_cases below : i < p.beIndex
      · simp only [if_pos below, branchAt_cons, @eq_comm _ i j]
      · rw [if_neg below]
        by_cases atIndex : i = p.beIndex
        · -- the new entry takes the place of the one at its index
          rw [if_pos atIndex]
          simp only [branchAt_cons]
          by_cases same : j = i
          · rw [if_pos same.symm, if_pos same]
          · rw [if_neg (Ne.symm same), if_neg same,
              if_neg (fun eq => same (eq.symm.trans atIndex.symm))]
        · rw [if_neg atIndex, branchAt_cons, branchAt_cons, branchAt_updl i v j rest]
          by_cases same : j = i
          · rw [if_pos same, if_pos same, if_neg (fun eq => atIndex (eq.trans same).symm)]
          · rw [if_neg same, if_neg same]

/-- Clearing an entry of ordered branches: `branchAt` no longer finds it, and finds the others. -/
theorem branchAt_remove (i j : UInt8) :
    ∀ {br : List (BranchEntry r)}, Ordered br →
      branchAt (updateBranch.remove i br) j = if j = i then none else branchAt br j
  | [], _ => by simp [updateBranch.remove]
  | p :: rest, ordered => by
      rw [remove_cons]
      by_cases below : i < p.beIndex
      · -- every index is above `i`: there is nothing to clear
        rw [if_pos below]
        by_cases same : j = i
        · rw [if_pos same, same, branchAt_cons, if_neg (UInt8.ne_of_lt below).symm,
            branchAt_rest_of_le ordered (UInt8.le_of_lt below)]
        · rw [if_neg same]
      · rw [if_neg below]
        by_cases atIndex : i = p.beIndex
        · rw [if_pos atIndex]
          by_cases same : j = i
          · rw [if_pos same, same, atIndex]
            exact branchAt_rest_of_le ordered (UInt8.le_refl _)
          · rw [if_neg same, branchAt_cons,
              if_neg (fun eq => same (eq.symm.trans atIndex.symm))]
        · rw [if_neg atIndex, branchAt_cons, branchAt_cons, branchAt_remove i j ordered.tail]
          by_cases same : j = i
          · rw [if_pos same, if_pos same, if_neg (fun eq => atIndex (eq.trans same).symm)]
          · rw [if_neg same, if_neg same]

theorem branchAt_updateBranch (i j : UInt8) (v : Option r) {br : List (BranchEntry r)}
    (ordered : Ordered br) :
    branchAt (updateBranch i v br) j = if j = i then v else branchAt br j := by
  cases v with
  | some v => exact branchAt_updl i v j br
  | none => exact branchAt_remove i j ordered

theorem branchAt_pairBranch {k1 k2 : UInt8} (distinct : k1 ≠ k2) (v1 v2 : r) (j : UInt8) :
    branchAt (pairBranch (k1, v1) (k2, v2)) j =
      if j = k1 then some v1 else if j = k2 then some v2 else none := by
  rw [pairBranch]
  by_cases le : k1 ≤ k2
  · simp only [if_pos le, branchAt_cons, branchAt_nil, @eq_comm _ k1 j, @eq_comm _ k2 j]
  · simp only [if_neg le, branchAt_cons, branchAt_nil]
    by_cases first : j = k1
    · rw [if_pos first, if_neg (fun eq => distinct (first.symm.trans eq.symm)), if_pos first.symm]
    · rw [if_neg first, if_neg (Ne.symm first)]
      simp only [@eq_comm _ k2 j]

theorem ordered_pairBranch {k1 k2 : UInt8} (distinct : k1 ≠ k2) (v1 v2 : r) :
    Ordered (pairBranch (k1, v1) (k2, v2)) := by
  have distinctNat : k1.toNat ≠ k2.toNat := fun same => distinct (UInt8.toNat_inj.mp same)
  by_cases le : k1 ≤ k2
  · have lt : k1 < k2 := UInt8.lt_iff_toNat_lt.mpr (by
      have := UInt8.le_iff_toNat_le.mp le
      omega)
    simp [pairBranch, le, Ordered, lt]
  · have lt : k2 < k1 := UInt8.lt_iff_toNat_lt.mpr (by
      have := UInt8.le_iff_toNat_le.not.mp le
      omega)
    simp [pairBranch, le, Ordered, lt]

theorem mem_pairBranch {k1 k2 : UInt8} {v1 v2 : r} {entry : BranchEntry r}
    (mem : entry ∈ pairBranch (k1, v1) (k2, v2)) : entry = ⟨k1, v1⟩ ∨ entry = ⟨k2, v2⟩ := by
  by_cases le : k1 ≤ k2
  · simpa [pairBranch, le] using mem
  · simp only [pairBranch, le, if_false, List.mem_cons, List.not_mem_nil, or_false] at mem
    exact mem.symm

end Branches

/-! ## The trie -/

/-- `Trie`, the fixpoint of `TrieF`: a branch on the next byte of the key, a stem giving the
next bytes of the key, or a value. -/
inductive Trie (v : Type) where
  | branch (branches : List (BranchEntry (Trie v)))
  | stem (pref : List UInt8) (rest : Trie v)
  | tip (value : v)

variable {k v : Type}

theorem sizeOf_lt_of_mem_pairs {vec : List (BranchEntry (Trie v))} {i : UInt8} {r : Trie v}
    (mem : (i, r) ∈ branchesToPairs vec) : sizeOf r < sizeOf (Trie.branch vec) := by
  obtain ⟨entry, entryMem, same⟩ := List.mem_map.mp mem
  have entryLt := List.sizeOf_lt_of_mem entryMem
  obtain ⟨index, branch⟩ := entry
  cases same
  simp only [Trie.branch.sizeOf_spec, BranchEntry.mk.sizeOf_spec] at entryLt ⊢
  omega

theorem sizeOf_lt_of_branchAt {vec : List (BranchEntry (Trie v))} {i : UInt8} {r : Trie v}
    (found : branchAt vec i = some r) : sizeOf r < sizeOf (Trie.branch vec) :=
  sizeOf_lt_of_mem_pairs (List.mem_map.mpr ⟨_, mem_of_branchAt_eq_some found, rfl⟩)

theorem sizeOf_lt_stem (pref : List UInt8) (rest : Trie v) :
    sizeOf rest < sizeOf (Trie.stem pref rest) := by
  rw [Trie.stem.sizeOf_spec]
  omega

variable [FixedTrieKey k]

/-- `lookupF`: the value at a key. -/
def lookupF (key : k) (t : Trie v) : Option v := lu (unpackKey key) t
where
  lu : List UInt8 → Trie v → Option v
    | [], .tip v => some v
    | _, .tip _ => none
    | key, .stem pref r =>
        match key.dropPrefix? pref with
        | none => none
        | some key' => lu key' r
    | [], .branch _ => none
    | w :: key', .branch vec =>
        match _found : branchAt vec w with
        | none => none
        | some r => lu key' r
  termination_by _ t => t
  decreasing_by
    · exact sizeOf_lt_stem _ _
    · exact sizeOf_lt_of_branchAt _found

/-- `findMinF`: the entry with the least key, following the first branch at every branching. -/
def findMinF (t : Trie v) : Except String (k × v) := fm [] t
where
  fm : List UInt8 → Trie v → Except String (k × v)
    | key, .tip v => pure (packKey key, v)
    | key, .stem pref r => fm (key ++ pref) r
    | key, .branch vec =>
        match _pairs : branchesToPairs vec with
        | (i, r) :: _ => fm (key ++ [i]) r
        | [] => throw "findMin: Empty branches in trie"
  termination_by _ t => t
  decreasing_by
    · exact sizeOf_lt_stem _ _
    · exact sizeOf_lt_of_mem_pairs (_pairs ▸ List.mem_cons_self)

inductive FollowStemResult where
  | equal
  | keyIsPrefix
  | stemIsPrefix (remainingKey : List UInt8)
  | diff

/-- `followStem`: compare a key (first) with a stem (second). -/
def followStem : List UInt8 → List UInt8 → FollowStemResult
  | keyStep :: remainingKey, stemStep :: remainingStem =>
      if keyStep ≠ stemStep then .diff else followStem remainingKey remainingStem
  | [], _ :: _ => .keyIsPrefix
  | remainingKey, [] => .stemIsPrefix remainingKey

/-- What `followStem` finds: the stem starts the key, the key is a proper prefix of the stem, or
neither is a prefix of the other; it never answers `equal`. -/
theorem followStem_cases (key pref : List UInt8) :
    (∃ remaining, key = pref ++ remaining ∧ followStem key pref = .stemIsPrefix remaining) ∨
      (∃ byte more, pref = key ++ byte :: more ∧ followStem key pref = .keyIsPrefix) ∨
      (followStem key pref = .diff ∧ ¬ key <+: pref ∧ ¬ pref <+: key) := by
  fun_induction followStem key pref with
  | case1 keyStep remainingKey stemStep remainingStem differ =>
      refine Or.inr (Or.inr ⟨rfl, ?_, ?_⟩)
      · intro isPrefix
        exact differ (List.cons_prefix_cons.mp isPrefix).1
      · intro isPrefix
        exact differ (List.cons_prefix_cons.mp isPrefix).1.symm
  | case2 keyStep remainingKey stemStep remainingStem same inductionHypothesis =>
      rw [not_not.mp same]
      rcases inductionHypothesis with ⟨remaining, split, result⟩ | ⟨byte, more, split, result⟩ |
          ⟨result, notKeyPrefix, notStemPrefix⟩
      · exact Or.inl ⟨remaining, by rw [split, List.cons_append], result⟩
      · exact Or.inr (Or.inl ⟨byte, more, by rw [split, List.cons_append], result⟩)
      · refine Or.inr (Or.inr ⟨result, ?_, ?_⟩)
        · exact fun isPrefix => notKeyPrefix (List.cons_prefix_cons.mp isPrefix).2
        · exact fun isPrefix => notStemPrefix (List.cons_prefix_cons.mp isPrefix).2
  | case3 stemStep remainingStem =>
      exact Or.inr (Or.inl ⟨stemStep, remainingStem, rfl, rfl⟩)
  | case4 remainingKey =>
      exact Or.inl ⟨remainingKey, rfl, rfl⟩

/-- `collect` of `lookupPrefixF`: every entry below a node, each branch's entries put before
those of the branches ahead of it. -/
def lookupPrefixF.collect : List UInt8 → Trie v → List (k × v)
  | keyPrefix, .tip v => [(packKey keyPrefix, v)]
  | keyPrefix, .stem pref r => collect (keyPrefix ++ pref) r
  | keyPrefix, .branch vec =>
      (branchesToPairs vec).attach.foldl
        (fun acc pair => collect (keyPrefix ++ [pair.1.1]) pair.1.2 ++ acc) []
termination_by _ t => t
decreasing_by
  · exact sizeOf_lt_stem _ _
  · exact sizeOf_lt_of_mem_pairs pair.2

/-- `lookupPrefixF`: every entry whose key starts with the given bytes. -/
def lookupPrefixF (ks : List UInt8) (t : Trie v) : List (k × v) := lu [] ks t
where
  lu : List UInt8 → List UInt8 → Trie v → List (k × v)
    | pfx, [], .tip v => [(packKey pfx, v)]
    | _, _, .tip _ => []
    | pfx, key, .stem pref r =>
        match followStem key pref with
        | .stemIsPrefix remainingKey => lu (pfx ++ pref) remainingKey r
        | .diff => []
        | .equal => lu (pfx ++ pref) [] r
        | .keyIsPrefix => lookupPrefixF.collect (pfx ++ pref) r
    | pfx, [], .branch vec => lookupPrefixF.collect pfx (.branch vec)
    | pfx, w :: key', .branch vec =>
        match _found : branchAt vec w with
        | none => []
        | some r => lu (pfx ++ [w]) key' r
  termination_by _ _ t => t
  decreasing_by
    · exact sizeOf_lt_stem _ _
    · exact sizeOf_lt_stem _ _
    · exact sizeOf_lt_of_branchAt _found

/-- `mapReduceF`, for list results: the entries' images in increasing byte order of keys. -/
def mapReduceF {α : Type} (mfun : k → v → List α) (t : Trie v) : List α := mr [] t
where
  mr : List UInt8 → Trie v → List α
    | keyPrefix, .tip v => mfun (packKey keyPrefix) v
    | keyPrefix, .stem pref r => mr (keyPrefix ++ pref) r
    | keyPrefix, .branch vec =>
        ((branchesToPairs vec).attach.map fun pair => mr (keyPrefix ++ [pair.1.1]) pair.1.2).flatten
  termination_by _ t => t
  decreasing_by
    · exact sizeOf_lt_stem _ _
    · exact sizeOf_lt_of_mem_pairs pair.2

/-- `commonPrefix`: the common prefix of two lists and what follows it in each. -/
def commonPrefix {α : Type} [DecidableEq α] : List α → List α → List α × List α × List α
  | [], [] => ([], [], [])
  | h1 :: t1, h2 :: t2 =>
      if h1 = h2 then
        let (p, r1, r2) := commonPrefix t1 t2
        (h1 :: p, r1, r2)
      else ([], h1 :: t1, h2 :: t2)
  | l1, l2 => ([], l1, l2)

/-- `commonPrefix` splits both lists after their longest common prefix, where they differ. -/
theorem commonPrefix_spec {α : Type} [DecidableEq α] :
    ∀ (l1 l2 : List α) {common rest1 rest2 : List α},
      commonPrefix l1 l2 = (common, rest1, rest2) →
        l1 = common ++ rest1 ∧ l2 = common ++ rest2 ∧
          ∀ h1 t1 h2 t2, rest1 = h1 :: t1 → rest2 = h2 :: t2 → h1 ≠ h2
  | [], [], _, _, _, split => by
      simp only [commonPrefix, Prod.mk.injEq] at split
      obtain ⟨rfl, rfl, rfl⟩ := split
      exact ⟨rfl, rfl, fun _ _ _ _ first => by cases first⟩
  | [], b :: bs, _, _, _, split => by
      simp only [commonPrefix, Prod.mk.injEq] at split
      obtain ⟨rfl, rfl, rfl⟩ := split
      exact ⟨rfl, rfl, fun _ _ _ _ first => by cases first⟩
  | a :: as, [], _, _, _, split => by
      simp only [commonPrefix, Prod.mk.injEq] at split
      obtain ⟨rfl, rfl, rfl⟩ := split
      exact ⟨rfl, rfl, fun _ _ _ _ _ second => by cases second⟩
  | a :: as, b :: bs, _, _, _, split => by
      simp only [commonPrefix] at split
      split_ifs at split with same
      · generalize recursive : commonPrefix as bs = result at split
        obtain ⟨common', rest1', rest2'⟩ := result
        simp only [Prod.mk.injEq] at split
        obtain ⟨rfl, rfl, rfl⟩ := split
        obtain ⟨first, second, differ⟩ := commonPrefix_spec as bs recursive
        refine ⟨?_, ?_, differ⟩
        · rw [List.cons_append, ← first]
        · rw [List.cons_append, ← second, same]
      · simp only [Prod.mk.injEq] at split
        obtain ⟨rfl, rfl, rfl⟩ := split
        refine ⟨rfl, rfl, ?_⟩
        intro h1 t1 h2 t2 first second
        cases first
        cases second
        exact same

inductive Alteration (v : Type) where
  | noChange
  | remove
  | insert (value : v)

/-- `alterM`: alter the value at a key. The result is `none` when the trie would be empty. -/
def alterM {α : Type} (key : k) (upd : Option v → α × Alteration v) (pt0 : Trie v) :
    Except String (α × Option (Trie v)) :=
  aM upd (unpackKey key) pt0 (fun res => pure (res, some pt0)) (fun res => pure (res, none))
    fun res skey t =>
      match skey with
      | [] => pure (res, some t)
      | skey => pure (res, some (.stem skey t))
where
  /-- The recursion: `nochange`, `remove` and `update` say what to do when the subtrie is
  unchanged, becomes empty, or becomes the given trie under the given stem. -/
  aM {ζ : Type} (upd : Option v → α × Alteration v) : List UInt8 → Trie v →
      (α → Except String ζ) → (α → Except String ζ) →
      (α → List UInt8 → Trie v → Except String ζ) → Except String ζ
    | [], .tip v0, nochange, remove, update =>
        match upd (some v0) with
        | (res, .insert v) => update res [] (.tip v)
        | (res, .remove) => remove res
        | (res, .noChange) => nochange res
    | _, .tip _, _, _, _ => throw "Key too long"
    | [], .branch _, _, _, _ => throw "Key too short"
    | kw :: key', .branch vec, nochange, remove, update =>
        match _found : branchAt vec kw with
        | none =>
            match upd none with
            | (res, .insert v) =>
                let stem := if key'.isEmpty then Trie.tip v else .stem key' (.tip v)
                update res [] (.branch (updateBranch kw (some stem) vec))
            | (res, _) => nochange res
        | some b =>
            let myupdate := fun res skey t' =>
              match skey with
              | [] => update res [] (.branch (updateBranch kw (some t') vec))
              | skey => update res [] (.branch (updateBranch kw (some (.stem skey t')) vec))
            let myremove := fun res =>
              let vec' := updateBranch kw none vec
              match branchesToPairs vec' with
              | [] => remove res
              | [(i, x)] => update res [i] x
              | _ => update res [] (.branch vec')
            aM upd key' b nochange myremove myupdate
    | key, .stem pref r, nochange, remove, update =>
        match commonPrefix key pref with
        | (_, key', []) =>
            aM upd key' r nochange remove fun res skey t' => update res (pref ++ skey) t'
        | (_, [], _ :: _) => throw "Key too short"
        | (pref', hk :: tk, hr :: tr) =>
            match upd none with
            | (res, .insert v) =>
                let rbranch := if tr.isEmpty then r else .stem tr r
                let kbranch := if tk.isEmpty then Trie.tip v else .stem tk (.tip v)
                -- `pref'` is the common prefix, so `hk ≠ hr`
                update res pref' (.branch (pairBranch (hr, rbranch) (hk, kbranch)))
            | (res, _) => nochange res
  termination_by _ t => t
  decreasing_by
    · exact sizeOf_lt_of_branchAt _found
    · exact sizeOf_lt_stem _ _

/-! ## Tries with their size -/

/-- `TrieN`: the empty trie, or a trie with its number of entries. -/
inductive TrieN (k v : Type) where
  | emptyTrieN
  | trieN (size : Int) (trie : Trie v)

def empty : TrieN k v := .emptyTrieN

def singleton (key : k) (value : v) : TrieN k v :=
  .trieN 1 (.stem (unpackKey key) (.tip value))

def insert (key : k) (value : v) : TrieN k v → Except String (TrieN k v)
  | .emptyTrieN => pure (singleton key value)
  | .trieN s t => do
      let (inc, mt') ← alterM key (alt value) t
      match mt' with
      | some t' => pure (.trieN (if inc then s + 1 else s) t')
      | none => pure .emptyTrieN
where
  alt (value : v) : Option v → Bool × Alteration v
    | none => (true, .insert value)
    | some _ => (false, .insert value)

def delete (key : k) : TrieN k v → Except String (TrieN k v)
  | .emptyTrieN => pure .emptyTrieN
  | .trieN s t => do
      let (dec, mt') ← alterM key alt t
      match mt' with
      | some t' => pure (.trieN (if dec then s - 1 else s) t')
      | none => pure .emptyTrieN
where
  alt : Option v → Bool × Alteration v
    | none => (false, .remove)
    | some _ => (true, .remove)

def lookup (key : k) : TrieN k v → Option v
  | .emptyTrieN => none
  | .trieN _ t => lookupF key t

def lookupPrefix (key : List UInt8) : TrieN k v → List (k × v)
  | .emptyTrieN => []
  | .trieN _ t => lookupPrefixF key t

def adjust {α : Type} (adj : Option v → α × Alteration v) (key : k) :
    TrieN k v → Except String (α × TrieN k v)
  | .emptyTrieN =>
      match adj none with
      | (res, .insert v) => pure (res, singleton key v)
      | (res, _) => pure (res, .emptyTrieN)
  | .trieN s t => do
      let ((s', res), mt') ← alterM key (fun i => ur s i (adj i)) t
      match mt' with
      | some t' => pure (res, .trieN s' t')
      | none => pure (res, .emptyTrieN)
where
  /-- The size after the alteration travels with the result. -/
  ur (s : Int) : Option v → α × Alteration v → (Int × α) × Alteration v
    | none, (a, .insert v) => ((s + 1, a), .insert v)
    | none, (a, r) => ((s, a), r)
    | some _, (a, .remove) => ((s - 1, a), .remove)
    | some _, (a, r) => ((s, a), r)

def keys : TrieN k v → List k
  | .emptyTrieN => []
  | .trieN _ t => mapReduceF (fun key _ => [key]) t

def findMin : TrieN k v → Except String (Option (k × v))
  | .emptyTrieN => pure none
  | .trieN _ t => some <$> findMinF t

def toList : TrieN k v → List (k × v)
  | .emptyTrieN => []
  | .trieN _ t => mapReduceF (fun key value => [(key, value)]) t

end Concordium.GlobalState.Persistent.Trie
