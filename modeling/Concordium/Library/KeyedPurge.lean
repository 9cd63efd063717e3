import Mathlib.Logic.Function.Basic
import Mathlib.Data.List.Basic
import Mathlib.Data.List.Nodup

/-!
Contract: purging a list of elements from a table keyed by a function of the element. Each element
is looked up under its key; if it is to be dropped given the entry found there, the entry is
deleted and the element left out, otherwise the element is kept. With distinct keys each decision
sees the original entry, so the purge is a filter of the elements and a deletion of the keys of
the dropped ones.

Owns:
- `purgeStep`, one element, and `purgedTable`, the table with the keys of the dropped elements
  deleted, which depends only on which elements there are (`purgedTable_congr`);
- `foldl_purgeStep`: a left fold of `purgeStep` over elements of distinct keys puts the kept
  elements, reversed, before those already kept, and leaves `purgedTable`;
- `purgedTable_append`: purging one list after another, with no key in common, is purging both;
  `purgedTable_of_forall_ne`: purging leaves the keys of no element alone;
  `purgedTable_of_mem`: the key of one element alone is purged by its test; and
  `purgedTable_eq_some`: an entry left is the original one.

Does not own: any particular table or element.
-/

set_option autoImplicit false

namespace KeyedPurge

variable {α κ β : Type} [DecidableEq κ] (key : α → κ) (drop : α → Option β → Bool)

/-- One element: dropped, with the entry under its key deleted, or kept. -/
def purgeStep (acc : List α × (κ → Option β)) (element : α) : List α × (κ → Option β) :=
  if drop element (acc.2 (key element)) then (acc.1, Function.update acc.2 (key element) none)
  else (element :: acc.1, acc.2)

/-- The table after purging `elements` from `table`: the entry under the key of every dropped
element deleted. -/
def purgedTable (elements : List α) (table : κ → Option β) (query : κ) : Option β :=
  if elements.any fun element => decide (key element = query) && drop element (table query) then
    none
  else table query

variable {key drop}

@[simp]
theorem purgedTable_nil (table : κ → Option β) : purgedTable key drop [] table = table :=
  rfl

theorem purgedTable_congr {first second : List α}
    (same : ∀ element, element ∈ first ↔ element ∈ second) (table : κ → Option β) :
    purgedTable key drop first table = purgedTable key drop second table := by
  funext query
  have anySame : (first.any fun element => decide (key element = query) &&
      drop element (table query)) =
        second.any fun element => decide (key element = query) && drop element (table query) := by
    rw [Bool.eq_iff_iff, List.any_eq_true, List.any_eq_true]
    exact ⟨fun ⟨element, listed, holds⟩ => ⟨element, (same element).mp listed, holds⟩,
      fun ⟨element, listed, holds⟩ => ⟨element, (same element).mpr listed, holds⟩⟩
  rw [purgedTable, purgedTable, anySame]

/-- A key that no element has is left alone. -/
theorem purgedTable_of_forall_ne {elements : List α} {table : κ → Option β} {query : κ}
    (absent : ∀ element ∈ elements, key element ≠ query) :
    purgedTable key drop elements table query = table query := by
  rw [purgedTable, if_neg]
  simp only [List.any_eq_true, Bool.and_eq_true, decide_eq_true_eq, not_exists, not_and]
  exact fun element listed same => absurd same (absent element listed)

/-- The key of an element no other element has is purged by that element alone. -/
theorem purgedTable_of_mem {elements : List α} {table : κ → Option β} {element : α}
    (listed : element ∈ elements) (distinct : (elements.map key).Nodup) :
    purgedTable key drop elements table (key element) =
      if drop element (table (key element)) then none else table (key element) := by
  have alone : ∀ other ∈ elements, key other = key element → other = element :=
    fun other otherListed same => List.inj_on_of_nodup_map distinct otherListed listed same
  have anyIff : (elements.any fun other => decide (key other = key element) &&
      drop other (table (key element))) = drop element (table (key element)) := by
    rw [Bool.eq_iff_iff, List.any_eq_true]
    constructor
    · rintro ⟨other, otherListed, holds⟩
      rw [Bool.and_eq_true, decide_eq_true_eq] at holds
      obtain rfl := alone other otherListed holds.1
      exact holds.2
    · intro drops
      exact ⟨element, listed, by simp [drops]⟩
  rw [purgedTable, anyIff]

/-- An entry that is left is the original one. -/
theorem purgedTable_eq_some {elements : List α} {table : κ → Option β} {query : κ} {entry : β}
    (left : purgedTable key drop elements table query = some entry) : table query = some entry := by
  rw [purgedTable] at left
  split_ifs at left
  exact left

/-- An entry that goes was under the key of an element dropped given that entry. -/
theorem exists_of_purgedTable_eq_none {elements : List α} {table : κ → Option β} {query : κ}
    {entry : β} (present : table query = some entry)
    (gone : purgedTable key drop elements table query = none) :
    ∃ element ∈ elements, key element = query ∧ drop element (some entry) = true := by
  rw [purgedTable] at gone
  split_ifs at gone with dropped
  · simp only [List.any_eq_true, Bool.and_eq_true, decide_eq_true_eq] at dropped
    obtain ⟨element, listed, same, drops⟩ := dropped
    exact ⟨element, listed, same, present ▸ drops⟩
  · rw [present] at gone
    exact absurd gone (Option.some_ne_none _)

/-- Purging after a first purge whose elements share no key with the second's is purging both. -/
theorem purgedTable_append (first second : List α) (table : κ → Option β)
    (disjoint : ∀ earlier ∈ first, ∀ later ∈ second, key earlier ≠ key later) :
    purgedTable key drop second (purgedTable key drop first table) =
      purgedTable key drop (first ++ second) table := by
  funext query
  by_cases owned : ∃ earlier ∈ first, key earlier = query
  · -- the key is the first list's, so the second purge leaves it alone
    obtain ⟨earlier, listed, same⟩ := owned
    rw [purgedTable_of_forall_ne fun later laterListed =>
      same ▸ (disjoint earlier listed later laterListed).symm]
    simp only [purgedTable, List.any_append]
    have secondFalse : (second.any fun element => decide (key element = query) &&
        drop element (table query)) = false := by
      rw [List.any_eq_false]
      intro later laterListed
      simp only [Bool.and_eq_true, decide_eq_true_eq, not_and]
      exact fun sameLater => absurd (same.trans sameLater.symm)
        (disjoint earlier listed later laterListed)
    rw [secondFalse, Bool.or_false]
  · -- the key is none of the first list's, so the first purge leaves it alone
    have absent : ∀ element ∈ first, key element ≠ query := fun element listed same =>
      owned ⟨element, listed, same⟩
    have firstFalse : (first.any fun element => decide (key element = query) &&
        drop element (table query)) = false := by
      rw [List.any_eq_false]
      intro element listed
      simp only [Bool.and_eq_true, decide_eq_true_eq, not_and]
      exact fun same => absurd same (absent element listed)
    simp only [purgedTable, List.any_append, firstFalse, Bool.false_or, Bool.false_eq_true, if_false]

/-- Purging one element is one `purgeStep` on the table. -/
theorem purgedTable_singleton (element : α) (table : κ → Option β) :
    purgedTable key drop [element] table =
      (purgeStep key drop ([], table) element).2 := by
  funext query
  simp only [purgedTable, purgeStep, List.any_cons, List.any_nil, Bool.or_false]
  by_cases same : key element = query
  · subst same
    split_ifs <;> simp_all
  · split_ifs <;> simp_all [Function.update_of_ne (Ne.symm same)]

/-- Folding `purgeStep` over elements of distinct keys keeps, reversed before those already kept,
the elements not dropped given the original table, and leaves `purgedTable`. -/
theorem foldl_purgeStep (elements : List α) (distinct : (elements.map key).Nodup) :
    ∀ (kept : List α) (table : κ → Option β),
      elements.foldl (purgeStep key drop) (kept, table) =
        ((elements.filter fun element => !drop element (table (key element))).reverse ++ kept,
          purgedTable key drop elements table) := by
  induction elements with
  | nil =>
      intro kept table
      simp only [List.foldl_nil, List.filter_nil, List.reverse_nil, List.nil_append, purgedTable_nil]
  | cons element rest restFold =>
      intro kept table
      rw [List.map_cons, List.nodup_cons] at distinct
      have others : ∀ later ∈ rest, key later ≠ key element := fun later listed same =>
        distinct.1 (same ▸ List.mem_map_of_mem listed)
      -- the first element's decision is the purge of it alone; the rest see its result
      have split : purgedTable key drop (element :: rest) table =
          purgedTable key drop rest (purgeStep key drop ([], table) element).2 := by
        rw [← purgedTable_singleton, purgedTable_append [element] rest table
          fun earlier listed later laterListed => by
            rw [List.mem_singleton.mp listed]
            exact (others later laterListed).symm]
        rfl
      rw [split, List.foldl_cons, purgeStep, purgeStep]
      by_cases dropped : drop element (table (key element)) = true
      · -- the element's entry goes; no later element reads it
        rw [if_pos dropped, if_pos dropped, restFold distinct.2]
        have sameRest : (rest.filter fun later =>
            !drop later (Function.update table (key element) none (key later))) =
              rest.filter fun later => !drop later (table (key later)) :=
          List.filter_congr fun later listed => by
            rw [Function.update_of_ne (others later listed)]
        rw [sameRest, List.filter_cons_of_neg (by simp [dropped])]
      · -- the element is kept and the table is unchanged
        rw [if_neg dropped, if_neg dropped, restFold distinct.2,
          List.filter_cons_of_pos (by simpa using dropped), List.reverse_cons,
          List.append_assoc, List.singleton_append]

end KeyedPurge
