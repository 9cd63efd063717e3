import Mathlib.Data.List.Nodup

/-!
Contract: the union of two lists as an ordered-list library computes it: the first list, then the
elements of the second, without repeats, that the first lacks.

Owns:
- `union`, with `mem_union`: its elements are those of either list;
- `nodup_eraseDups` and `mem_foldl_erase`, the facts about removing repeats and erasing elements
  that `mem_union` rests on.

Does not own: order. The union of two ascending lists is not ascending in general: the second
list's new elements come after all of the first.
-/

set_option autoImplicit false

namespace ListUnion

variable {α : Type} [DecidableEq α]

/-- `xs ++ foldl (flip delete) (nub ys) xs`; `List.eraseDups` keeps first occurrences, as `nub`
does. -/
def union (xs ys : List α) : List α :=
  xs ++ xs.foldl (fun remaining x => remaining.erase x) ys.eraseDups

/-- `eraseDups` recurses on the filtered tail, so the induction is on a bound of the length. -/
theorem nodup_eraseDups_of_length_le :
    ∀ (bound : Nat) (l : List α), l.length ≤ bound → l.eraseDups.Nodup
  | _, [], _ => by simp
  | 0, _ :: _, tooLong => absurd tooLong (by simp)
  | bound + 1, a :: as, short => by
      have filtered : (as.filter fun b => !b == a).length ≤ bound :=
        Nat.le_trans (List.length_filter_le _ as) (Nat.le_of_succ_le_succ short)
      rw [List.eraseDups_cons, List.nodup_cons]
      refine ⟨fun listed => ?_, nodup_eraseDups_of_length_le bound _ filtered⟩
      rw [List.mem_eraseDups, List.mem_filter] at listed
      simp at listed

theorem nodup_eraseDups (l : List α) : l.eraseDups.Nodup :=
  nodup_eraseDups_of_length_le l.length l (Nat.le_refl _)

/-- Erasing the elements of `xs` one by one from a list without repeats leaves exactly its
elements outside `xs`. -/
theorem mem_foldl_erase (a : α) :
    ∀ (xs remaining : List α), remaining.Nodup →
      (a ∈ xs.foldl (fun remaining x => remaining.erase x) remaining ↔ a ∈ remaining ∧ a ∉ xs)
  | [], remaining, _ => by simp
  | x :: xs, remaining, distinct => by
      rw [List.foldl_cons, mem_foldl_erase a xs _ (distinct.erase x), distinct.mem_erase_iff,
        List.mem_cons, not_or]
      constructor
      · rintro ⟨⟨differ, listed⟩, notLater⟩
        exact ⟨listed, differ, notLater⟩
      · rintro ⟨listed, differ, notLater⟩
        exact ⟨⟨differ, listed⟩, notLater⟩

theorem mem_union (a : α) (xs ys : List α) : a ∈ union xs ys ↔ a ∈ xs ∨ a ∈ ys := by
  rw [union, List.mem_append, mem_foldl_erase a xs _ (nodup_eraseDups ys), List.mem_eraseDups]
  by_cases first : a ∈ xs <;> simp [first]

end ListUnion
