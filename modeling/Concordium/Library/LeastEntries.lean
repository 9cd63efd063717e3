import Mathlib.Data.List.Sort

/-!
Contract: the `cap` entries of least key of a list whose keys are distinct, in ascending order of
key, and how they change when one more entry arrives. This is what a sorted store capped at `cap`
entries holds when it evicts its greatest entry to admit a smaller one.

Owns:
- `leastEntries`: the entries sorted by key, the first `cap` of them;
- `pairwise_lt_of_nodup`: entries sorted by key, with distinct keys, ascend strictly;
- `insertionSort_append_singleton`: with distinct keys, sorting one more entry at the end
  inserts it into the sorted entries;
- the three arrivals: while fewer than `cap` entries are kept the new one is inserted
  (`leastEntries_append_of_length_lt`); when `cap` are kept it displaces the greatest of them if
  its key is below that one's (`leastEntries_append_of_lt_last`) and is dropped if above
  (`leastEntries_append_of_last_lt`).

Does not own: any store. A capped map is shown to follow these lemmas where it is modelled.
-/

set_option autoImplicit false

namespace LeastEntries

open scoped List

variable {α κ : Type} [LinearOrder κ] (key : α → κ)

/-- The `cap` entries of least key, in ascending order of key. -/
def leastEntries (cap : Nat) (entries : List α) : List α :=
  (entries.insertionSort fun first second => key first ≤ key second).take cap

variable {key}

theorem mem_of_mem_leastEntries {cap : Nat} {entries : List α} {entry : α}
    (kept : entry ∈ leastEntries key cap entries) : entry ∈ entries :=
  (List.perm_insertionSort _ _).mem_iff.mp (List.mem_of_mem_take kept)

/-- Entries sorted by key, with distinct keys, ascend strictly. -/
theorem pairwise_lt_of_nodup {entries : List α}
    (sorted : entries.Pairwise fun first second => key first ≤ key second)
    (distinct : (entries.map key).Nodup) :
    entries.Pairwise fun first second => key first < key second :=
  (sorted.and (List.pairwise_map.mp distinct)).imp fun bounds => lt_of_le_of_ne bounds.1 bounds.2

/-- With distinct keys, sorting with one more entry at the end inserts that entry into the
sorted entries. -/
theorem insertionSort_append_singleton {entries : List α} {entry : α}
    (distinct : ((entries ++ [entry]).map key).Nodup) :
    (entries ++ [entry]).insertionSort (fun first second => key first ≤ key second) =
      (entries.insertionSort fun first second => key first ≤ key second).orderedInsert
        (fun first second => key first ≤ key second) entry := by
  have perm : (entries ++ [entry]).insertionSort (fun first second => key first ≤ key second) ~
      (entries.insertionSort fun first second => key first ≤ key second).orderedInsert
        (fun first second => key first ≤ key second) entry :=
    calc _ ~ entries ++ [entry] := List.perm_insertionSort _ _
      _ ~ entry :: entries := List.perm_append_singleton _ _
      _ ~ entry :: entries.insertionSort _ := ((List.perm_insertionSort _ _).symm).cons _
      _ ~ _ := (List.perm_orderedInsert _ _ _).symm
  -- both sides are sorted with the distinct keys of the entries, so they ascend strictly
  have sortedLeft := pairwise_lt_of_nodup (List.pairwise_insertionSort _ _)
    ((List.perm_insertionSort _ _).map key |>.nodup_iff.mpr distinct)
  have sortedRight := pairwise_lt_of_nodup
    ((List.pairwise_insertionSort _ entries).orderedInsert entry _)
    ((perm.map key).nodup_iff.mp (((List.perm_insertionSort _ _).map key).nodup_iff.mpr distinct))
  exact perm.eq_of_pairwise (fun _ _ _ _ below above => absurd below (not_lt.mpr above.le))
    sortedLeft sortedRight

/-! ## One more entry, in the sorted entries -/

/-- An entry below the last of the first `front.length + 1` sorted entries takes the last one's
place among them. -/
theorem take_orderedInsert_of_lt_last {entry last : α} :
    ∀ {sorted front : List α}, sorted.take (front.length + 1) = front ++ [last] →
      key entry < key last →
      (sorted.orderedInsert (fun first second => key first ≤ key second) entry).take
          (front.length + 1) =
        front.orderedInsert (fun first second => key first ≤ key second) entry
  | [], front, kept, _ => absurd kept (by simp)
  | head :: rest, [], kept, below => by
      rw [List.length_nil, List.take_succ_cons, List.take_zero, List.nil_append,
        List.cons.injEq] at kept
      obtain ⟨rfl, -⟩ := kept
      rw [List.orderedInsert_cons, if_pos below.le]
      rfl
  | head :: rest, first :: front, kept, below => by
      rw [List.length_cons, List.take_succ_cons, List.cons_append, List.cons.injEq] at kept
      obtain ⟨rfl, kept⟩ := kept
      rw [List.orderedInsert_cons, List.orderedInsert_cons]
      split_ifs with before
      · -- the new entry comes first, and the old prefix loses its last entry
        have shorter : rest.take front.length = front := by
          have := congrArg (List.take front.length) kept
          rwa [List.take_take, min_eq_left (Nat.le_succ _), List.take_left' rfl] at this
        rw [List.length_cons, List.take_succ_cons, List.take_succ_cons, shorter]
      · rw [List.length_cons, List.take_succ_cons, take_orderedInsert_of_lt_last kept below]

/-- An entry above the last of the first `front.length + 1` sorted entries leaves them as they
are. -/
theorem take_orderedInsert_of_last_lt {entry last : α} :
    ∀ {sorted front : List α}, sorted.Pairwise (fun first second => key first ≤ key second) →
      sorted.take (front.length + 1) = front ++ [last] → key last < key entry →
      (sorted.orderedInsert (fun first second => key first ≤ key second) entry).take
          (front.length + 1) = front ++ [last]
  | [], front, _, kept, _ => absurd kept (by simp)
  | head :: rest, [], _, kept, above => by
      rw [List.length_nil, List.take_succ_cons, List.take_zero, List.nil_append,
        List.cons.injEq] at kept
      obtain ⟨rfl, -⟩ := kept
      rw [List.orderedInsert_cons, if_neg (not_le.mpr above)]
      rfl
  | head :: rest, first :: front, sorted, kept, above => by
      rw [List.pairwise_cons] at sorted
      rw [List.length_cons, List.take_succ_cons, List.cons_append, List.cons.injEq] at kept
      obtain ⟨rfl, kept⟩ := kept
      -- the head is at most the last kept entry, so below the new one
      have lastLater : last ∈ rest :=
        List.mem_of_mem_take (kept ▸ List.mem_append_right _ (List.mem_singleton_self last))
      rw [List.orderedInsert_cons, if_neg (not_le.mpr ((sorted.1 last lastLater).trans_lt above)),
        List.length_cons, List.take_succ_cons, take_orderedInsert_of_last_lt sorted.2 kept above,
        List.cons_append]

/-! ## One more entry, in the least entries -/

section Arrival

variable {cap : Nat} {entries : List α} {entry : α}
  (distinct : ((entries ++ [entry]).map key).Nodup)
include distinct

/-- While fewer than `cap` entries are kept, one more is inserted among them. -/
theorem leastEntries_append_of_length_lt (short : (leastEntries key cap entries).length < cap) :
    leastEntries key cap (entries ++ [entry]) =
      (leastEntries key cap entries).orderedInsert
        (fun first second => key first ≤ key second) entry := by
  rw [leastEntries, List.length_take] at short
  have fewer : (entries.insertionSort fun first second => key first ≤ key second).length < cap := by
    omega
  rw [leastEntries, leastEntries, insertionSort_append_singleton distinct,
    List.take_of_length_le fewer.le, List.take_of_length_le (by rw [List.orderedInsert_length]; omega)]

/-- With `cap` entries kept, one more below the greatest kept one displaces it. -/
theorem leastEntries_append_of_lt_last {front : List α} {last : α}
    (kept : leastEntries key cap entries = front ++ [last]) (full : cap = front.length + 1)
    (below : key entry < key last) :
    leastEntries key cap (entries ++ [entry]) =
      front.orderedInsert (fun first second => key first ≤ key second) entry := by
  subst full
  rw [leastEntries, insertionSort_append_singleton distinct]
  exact take_orderedInsert_of_lt_last kept below

/-- With `cap` entries kept, one more above the greatest kept one is dropped. -/
theorem leastEntries_append_of_last_lt {front : List α} {last : α}
    (kept : leastEntries key cap entries = front ++ [last]) (full : cap = front.length + 1)
    (above : key last < key entry) :
    leastEntries key cap (entries ++ [entry]) = front ++ [last] := by
  subst full
  rw [leastEntries, insertionSort_append_singleton distinct]
  exact take_orderedInsert_of_last_lt (List.pairwise_insertionSort _ _) kept above

end Arrival

end LeastEntries
