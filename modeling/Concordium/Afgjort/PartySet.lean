import Concordium.Afgjort.CSS
import Concordium.Library.Word
import Mathlib.Algebra.BigOperators.Ring.Finset
import Mathlib.Algebra.Order.BigOperators.Group.Finset
import Mathlib.Tactic.Ring

/-!
Contract: the weighted sets and maps of parties of `Concordium.Afgjort.PartySet` and
`Concordium.Afgjort.PartyMap`, which carry the total weight of their parties beside them as a
`VoterPower`, a `Word64`.

Owns:
- `PartySet` with `empty`, `member`, `insert`, `insertLookup`, `singleton`, `union`, `toList`,
  `size` and `fromList`, and `insertLookup_eq`: `insertLookup` answers membership and inserts;
- `PartyMap` with `empty`, `member`, `insert`, `delete`, `singleton`, `keys`, `keysSet`,
  `toList`, `fromList` and `union`, and `member_insert`;
- `members`, the parties of a set or map as a `Finset`; `WordWeighted w`: the weight is the sum
  of `w` over the members as a word holds it, modulo `2 ^ 64`; and `WeightedBy w`: the weight is
  that sum. Each operation given the weights `w` keeps `WordWeighted`, `fromList` on distinct
  parties; `BuiltSet` and `BuiltMap` are the sets and maps so built. While the members' weights
  sum below `2 ^ 64` the two agree (`WordWeighted.weightedBy`), and so each operation keeps
  `WeightedBy` when the weights of all parties together fit a word (`WeightsFit`);
- `union` of two weighted sets has the union of their members, and when their weights fit, the
  weight of the intersection is at most the first's, and its weight is their sum less that.

Does not own: `Party`, a `Word32` of the source. Parties are numbers here; the sets and maps only
compare them and look them up, which a `Word32` party does alike, and never compute a party.

## Weights that do not fit

Every weight is a `Word64`, and `insert` adds one with the machine's addition. So a set of
parties whose weights sum to `2 ^ 64` or more holds the sum modulo `2 ^ 64`, and `union`, which
subtracts the weight of the common parties from the first set's weight, then subtracts from a
wrapped weight (`party_weight_wraps_past_word`). The callers' weights are those of a committee,
whose total weight is itself a `VoterPower`; the instances of Freeze, CSS and ABBA carry that.
-/

set_option autoImplicit false

namespace Concordium.Afgjort

open Concordium.Afgjort.CSS (BitSet)

/-- A set of parties with their total weight. -/
structure PartySet where
  weight : Nat
  parties : BitSet
deriving DecidableEq, Repr

/-- The weights of any parties together fit a `VoterPower`. -/
def WeightsFit (w : Nat → Nat) : Prop :=
  ∀ parties : Finset Nat, ∑ p ∈ parties, w p < 2 ^ 64

/-- Any parties weigh at most the parties off which the weights vanish. -/
theorem sum_le_of_support {w : Nat → Nat} (support : Finset Nat)
    (outside : ∀ p ∉ support, w p = 0) (parties : Finset Nat) :
    ∑ p ∈ parties, w p ≤ ∑ p ∈ support, w p :=
  Finset.sum_le_sum_of_ne_zero fun p _ nonzero =>
    by_contra fun absent => nonzero (outside p absent)

/-- Weights that vanish off a finite set of parties fit when the weights of that set do. -/
theorem weightsFit_of_support {w : Nat → Nat} (support : Finset Nat)
    (outside : ∀ p ∉ support, w p = 0) (fits : ∑ p ∈ support, w p < 2 ^ 64) : WeightsFit w :=
  fun parties => lt_of_le_of_lt (sum_le_of_support support outside parties) fits

namespace PartySet

def empty : PartySet :=
  ⟨0, BitSet.empty⟩

def member (p : Nat) (ps : PartySet) : Bool :=
  BitSet.member p ps.parties

/-- Add a party of weight `pWeight`; a party already there leaves the set as it was. -/
def insert (party pWeight : Nat) (pset : PartySet) : PartySet :=
  if member party pset then pset
  else ⟨Word.add 64 pset.weight pWeight, BitSet.insert party pset.parties⟩

/-- Add a party, answering whether it was already there. -/
def insertLookup (party pWeight : Nat) (pset : PartySet) : Bool × PartySet :=
  if member party pset then (true, pset)
  else (false, ⟨Word.add 64 pset.weight pWeight, BitSet.insert party pset.parties⟩)

def singleton (p vp : Nat) : PartySet :=
  ⟨vp, BitSet.singleton p⟩

theorem insertLookup_eq (party pWeight : Nat) (pset : PartySet) :
    insertLookup party pWeight pset = (member party pset, insert party pWeight pset) := by
  unfold insertLookup insert
  split <;> simp_all

theorem member_insert (party pWeight : Nat) (pset : PartySet) (query : Nat) :
    member query (insert party pWeight pset) = (member query pset || decide (party = query)) := by
  unfold insert
  split
  · rename_i present
    by_cases same : party = query
    · subst same
      simp [present]
    · simp [same]
  · simp [member]

/-- The union, its weight by inclusion and exclusion over the parties in both, in the words of
`VoterPower`. -/
def union (partyWeight : Nat → Nat) (s1 s2 : PartySet) : PartySet :=
  ⟨Word.add 64
      (Word.sub 64 s1.weight
        (Word.sum 64 ((BitSet.toList (BitSet.intersection s1.parties s2.parties)).map partyWeight)))
      s2.weight,
    BitSet.union s1.parties s2.parties⟩

theorem member_union (partyWeight : Nat → Nat) (s1 s2 : PartySet) (query : Nat) :
    member query (union partyWeight s1 s2) = (member query s1 || member query s2) :=
  BitSet.member_union query s1.parties s2.parties

def toList (s : PartySet) : List Nat :=
  BitSet.toList s.parties

/-- `size`, the `popCount` of the parties' bits: the number of parties. -/
def size (s : PartySet) : Nat :=
  (toList s).length

/-- A set of size two has two distinct parties. -/
theorem exists_ne_of_two_le_size {s : PartySet} (two : 2 ≤ s.size) :
    ∃ p q, p ≠ q ∧ member p s = true ∧ member q s = true := by
  have ascending := BitSet.toList_ascending s.parties
  have listed : ∀ p, p ∈ toList s → member p s = true := fun p => (BitSet.mem_toList p _).mp
  rw [size] at two
  rw [toList] at two listed
  match parties : BitSet.toList s.parties, two with
  | p :: q :: _, _ =>
    rw [parties] at ascending listed
    have below : p < q := List.rel_of_pairwise_cons ascending List.mem_cons_self
    exact ⟨p, q, ne_of_lt below, listed p List.mem_cons_self,
      listed q (List.mem_cons_of_mem p List.mem_cons_self)⟩

/-- The set of the parties of a list, weighing each entry of the list. -/
def fromList (w : Nat → Nat) (l : List Nat) : PartySet :=
  ⟨Word.sum 64 (l.map w), BitSet.fromList l⟩

/-! ### Weights are the sums of the members' weights -/

/-- The parties of the set. -/
def members (s : PartySet) : Finset Nat :=
  (toList s).toFinset

theorem mem_members {p : Nat} {s : PartySet} : p ∈ s.members ↔ member p s = true := by
  rw [members, List.mem_toFinset, toList, BitSet.mem_toList, member]

/-- The weight of the set is the sum of `w` over its parties. -/
def WeightedBy (w : Nat → Nat) (s : PartySet) : Prop :=
  s.weight = ∑ p ∈ s.members, w p

/-- The weight of the set is the sum of `w` over its parties as a word holds it: a number below
`2 ^ 64` of the sum's class. -/
structure WordWeighted (w : Nat → Nat) (s : PartySet) : Prop where
  isWord : s.weight < 2 ^ 64
  congruent : (s.weight : ZMod (2 ^ 64)) = ∑ p ∈ s.members, (w p : ZMod (2 ^ 64))

variable {w : Nat → Nat}

theorem WordWeighted.weight_eq {s : PartySet} (weighted : WordWeighted w s) :
    s.weight = (∑ p ∈ s.members, w p) % 2 ^ 64 :=
  Word.eq_mod_of_cast_eq weighted.isWord (by rw [weighted.congruent, Nat.cast_sum])

/-- While the members' weights sum below `2 ^ 64`, the word is the sum. -/
theorem WordWeighted.weightedBy {s : PartySet} (weighted : WordWeighted w s)
    (fits : ∑ p ∈ s.members, w p < 2 ^ 64) : WeightedBy w s := by
  rw [WeightedBy, weighted.weight_eq, Nat.mod_eq_of_lt fits]

theorem WeightedBy.wordWeighted {s : PartySet} (weighted : WeightedBy w s)
    (fits : ∑ p ∈ s.members, w p < 2 ^ 64) : WordWeighted w s where
  isWord := weighted ▸ fits
  congruent := by rw [weighted, Nat.cast_sum]

theorem members_empty : empty.members = ∅ :=
  Finset.eq_empty_of_forall_notMem fun p listed => by
    rw [mem_members, member, empty, BitSet.member_empty] at listed
    exact Bool.false_ne_true listed

theorem members_singleton (p vp : Nat) : (singleton p vp).members = {p} :=
  Finset.ext fun q => by
    rw [mem_members, member, singleton, BitSet.member_singleton, decide_eq_true_iff,
      Finset.mem_singleton, eq_comm]

theorem insert_of_member_eq_false {party : Nat} {s : PartySet} (absent : member party s = false)
    (pWeight : Nat) :
    insert party pWeight s = ⟨Word.add 64 s.weight pWeight, BitSet.insert party s.parties⟩ := by
  rw [insert, if_neg (by rw [absent]; decide)]

theorem members_insert_of_not_member {party pWeight : Nat} {s : PartySet}
    (absent : member party s = false) :
    (insert party pWeight s).members = Insert.insert party s.members := Finset.ext fun q => by
  rw [Finset.mem_insert, mem_members, mem_members, insert, if_neg (by rw [absent]; decide),
    member, member, BitSet.member_insert, Bool.or_eq_true, decide_eq_true_iff]
  exact ⟨fun found => found.elim Or.inr fun same => Or.inl same.symm,
    fun found => found.elim (fun same => Or.inr same.symm) Or.inl⟩

theorem members_union (partyWeight : Nat → Nat) (s1 s2 : PartySet) :
    (union partyWeight s1 s2).members = s1.members ∪ s2.members := Finset.ext fun q => by
  rw [Finset.mem_union, mem_members, mem_members, mem_members, member, member, member, union,
    BitSet.member_union, Bool.or_eq_true]

theorem members_fromList (l : List Nat) : (fromList w l).members = l.toFinset :=
  Finset.ext fun q => by
    rw [mem_members, member, fromList, BitSet.member_fromList, List.mem_toFinset]

/-- What `union` subtracts is the weight of the parties in both sets. -/
theorem intersection_weight (partyWeight : Nat → Nat) (s1 s2 : PartySet) :
    ((BitSet.toList (BitSet.intersection s1.parties s2.parties)).map partyWeight).sum =
      ∑ p ∈ s1.members ∩ s2.members, partyWeight p := by
  have sameMembers : (BitSet.toList (BitSet.intersection s1.parties s2.parties)).toFinset =
      s1.members ∩ s2.members := Finset.ext fun q => by
    rw [List.mem_toFinset, BitSet.mem_toList, BitSet.member_intersection, Finset.mem_inter,
      mem_members, mem_members, Bool.and_eq_true]
    rfl
  rw [← sameMembers, List.sum_toFinset _ (BitSet.toList_ascending _).nodup]

theorem weightedBy_empty : WeightedBy w empty := by
  rw [WeightedBy, members_empty, Finset.sum_empty]
  rfl

theorem weightedBy_singleton (p : Nat) : WeightedBy w (singleton p (w p)) := by
  rw [WeightedBy, members_singleton, Finset.sum_singleton]
  rfl

/-! ### Each operation keeps the weight the members' sum as a word -/

theorem wordWeighted_empty : WordWeighted w empty where
  isWord := Nat.two_pow_pos 64
  congruent := by rw [members_empty, Finset.sum_empty]; rfl

theorem wordWeighted_singleton {p : Nat} (power : w p < 2 ^ 64) :
    WordWeighted w (singleton p (w p)) where
  isWord := power
  congruent := by rw [members_singleton, Finset.sum_singleton]; rfl

theorem WordWeighted.insert {s : PartySet} (weighted : WordWeighted w s) (party : Nat) :
    WordWeighted w (insert party (w party) s) := by
  cases present : member party s with
  | true =>
      rw [PartySet.insert, if_pos present]
      exact weighted
  | false =>
      have fresh : party ∉ s.members := fun listed => by
        rw [mem_members, present] at listed
        exact Bool.false_ne_true listed
      refine ⟨by rw [insert_of_member_eq_false present]; exact Word.add_lt _ _, ?_⟩
      rw [members_insert_of_not_member present, Finset.sum_insert fresh,
        insert_of_member_eq_false present]
      show ((Word.add 64 s.weight (w party) : Nat) : ZMod (2 ^ 64)) = _
      rw [Word.cast_add, weighted.congruent, add_comm]

theorem WordWeighted.insertLookup {s : PartySet} (weighted : WordWeighted w s) (party : Nat) :
    WordWeighted w (insertLookup party (w party) s).2 := by
  rw [insertLookup_eq]
  exact weighted.insert party

theorem WordWeighted.union {s1 s2 : PartySet} (weighted1 : WordWeighted w s1)
    (weighted2 : WordWeighted w s2) : WordWeighted w (union w s1 s2) where
  isWord := Word.add_lt _ _
  congruent := by
    -- inclusion and exclusion over the members, in the ring of words
    have counted : ∑ p ∈ s1.members ∪ s2.members, (w p : ZMod (2 ^ 64)) +
        ∑ p ∈ s1.members ∩ s2.members, (w p : ZMod (2 ^ 64)) =
          ∑ p ∈ s1.members, (w p : ZMod (2 ^ 64)) + ∑ p ∈ s2.members, (w p : ZMod (2 ^ 64)) :=
      Finset.sum_union_inter
    show ((Word.add 64 (Word.sub 64 s1.weight (Word.sum 64 _)) s2.weight : Nat) : ZMod (2 ^ 64)) = _
    rw [members_union, Word.cast_add, Word.cast_sub, Word.cast_sum, intersection_weight,
      Nat.cast_sum, weighted1.congruent, weighted2.congruent]
    rw [eq_sub_of_add_eq counted]
    ring

theorem wordWeighted_fromList {l : List Nat} (distinct : l.Nodup) : WordWeighted w (fromList w l) where
  isWord := Word.sum_lt _
  congruent := by
    show ((Word.sum 64 (l.map w) : Nat) : ZMod (2 ^ 64)) = _
    rw [Word.cast_sum, members_fromList, ← Nat.cast_sum, List.sum_toFinset _ distinct]

/-! ### Exact weights while all the weights fit -/

theorem WeightedBy.insert {s : PartySet} (weighted : WeightedBy w s) (fits : WeightsFit w)
    (party : Nat) : WeightedBy w (PartySet.insert party (w party) s) :=
  ((weighted.wordWeighted (fits _)).insert party).weightedBy (fits _)

theorem WeightedBy.insertLookup {s : PartySet} (weighted : WeightedBy w s) (fits : WeightsFit w)
    (party : Nat) : WeightedBy w (PartySet.insertLookup party (w party) s).2 := by
  rw [insertLookup_eq]
  exact weighted.insert fits party

theorem WeightedBy.union {s1 s2 : PartySet} (weighted1 : WeightedBy w s1)
    (weighted2 : WeightedBy w s2) (fits : WeightsFit w) : WeightedBy w (PartySet.union w s1 s2) :=
  ((weighted1.wordWeighted (fits _)).union (weighted2.wordWeighted (fits _))).weightedBy (fits _)

/-- Adding a party never lowers an exact weight. -/
theorem WeightedBy.le_insert {s : PartySet} (weighted : WeightedBy w s) (fits : WeightsFit w)
    (party : Nat) : s.weight ≤ (PartySet.insert party (w party) s).weight := by
  have added : s.members ⊆ (PartySet.insert party (w party) s).members := fun q listed => by
    rw [mem_members, member_insert, Bool.or_eq_true]
    exact .inl (mem_members.mp listed)
  rw [weighted, weighted.insert fits party]
  exact Finset.sum_le_sum_of_subset added

/-- The union weighs at least its second set. -/
theorem WeightedBy.le_union {s1 s2 : PartySet} (weighted1 : WeightedBy w s1)
    (weighted2 : WeightedBy w s2) (fits : WeightsFit w) :
    s2.weight ≤ (PartySet.union w s1 s2).weight := by
  rw [weighted2, weighted1.union weighted2 fits, members_union]
  exact Finset.sum_le_sum_of_subset Finset.subset_union_right

/-- The weight `union` subtracts is at most the first set's: the subtraction does not wrap. -/
theorem intersection_weight_le {s1 : PartySet} (weighted : WeightedBy w s1) (s2 : PartySet) :
    ((BitSet.toList (BitSet.intersection s1.parties s2.parties)).map w).sum ≤ s1.weight := by
  rw [intersection_weight, weighted]
  exact Finset.sum_le_sum_of_subset Finset.inter_subset_left

/-- While the union's weights fit, its weight is the inclusion and exclusion of exact sums. -/
theorem union_weight {s1 s2 : PartySet} (weighted1 : WordWeighted w s1)
    (weighted2 : WordWeighted w s2) (fits : ∑ p ∈ s1.members ∪ s2.members, w p < 2 ^ 64) :
    (union w s1 s2).weight = s1.weight + s2.weight - ∑ p ∈ s1.members ∩ s2.members, w p := by
  have counted : ∑ p ∈ s1.members ∪ s2.members, w p + ∑ p ∈ s1.members ∩ s2.members, w p =
      ∑ p ∈ s1.members, w p + ∑ p ∈ s2.members, w p :=
    Finset.sum_union_inter
  have exact1 := weighted1.weightedBy (lt_of_le_of_lt
    (Finset.sum_le_sum_of_subset Finset.subset_union_left) fits)
  have exact2 := weighted2.weightedBy (lt_of_le_of_lt
    (Finset.sum_le_sum_of_subset Finset.subset_union_right) fits)
  have exactUnion := (weighted1.union weighted2).weightedBy (by rwa [members_union])
  rw [exactUnion, members_union, exact1, exact2]
  omega

end PartySet

/-- A map from parties with the total weight of its parties. -/
structure PartyMap (α : Type) where
  weight : Nat
  partyMap : AscMap Nat α

namespace PartyMap

variable {α : Type}

def empty : PartyMap α :=
  ⟨0, AscMap.empty⟩

def member (p : Nat) (m : PartyMap α) : Bool :=
  (m.partyMap.lookup p).isSome

/-- Add a party of weight `vp` with its value; a party already there leaves the map as it was. -/
def insert (p vp : Nat) (a : α) (m : PartyMap α) : PartyMap α :=
  if member p m then m
  else ⟨Word.add 64 m.weight vp, m.partyMap.insert p a⟩

def keys (m : PartyMap α) : List Nat :=
  m.partyMap.keys

theorem member_insert (p vp : Nat) (a : α) (m : PartyMap α) (query : Nat) :
    member query (insert p vp a m) = (member query m || decide (p = query)) := by
  unfold insert
  by_cases present : member p m = true
  · rw [if_pos present]
    by_cases same : p = query
    · subst same
      simp [present]
    · simp [same]
  · rw [if_neg present]
    simp only [member, AscMap.lookup_insert]
    by_cases same : p = query
    · subst same
      simp
    · simp [Ne.symm same, same]

@[simp] theorem member_empty (p : Nat) : member p (empty : PartyMap α) = false := rfl

theorem insert_of_member_eq_false {p : Nat} {m : PartyMap α} (absent : member p m = false)
    (vp : Nat) (a : α) : insert p vp a m = ⟨Word.add 64 m.weight vp, m.partyMap.insert p a⟩ := by
  rw [insert, if_neg (by rw [absent]; decide)]

/-- Remove a party of weight `vp`; a party not there leaves the map as it was. -/
def delete (p vp : Nat) (m : PartyMap α) : PartyMap α :=
  if member p m then ⟨Word.sub 64 m.weight vp, m.partyMap.erase p⟩
  else m

def singleton (p vp : Nat) (v : α) : PartyMap α :=
  ⟨vp, AscMap.singleton p v⟩

/-- The parties of the map as a party set of the same weight. -/
def keysSet (pm : PartyMap α) : PartySet :=
  ⟨pm.weight, BitSet.fromList pm.partyMap.keys⟩

theorem member_singleton (p vp : Nat) (v : α) (query : Nat) :
    member query (singleton p vp v) = decide (p = query) := by
  rw [member, singleton, AscMap.lookup_singleton]
  by_cases same : p = query
  · simp [same]
  · simp [same, Ne.symm same]

/-- The party set of a map has the map's parties. -/
theorem member_keysSet (m : PartyMap α) (query : Nat) :
    PartySet.member query (keysSet m) = member query m := by
  rw [Bool.eq_iff_iff, PartySet.member, keysSet, BitSet.member_fromList, AscMap.mem_keys_iff,
    member, Option.isSome_iff_exists]

def toList (m : PartyMap α) : List (Nat × α) :=
  m.partyMap.toAscList

/-- The map of a list, weighing each entry of the list. -/
def fromList (power : Nat → Nat) (l : List (Nat × α)) : PartyMap α :=
  ⟨Word.sum 64 (l.map fun entry => power entry.1), AscMap.fromList l⟩

/-- Insert the entries of the second map into the first, each with its weight. -/
def union (pv : Nat → Nat) (p1 p2 : PartyMap α) : PartyMap α :=
  (toList p2).foldr (fun entry m => insert entry.1 (pv entry.1) entry.2 m) p1

/-! ### Weights are the sums of the members' weights -/

/-- The parties of the map. -/
def members (m : PartyMap α) : Finset Nat :=
  (keys m).toFinset

theorem mem_members {p : Nat} {m : PartyMap α} : p ∈ m.members ↔ member p m = true := by
  rw [members, List.mem_toFinset, keys, AscMap.mem_keys_iff, member, Option.isSome_iff_exists]

/-- The weight of the map is the sum of `w` over its parties. -/
def WeightedBy (w : Nat → Nat) (m : PartyMap α) : Prop :=
  m.weight = ∑ p ∈ m.members, w p

/-- The weight of the map is the sum of `w` over its parties as a word holds it. -/
structure WordWeighted (w : Nat → Nat) (m : PartyMap α) : Prop where
  isWord : m.weight < 2 ^ 64
  congruent : (m.weight : ZMod (2 ^ 64)) = ∑ p ∈ m.members, (w p : ZMod (2 ^ 64))

variable {w : Nat → Nat}

theorem WordWeighted.weight_eq {m : PartyMap α} (weighted : WordWeighted w m) :
    m.weight = (∑ p ∈ m.members, w p) % 2 ^ 64 :=
  Word.eq_mod_of_cast_eq weighted.isWord (by rw [weighted.congruent, Nat.cast_sum])

theorem WordWeighted.weightedBy {m : PartyMap α} (weighted : WordWeighted w m)
    (fits : ∑ p ∈ m.members, w p < 2 ^ 64) : WeightedBy w m := by
  rw [WeightedBy, weighted.weight_eq, Nat.mod_eq_of_lt fits]

theorem WeightedBy.wordWeighted {m : PartyMap α} (weighted : WeightedBy w m)
    (fits : ∑ p ∈ m.members, w p < 2 ^ 64) : WordWeighted w m where
  isWord := weighted ▸ fits
  congruent := by rw [weighted, Nat.cast_sum]

theorem members_insert_of_not_member {p vp : Nat} {a : α} {m : PartyMap α}
    (absent : member p m = false) :
    (insert p vp a m).members = Insert.insert p m.members :=
  Finset.ext fun q => by
    simp only [Finset.mem_insert, members, keys, List.mem_toFinset, PartyMap.insert, absent,
      Bool.false_eq_true, if_false, AscMap.mem_keys_insert]

theorem members_delete_of_member {p vp : Nat} {m : PartyMap α} (present : member p m = true) :
    (delete p vp m).members = m.members.erase p :=
  Finset.ext fun q => by
    simp only [Finset.mem_erase, members, keys, List.mem_toFinset, PartyMap.delete, present,
      if_true, AscMap.mem_keys_erase]

theorem members_singleton (p vp : Nat) (v : α) : (singleton p vp v).members = {p} := by
  rw [members, keys, singleton, AscMap.singleton]
  rfl

theorem weightedBy_empty : WeightedBy w (empty : PartyMap α) := by
  rw [WeightedBy, members, keys, empty]
  rfl

theorem weightedBy_singleton (p : Nat) (v : α) : WeightedBy w (singleton p (w p) v) := by
  rw [WeightedBy, members_singleton, Finset.sum_singleton]
  rfl

theorem wordWeighted_empty : WordWeighted w (empty : PartyMap α) where
  isWord := Nat.two_pow_pos 64
  congruent := by rw [members, keys, empty]; rfl

theorem wordWeighted_singleton {p : Nat} (v : α) (power : w p < 2 ^ 64) :
    WordWeighted w (singleton p (w p) v) :=
  ⟨power, by rw [members_singleton, Finset.sum_singleton]; rfl⟩

theorem WordWeighted.insert {m : PartyMap α} (weighted : WordWeighted w m) (p : Nat) (a : α) :
    WordWeighted w (insert p (w p) a m) := by
  cases present : member p m with
  | true =>
      rw [PartyMap.insert, if_pos present]
      exact weighted
  | false =>
      have fresh : p ∉ m.members := fun listed => by
        rw [mem_members, present] at listed
        exact Bool.false_ne_true listed
      refine ⟨by rw [insert_of_member_eq_false present]; exact Word.add_lt _ _, ?_⟩
      rw [members_insert_of_not_member present, Finset.sum_insert fresh,
        insert_of_member_eq_false present]
      show ((Word.add 64 m.weight (w p) : Nat) : ZMod (2 ^ 64)) = _
      rw [Word.cast_add, weighted.congruent, add_comm]

theorem WordWeighted.delete {m : PartyMap α} (weighted : WordWeighted w m) (p : Nat) :
    WordWeighted w (delete p (w p) m) := by
  cases present : member p m with
  | false =>
      rw [PartyMap.delete, if_neg (by rw [present]; decide)]
      exact weighted
  | true =>
      have listed : p ∈ m.members := mem_members.mpr present
      -- the party's weight is part of the map's, so the word loses exactly it
      have split := Finset.add_sum_erase m.members (fun q => (w q : ZMod (2 ^ 64))) listed
      refine ⟨?_, ?_⟩
      · rw [PartyMap.delete, if_pos present]
        exact Word.sub_lt _ _
      · rw [members_delete_of_member present, PartyMap.delete, if_pos present]
        show ((Word.sub 64 m.weight (w p) : Nat) : ZMod (2 ^ 64)) = _
        rw [Word.cast_sub, weighted.congruent, ← split]
        ring

/-- A map of positive weight has a party. -/
theorem WordWeighted.exists_member {m : PartyMap α} (weighted : WordWeighted w m)
    (positive : 0 < m.weight) : ∃ p, member p m = true := by
  by_contra nobody
  have noMembers : m.members = ∅ := Finset.eq_empty_of_forall_notMem fun p listed =>
    nobody ⟨p, mem_members.mp listed⟩
  rw [weighted.weight_eq, noMembers, Finset.sum_empty] at positive
  exact Nat.lt_irrefl 0 positive

/-- The party set of a map's parties weighs what the map does. -/
theorem keysSet_members (m : PartyMap α) : (keysSet m).members = m.members :=
  Finset.ext fun q => by
    rw [PartySet.mem_members, PartySet.member, keysSet, BitSet.member_fromList, members,
      List.mem_toFinset, keys]

theorem WordWeighted.keysSet {m : PartyMap α} (weighted : WordWeighted w m) :
    PartySet.WordWeighted w (keysSet m) :=
  ⟨weighted.isWord, by rw [keysSet_members]; exact weighted.congruent⟩

theorem keysSet_weightedBy {m : PartyMap α} (weighted : WeightedBy w m) :
    PartySet.WeightedBy w (keysSet m) := by
  rw [PartySet.WeightedBy, keysSet_members, ← weighted]
  rfl

/-- A list of entries of distinct parties weighs the sum of its parties' weights, as a word. -/
theorem wordWeighted_fromList {l : List (Nat × α)} (distinct : (l.map Prod.fst).Nodup) :
    WordWeighted w (fromList w l) := by
  have sameMembers : (fromList w l).members = (l.map Prod.fst).toFinset := Finset.ext fun q => by
    rw [members, List.mem_toFinset, List.mem_toFinset, keys, fromList, AscMap.mem_keys_fromList]
  refine ⟨Word.sum_lt _, ?_⟩
  show ((Word.sum 64 (l.map fun entry => w entry.1) : Nat) : ZMod (2 ^ 64)) = _
  rw [Word.cast_sum, sameMembers, ← Nat.cast_sum, List.sum_toFinset _ distinct, List.map_map]
  rfl

/-- Inserting the entries of a map one by one keeps the weight the members' sum as a word. -/
theorem WordWeighted.union {m1 : PartyMap α} (weighted : WordWeighted w m1) (m2 : PartyMap α) :
    WordWeighted w (PartyMap.union w m1 m2) := by
  unfold PartyMap.union
  induction toList m2 with
  | nil => exact weighted
  | cons entry rest inductionHypothesis =>
      rw [List.foldr_cons]
      exact inductionHypothesis.insert entry.1 entry.2

/-! ### Exact weights while all the weights fit -/

theorem WeightedBy.insert {m : PartyMap α} (weighted : WeightedBy w m) (fits : WeightsFit w)
    (p : Nat) (a : α) : WeightedBy w (PartyMap.insert p (w p) a m) :=
  ((weighted.wordWeighted (fits _)).insert p a).weightedBy (fits _)

/-- Adding a party that is not there adds its weight exactly. -/
theorem WeightedBy.add_of_not_member {m : PartyMap α} (weighted : WeightedBy w m)
    (fits : WeightsFit w) {p : Nat} (absent : member p m = false) :
    Word.add 64 m.weight (w p) = m.weight + w p := by
  have fresh : p ∉ m.members := fun listed => by
    rw [mem_members, absent] at listed
    exact Bool.false_ne_true listed
  apply Word.add_of_lt
  rw [weighted, Nat.add_comm, ← Finset.sum_insert fresh]
  exact fits _

/-- Adding a party never lowers an exact weight. -/
theorem WeightedBy.le_insert {m : PartyMap α} (weighted : WeightedBy w m) (fits : WeightsFit w)
    (p : Nat) (a : α) : m.weight ≤ (PartyMap.insert p (w p) a m).weight := by
  have added : m.members ⊆ (PartyMap.insert p (w p) a m).members := fun q listed => by
    rw [mem_members, member_insert, Bool.or_eq_true]
    exact .inl (mem_members.mp listed)
  rw [weighted, weighted.insert fits p a]
  exact Finset.sum_le_sum_of_subset added

end PartyMap

/-! ## Party sets and maps built with one weight function -/

/-- The party maps built from `empty`, `singleton` and `fromList` of distinct parties by
`insert`, `delete` and `union`, all with the weights `w` gives. -/
inductive BuiltMap (w : Nat → Nat) {α : Type} : PartyMap α → Prop
  | empty : BuiltMap w PartyMap.empty
  | singleton (p : Nat) (v : α) : BuiltMap w (PartyMap.singleton p (w p) v)
  | fromList (l : List (Nat × α)) (distinct : (l.map Prod.fst).Nodup) :
      BuiltMap w (PartyMap.fromList w l)
  | insert (p : Nat) (a : α) {m : PartyMap α} : BuiltMap w m → BuiltMap w (m.insert p (w p) a)
  | delete (p : Nat) {m : PartyMap α} : BuiltMap w m → BuiltMap w (m.delete p (w p))
  | union {m1 m2 : PartyMap α} : BuiltMap w m1 → BuiltMap w m2 → BuiltMap w (m1.union w m2)

/-- The party sets built from `empty`, `singleton`, `fromList` of distinct parties and the
`keysSet` of built maps by `insert`, `insertLookup` and `union`, all with the weights `w`
gives. -/
inductive BuiltSet (w : Nat → Nat) : PartySet → Prop
  | empty : BuiltSet w PartySet.empty
  | singleton (p : Nat) : BuiltSet w (PartySet.singleton p (w p))
  | fromList (l : List Nat) (distinct : l.Nodup) : BuiltSet w (PartySet.fromList w l)
  | insert (p : Nat) {s : PartySet} : BuiltSet w s → BuiltSet w (s.insert p (w p))
  | insertLookup (p : Nat) {s : PartySet} : BuiltSet w s →
      BuiltSet w (PartySet.insertLookup p (w p) s).2
  | union {s1 s2 : PartySet} : BuiltSet w s1 → BuiltSet w s2 →
      BuiltSet w (PartySet.union w s1 s2)
  | keysSet {α : Type} {m : PartyMap α} : BuiltMap w m → BuiltSet w m.keysSet

section Built

variable {w : Nat → Nat} (power : ∀ p, w p < 2 ^ 64)
include power

/-- The run lemma for maps: one case per operation. -/
theorem BuiltMap.wordWeighted {α : Type} {m : PartyMap α} (built : BuiltMap w m) :
    m.WordWeighted w := by
  induction built with
  | empty => exact PartyMap.wordWeighted_empty
  | singleton p v => exact PartyMap.wordWeighted_singleton v (power p)
  | fromList l distinct => exact PartyMap.wordWeighted_fromList distinct
  | insert p a _ inductionHypothesis => exact inductionHypothesis.insert p a
  | delete p _ inductionHypothesis => exact inductionHypothesis.delete p
  | union _ _ firstWeighted _ => exact firstWeighted.union _

theorem BuiltSet.wordWeighted {s : PartySet} (built : BuiltSet w s) : s.WordWeighted w := by
  induction built with
  | empty => exact PartySet.wordWeighted_empty
  | singleton p => exact PartySet.wordWeighted_singleton (power p)
  | fromList l distinct => exact PartySet.wordWeighted_fromList distinct
  | insert p _ inductionHypothesis => exact inductionHypothesis.insert p
  | insertLookup p _ inductionHypothesis => exact inductionHypothesis.insertLookup p
  | union _ _ firstWeighted secondWeighted => exact firstWeighted.union secondWeighted
  | keysSet built => exact (built.wordWeighted power).keysSet

end Built

/-- Weighted party collections keep their weight the sum of their members' weights as a
`Word64`: for weights that are words, every party map and set built with one weight function
`w` weighs the sum of `w` over its parties modulo `2 ^ 64`, which is the sum while it stays
below `2 ^ 64`; and the union of two such sets has the parties of both, and while the weights of
those fit, the weight of the parties in both is at most the first set's weight, and the union's
weight is their weights' sum less that. -/
theorem party_weights_are_member_sums (w : Nat → Nat) (power : ∀ p, w p < 2 ^ 64) :
    (∀ {α : Type} (m : PartyMap α), BuiltMap w m →
      m.weight = (∑ p ∈ m.members, w p) % 2 ^ 64 ∧
        (∑ p ∈ m.members, w p < 2 ^ 64 → m.weight = ∑ p ∈ m.members, w p)) ∧
      (∀ s : PartySet, BuiltSet w s →
        s.weight = (∑ p ∈ s.members, w p) % 2 ^ 64 ∧
          (∑ p ∈ s.members, w p < 2 ^ 64 → s.weight = ∑ p ∈ s.members, w p)) ∧
      ∀ s1 s2 : PartySet, BuiltSet w s1 → BuiltSet w s2 →
        (PartySet.union w s1 s2).members = s1.members ∪ s2.members ∧
        (∑ p ∈ s1.members ∪ s2.members, w p < 2 ^ 64 →
          ((BitSet.toList (BitSet.intersection s1.parties s2.parties)).map w).sum ≤ s1.weight ∧
          (PartySet.union w s1 s2).weight =
            s1.weight + s2.weight - ∑ p ∈ s1.members ∩ s2.members, w p) := by
  refine ⟨fun m built => ?_, fun s built => ?_, fun s1 s2 built1 built2 => ?_⟩
  · have weighted := built.wordWeighted power
    exact ⟨weighted.weight_eq, weighted.weightedBy⟩
  · have weighted := built.wordWeighted power
    exact ⟨weighted.weight_eq, weighted.weightedBy⟩
  · have weighted1 := built1.wordWeighted power
    have weighted2 := built2.wordWeighted power
    refine ⟨PartySet.members_union w s1 s2, fun fits => ⟨?_, PartySet.union_weight weighted1
      weighted2 fits⟩⟩
    exact PartySet.intersection_weight_le (weighted1.weightedBy (lt_of_le_of_lt
      (Finset.sum_le_sum_of_subset Finset.subset_union_left) fits)) s2

/-- Unit weights for three parties. -/
def threeParties (p : Nat) : Nat :=
  if p < 3 then 1 else 0

theorem party_weights_on_three_parties :
    (∀ p, threeParties p < 2 ^ 64) ∧
      (PartySet.insert 2 (threeParties 2) (PartySet.fromList threeParties [0, 1])).weight =
        (∑ p ∈ (PartySet.insert 2 (threeParties 2)
          (PartySet.fromList threeParties [0, 1])).members, threeParties p) % 2 ^ 64 := by
  have power : ∀ p, threeParties p < 2 ^ 64 := fun p => by
    unfold threeParties
    split <;> decide
  exact ⟨power, ((party_weights_are_member_sums threeParties power).2.1 _
    (.insert 2 (.fromList [0, 1] (by decide)))).1⟩

/-- Two parties of weight `2 ^ 63` each, which together weigh `2 ^ 64`. -/
def heavyPair (p : Nat) : Nat :=
  if p < 2 then 2 ^ 63 else 0

/-- The weights of a set of parties summing to `2 ^ 64` wrap: the set of both heavy parties,
built by `insert`, weighs `0`, and its union with the first party alone subtracts that party's
weight from `0`. -/
theorem party_weight_wraps_past_word :
    BuiltSet heavyPair
        (PartySet.insert 1 (heavyPair 1) (PartySet.singleton 0 (heavyPair 0))) ∧
      (PartySet.insert 1 (heavyPair 1) (PartySet.singleton 0 (heavyPair 0))).weight = 0 ∧
      ∑ p ∈ (PartySet.insert 1 (heavyPair 1) (PartySet.singleton 0 (heavyPair 0))).members,
        heavyPair p = 2 ^ 64 ∧
      (PartySet.insert 1 (heavyPair 1) (PartySet.singleton 0 (heavyPair 0))).weight <
        ((BitSet.toList (BitSet.intersection
          (PartySet.insert 1 (heavyPair 1) (PartySet.singleton 0 (heavyPair 0))).parties
          (PartySet.singleton 0 (heavyPair 0)).parties)).map heavyPair).sum := by
  have absent : (PartySet.singleton 0 (heavyPair 0)).member 1 = false := by decide
  have both : (PartySet.insert 1 (heavyPair 1) (PartySet.singleton 0 (heavyPair 0))).members =
      {1, 0} := by
    rw [PartySet.members_insert_of_not_member absent, PartySet.members_singleton]
  refine ⟨.insert 1 (.singleton 0), by decide, ?_, ?_⟩
  · rw [both, Finset.sum_pair (by decide)]
    decide
  · -- the common party is the first one, of weight `2 ^ 63`
    rw [PartySet.intersection_weight, both, PartySet.members_singleton,
      Finset.insert_inter_of_notMem (by decide), Finset.inter_self, Finset.sum_singleton]
    decide

end Concordium.Afgjort
