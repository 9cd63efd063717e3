import Concordium.Afgjort.CSS
import Concordium.Library.BitChunks

/-!
Contract: the serialization of a nomination set, `Serialize NominationSet` of
`Concordium.Afgjort.CSS.NominationSet`: a tag saying which of its two sets is empty, the bound
`nomMax` as a `Word32`, and each set that is not empty as bit masks of eight parties a byte from
`minParty` to `nomMax`.

Owns:
- `NominationSetTag` and `nomTag`, `putUntaggedNominationSet` and `getUntaggedNominationSet`,
  `putNominationSet` and `getNominationSet`, with `putParty` and `getParty` of
  `Concordium.Afgjort.Types`;
- `PartiesWithin`: every party of the set is at most `nomMax`; with it and a bound that fits in
  a `Word32`, the round trips `getUntaggedNominationSet_putUntaggedNominationSet` (reading with
  the set's own tag) and `getNominationSet_putNominationSet` (the empty set read back as
  `emptyNominationSet`).

Does not own: the bit masks themselves (`BitChunks`). Parties are numbers here, not `Word32`s:
the source's loop over the bytes adds eight to a `Word32` party, which agrees with the numbers
while `nomMax + 8` does not overflow.
-/

set_option autoImplicit false

namespace Concordium.Afgjort.CSS

open Serialize BitChunks

inductive NominationSetTag where
  | NSEmpty
  | NSTop
  | NSBot
  | NSBoth
deriving DecidableEq, Repr

/-- Which of the two sets of a nomination set are not empty. -/
def nomTag (s : NominationSet) : NominationSetTag :=
  match BitSet.null s.nomTop, BitSet.null s.nomBot with
  | true, true => .NSEmpty
  | false, true => .NSTop
  | true, false => .NSBot
  | false, false => .NSBoth

def minParty : Nat := 0

/-- `putParty`: a party as a `Word32`. -/
def putParty (party : Nat) : List UInt8 :=
  putWord32be party

def getParty : Get Nat :=
  getWord32be

/-- The bound and each set that is not empty, eight parties a byte. -/
def putUntaggedNominationSet (ns : NominationSet) : List UInt8 :=
  putParty ns.nomMax ++
    (if BitSet.null ns.nomTop then []
      else putChunks ns.nomMax minParty (BitSet.toList ns.nomTop)) ++
    (if BitSet.null ns.nomBot then []
      else putChunks ns.nomMax minParty (BitSet.toList ns.nomBot))

/-- Read the bound and the sets the tag says are there. -/
def getUntaggedNominationSet (tag : NominationSetTag) : Get NominationSet := do
  let nomMax ← getParty
  let nomTop ←
    (if tag == .NSTop || tag == .NSBoth then BitSet.fromList <$> getChunks nomMax minParty
      else pure BitSet.empty)
  let nomBot ←
    (if tag == .NSBot || tag == .NSBoth then BitSet.fromList <$> getChunks nomMax minParty
      else pure BitSet.empty)
  pure ⟨nomMax, nomTop, nomBot⟩

def putNominationSet (ns : NominationSet) : List UInt8 :=
  match nomTag ns with
  | .NSEmpty => putWord8 0
  | .NSTop => putWord8 1 ++ putUntaggedNominationSet ns
  | .NSBot => putWord8 2 ++ putUntaggedNominationSet ns
  | .NSBoth => putWord8 3 ++ putUntaggedNominationSet ns

def getNominationSet : Get NominationSet := do
  let tag ← getWord8
  match tag with
  | 0 => pure emptyNominationSet
  | 1 => getUntaggedNominationSet .NSTop
  | 2 => getUntaggedNominationSet .NSBot
  | 3 => getUntaggedNominationSet .NSBoth
  | _ => Get.fail

/-- Every party of the nomination set is at most its bound. -/
def PartiesWithin (ns : NominationSet) : Prop :=
  ∀ party ∈ BitSet.toList ns.nomTop ++ BitSet.toList ns.nomBot, party ≤ ns.nomMax

instance (ns : NominationSet) : Decidable (PartiesWithin ns) :=
  inferInstanceAs (Decidable (∀ party ∈ BitSet.toList ns.nomTop ++ BitSet.toList ns.nomBot,
    party ≤ ns.nomMax))

/-- The tag reads a set exactly when the set is not empty. -/
theorem readsTop_nomTag (ns : NominationSet) :
    (nomTag ns == .NSTop || nomTag ns == .NSBoth) = !BitSet.null ns.nomTop := by
  unfold nomTag
  cases BitSet.null ns.nomTop <;> cases BitSet.null ns.nomBot <;> rfl

theorem readsBot_nomTag (ns : NominationSet) :
    (nomTag ns == .NSBot || nomTag ns == .NSBoth) = !BitSet.null ns.nomBot := by
  unfold nomTag
  cases BitSet.null ns.nomTop <;> cases BitSet.null ns.nomBot <;> rfl

/-- One of the two sets: its bytes, when it is not empty, are read back as the set. -/
theorem getSet_putSet {bound : Nat} {s : BitSet}
    (within : ∀ party ∈ BitSet.toList s, party ≤ bound) (rest : List UInt8) :
    (if !BitSet.null s then BitSet.fromList <$> getChunks bound minParty else pure BitSet.empty)
        ((if BitSet.null s then [] else putChunks bound minParty (BitSet.toList s)) ++ rest) =
      some (s, rest) := by
  cases isNull : BitSet.null s with
  | true =>
      rw [BitSet.eq_empty_of_null isNull]
      rfl
  | false =>
      have read := getChunks_putChunks bound minParty (BitSet.toList s) rest
        (BitSet.toList_ascending s) fun party listed => ⟨Nat.zero_le party, within party listed⟩
      rw [Bool.not_false, if_pos rfl, if_neg Bool.false_ne_true, map_run_of_some read,
        BitSet.fromList_toList]

theorem getUntaggedNominationSet_putUntaggedNominationSet (ns : NominationSet)
    (within : PartiesWithin ns) (fits : ns.nomMax < 2 ^ 32) (rest : List UInt8) :
    getUntaggedNominationSet (nomTag ns) (putUntaggedNominationSet ns ++ rest) =
      some (ns, rest) := by
  unfold getUntaggedNominationSet putUntaggedNominationSet getParty putParty
  rw [readsTop_nomTag, readsBot_nomTag, List.append_assoc, List.append_assoc]
  rw [bind_run_of_some (getWord32be_putWord32be fits _),
    bind_run_of_some (getSet_putSet (fun party listed =>
      within party (List.mem_append_left _ listed)) _),
    bind_run_of_some (getSet_putSet (fun party listed =>
      within party (List.mem_append_right _ listed)) _)]
  rfl

/-- The round trip: a nomination set within its bound is read back, the empty one as
`emptyNominationSet`. -/
theorem getNominationSet_putNominationSet (ns : NominationSet) (within : PartiesWithin ns)
    (fits : ns.nomMax < 2 ^ 32) (rest : List UInt8) :
    getNominationSet (putNominationSet ns ++ rest) =
      some (if nomTag ns = .NSEmpty then emptyNominationSet else ns, rest) := by
  have untagged := getUntaggedNominationSet_putUntaggedNominationSet ns within fits rest
  unfold getNominationSet putNominationSet
  cases tagged : nomTag ns with
  | NSEmpty => rfl
  | NSTop =>
      rw [tagged] at untagged
      rw [List.append_assoc, bind_run_of_some (getWord8_putWord8 _ _)]
      exact untagged
  | NSBot =>
      rw [tagged] at untagged
      rw [List.append_assoc, bind_run_of_some (getWord8_putWord8 _ _)]
      exact untagged
  | NSBoth =>
      rw [tagged] at untagged
      rw [List.append_assoc, bind_run_of_some (getWord8_putWord8 _ _)]
      exact untagged

end Concordium.Afgjort.CSS
