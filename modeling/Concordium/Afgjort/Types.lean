import Concordium.Afgjort.CSS.NominationSet

/-!
Contract: the serialization of a map from parties to values, `putPartyMap` and `getPartyMap` of
`Concordium.Afgjort.Types`: the parties present as bit masks of eight parties a byte from
`minParty` to `maxParty`, then their values in ascending order of party.

Owns:
- `putPartyMap` and `getPartyMap`, whose reader inserts each party's value in turn
  (`buildMap`), over the writer and the reader of the values;
- `PartyMapWithin`: every party of the map is at most `maxParty`, and its value satisfies a
  predicate (`mono`, and `map` through a change of the values); with values that are read back,
  the round trip `getPartyMap_putPartyMap`, and `getPartyMap_putPartyMap_of_format` for values
  that a `Format` writes;
- `CatchUpResult`, what the processing of a catch-up summary reports, with `append` and `empty`,
  its `Semigroup` and `Monoid`, and `concat` for `mconcat`, of which `empty`s are `empty`
  (`concat_map_empty`).

Does not own: the bit masks (`BitChunks`), or the values' serialization (parameters here).
Parties are numbers, as in `Concordium.Afgjort.CSS.NominationSet`: the source's loop adds eight to
a `Word32` party, which agrees with the numbers while `maxParty + 8` does not overflow.
-/

set_option autoImplicit false

namespace Concordium.Afgjort

open Serialize BitChunks
open Concordium.Afgjort.CSS (minParty)

variable {v : Type}

/-- The parties present, then their values in ascending order of party. -/
def putPartyMap (put : v → List UInt8) (maxParty : Nat) (m : AscMap Nat v) : List UInt8 :=
  putChunks maxParty minParty m.keys ++ m.toAscList.flatMap fun entry => put entry.2

/-- `buildMap` of `getPartyMap`: the value of the next party, inserted. -/
def buildMap (reader : Get v) (m : AscMap Nat v) (p : Nat) : Get (AscMap Nat v) := do
  let value ← reader
  pure (m.insert p value)

def getPartyMap (reader : Get v) (maxParty : Nat) : Get (AscMap Nat v) := do
  let parties ← getChunks maxParty minParty
  parties.foldlM (buildMap reader) AscMap.empty

/-- Every party of the map is at most `maxParty`, and its value is `admissible`. -/
def PartyMapWithin (maxParty : Nat) (admissible : v → Prop) (m : AscMap Nat v) : Prop :=
  ∀ entry ∈ m.toAscList, entry.1 ≤ maxParty ∧ admissible entry.2

theorem PartyMapWithin.mono {maxParty : Nat} {admissible weaker : v → Prop} {m : AscMap Nat v}
    (within : PartyMapWithin maxParty admissible m)
    (implies : ∀ value, admissible value → weaker value) : PartyMapWithin maxParty weaker m :=
  fun entry listed => ⟨(within entry listed).1, implies _ (within entry listed).2⟩

theorem PartyMapWithin.map {w : Type} {maxParty : Nat} {admissible : w → Prop} {change : v → w}
    {m : AscMap Nat v}
    (within : PartyMapWithin maxParty (fun value => admissible (change value)) m) :
    PartyMapWithin maxParty admissible (m.map change) := by
  intro entry listed
  obtain ⟨original, originalListed, rfl⟩ := List.mem_map.mp listed
  exact within original originalListed

/-- Reading the values of the parties in turn inserts each entry, when each value is read back
from its bytes. -/
theorem foldlM_buildMap (reader : Get v) (put : v → List UInt8) :
    ∀ (entries : List (Nat × v)) (init : AscMap Nat v) (rest : List UInt8),
      (∀ entry ∈ entries, ReadsBack put reader entry.2) →
        (entries.map Prod.fst).foldlM (buildMap reader) init
            (entries.flatMap (fun entry => put entry.2) ++ rest) =
          some (entries.foldl (fun map entry => map.insert entry.1 entry.2) init, rest)
  | [], _, _, _ => rfl
  | (party, value) :: entries, init, rest, reads => by
      have built : buildMap reader init party
          (put value ++ (entries.flatMap (fun entry => put entry.2) ++ rest)) =
          some (init.insert party value, entries.flatMap (fun entry => put entry.2) ++ rest) := by
        rw [buildMap, bind_run_of_some (reads (party, value) List.mem_cons_self _)]
        rfl
      rw [List.map_cons, List.foldlM_cons, List.flatMap_cons, List.append_assoc,
        bind_run_of_some built, List.foldl_cons]
      exact foldlM_buildMap reader put entries _ rest
        fun entry listed => reads entry (List.mem_cons_of_mem _ listed)

/-- The round trip: a map whose parties are at most `maxParty` and whose values are read back is
read back. -/
theorem getPartyMap_putPartyMap {put : v → List UInt8} {reader : Get v} {maxParty : Nat}
    {m : AscMap Nat v} (within : PartyMapWithin maxParty (ReadsBack put reader) m) :
    ReadsBack (putPartyMap put maxParty) (getPartyMap reader maxParty) m := by
  intro rest
  -- the parties are the map's keys, ascending and between `minParty` and `maxParty`
  have inRange : ∀ party ∈ m.keys, minParty ≤ party ∧ party ≤ maxParty := by
    intro party listed
    obtain ⟨entry, entryListed, rfl⟩ := List.mem_map.mp listed
    exact ⟨Nat.zero_le _, (within entry entryListed).1⟩
  have partiesRead := getChunks_putChunks maxParty minParty m.keys
    (m.toAscList.flatMap (fun entry => put entry.2) ++ rest) m.ascending inRange
  rw [putPartyMap, getPartyMap, List.append_assoc, bind_run_of_some partiesRead, AscMap.keys,
    foldlM_buildMap reader put m.toAscList AscMap.empty rest
      fun entry listed => (within entry listed).2]
  rw [← AscMap.fromList, AscMap.fromList_self]

/-- A party map whose values a format writes is read back. -/
theorem getPartyMap_putPartyMap_of_format (format : Format v) {maxParty : Nat}
    {m : AscMap Nat v} (within : PartyMapWithin maxParty format.Admissible m) :
    ReadsBack (putPartyMap format.put maxParty) (getPartyMap format.get maxParty) m :=
  getPartyMap_putPartyMap (within.mono fun _ admissible => format.readsBack admissible)

/-! ## Catch-up results -/

/-- What a catch-up summary tells its receiver. -/
structure CatchUpResult where
  /-- We have relevant information that the summary did not provide. -/
  curBehind : Bool
  /-- The summary refers to blocks we do not know about, so Skov has to catch up. -/
  curSkovCatchUp : Bool
deriving DecidableEq, Repr

namespace CatchUpResult

/-- `(<>)`: either result says it. -/
def append (r1 r2 : CatchUpResult) : CatchUpResult :=
  ⟨r1.curBehind || r2.curBehind, r1.curSkovCatchUp || r2.curSkovCatchUp⟩

/-- `mempty`. -/
def empty : CatchUpResult :=
  ⟨false, false⟩

/-- `mconcat`. -/
def concat (results : List CatchUpResult) : CatchUpResult :=
  results.foldr append empty

theorem concat_map_empty {α : Type} (items : List α) : concat (items.map fun _ => empty) = empty := by
  induction items with
  | nil => rfl
  | cons _ rest inductionHypothesis =>
    rw [List.map_cons, concat, List.foldr_cons, ← concat, inductionHypothesis]
    rfl

end CatchUpResult

end Concordium.Afgjort
