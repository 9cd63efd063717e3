import Concordium.KonsensusV1.Types
import Concordium.Library.AscMap

/-!
Contract: the completeness check of a core-set-selection summary, `cssSummaryCheckComplete` of
`Concordium.Afgjort.CSS`, over the bit sets of `Concordium.Afgjort.CSS.BitSet` and the
nomination sets of `Concordium.Afgjort.CSS.NominationSet`.

Owns:
- `BitSet` as the source's bit vector, with the operations the check and the protocol use,
  `member_fromList`: the set built from a list has exactly its elements, and `mem_toList`,
  `toList_ascending` and `fromList_toList` for its ascending list of members; `NominationSet`
  with `subsumedBy` and `unionNominationSet`;
- `CSSMessage`, `DoneReportingDetails`, `CSSSummary` and the weights of `CSSInstance`;
- `cssSummaryCheckComplete` with its `checkDoneReps`, `checkInps`, `checkParties` and
  `partySeen`, and `checkDoneReps_le`: the weight it counts never exceeds that of the reporters
  whose done-reporting signature passes;
- `intendedCheckComplete`, the check as the protocol states it: a reporter counts when its
  done-reporting is signed, every input it nominates is signed by the party that nominated it,
  and its `Seen` messages cover its nominations.

Does not own: the rest of `CSSState`, the signature scheme (`checkSig` is a parameter), or
`maxParty`, which the check does not read.

## Where the check departs from the protocol

`checkParties` checks an input of party `p` with `checkSig party (Input b)`, where `party` is the
reporter, not `p`, and records `party` rather than `p` as checked. An input signed by `p` is then
refused, and one signed by the reporter in `p`'s place is accepted.
-/

set_option autoImplicit false

namespace Concordium.Afgjort.CSS

/-! ## Bit sets and nomination sets -/

/-- `type BitSet = Integer`: a set of parties as the bits of a number. The sets the check builds
are never negative, so a natural number. -/
abbrev BitSet := Nat

namespace BitSet

def empty : BitSet := 0

/-- `setBit`. -/
def insert (i : Nat) (s : BitSet) : BitSet :=
  s ||| 2 ^ i

def union (s1 s2 : BitSet) : BitSet :=
  s1 ||| s2

def intersection (s1 s2 : BitSet) : BitSet :=
  s1 &&& s2

def isSubsetOf (s1 s2 : BitSet) : Bool :=
  s1 &&& s2 == s1

/-- `s1 .&. complement s2`; on sets that are not negative this clears from `s1` the bits it
shares with `s2`. -/
def difference (s1 s2 : BitSet) : BitSet :=
  s1 ^^^ (s1 &&& s2)

/-- `toAscList`: its `go` lists the positions of the set bits from bit `0` upwards. -/
def toList (s : BitSet) : List Nat :=
  Bits.positions 0 s

/-- `testBit`. -/
def member (i : Nat) (s : BitSet) : Bool :=
  s.testBit i

/-- `bit`. -/
def singleton (i : Nat) : BitSet :=
  2 ^ i

def null (s : BitSet) : Bool :=
  s == 0

def fromList (l : List Nat) : BitSet :=
  l.foldr (fun b s => insert b s) 0

@[simp] theorem member_empty (i : Nat) : member i empty = false :=
  Nat.zero_testBit i

@[simp] theorem member_insert (i j : Nat) (s : BitSet) :
    member j (insert i s) = (member j s || decide (i = j)) := by
  rw [member, insert, Nat.testBit_or, Nat.testBit_two_pow]
  rfl

@[simp] theorem member_union (i : Nat) (s1 s2 : BitSet) :
    member i (union s1 s2) = (member i s1 || member i s2) :=
  Nat.testBit_or s1 s2 i

@[simp] theorem member_intersection (i : Nat) (s1 s2 : BitSet) :
    member i (intersection s1 s2) = (member i s1 && member i s2) :=
  Nat.testBit_and s1 s2 i

@[simp] theorem member_singleton (i j : Nat) : member j (singleton i) = decide (i = j) := by
  rw [member, singleton, Nat.testBit_two_pow]

theorem member_fromList (l : List Nat) (i : Nat) : member i (fromList l) = true ↔ i ∈ l := by
  induction l with
  | nil => simp [fromList, member]
  | cons head tail inductionHypothesis =>
      rw [fromList, List.foldr_cons, ← fromList, member_insert, Bool.or_eq_true,
        inductionHypothesis, decide_eq_true_eq, List.mem_cons]
      exact ⟨fun found => found.elim Or.inr fun same => Or.inl same.symm,
        fun found => found.elim (fun same => Or.inr same.symm) Or.inl⟩

/-- A set that is not `null` has a member. -/
theorem exists_member_of_null_eq_false {s : BitSet} (nonNull : null s = false) :
    ∃ i, member i s = true := by
  have nonZero : s ≠ 0 := by simpa [null] using nonNull
  exact Nat.exists_testBit_of_ne_zero nonZero

theorem eq_empty_of_null {s : BitSet} (isNull : null s = true) : s = empty := by
  simpa [null, empty] using isNull

theorem mem_toList (i : Nat) (s : BitSet) : i ∈ toList s ↔ member i s = true := by
  rw [toList, Bits.mem_positions, Nat.sub_zero, member]
  exact ⟨fun found => found.2, fun found => ⟨Nat.zero_le i, found⟩⟩

theorem toList_ascending (s : BitSet) : (toList s).Pairwise (· < ·) :=
  Bits.positions_ascending 0 s

/-- The set of the members of a set is the set. -/
theorem fromList_toList (s : BitSet) : fromList (toList s) = s := by
  apply Nat.eq_of_testBit_eq
  intro i
  rw [Bool.eq_iff_iff, ← member, member_fromList, mem_toList]
  rfl

end BitSet

structure NominationSet where
  nomMax : Nat
  nomTop : BitSet
  nomBot : BitSet
deriving DecidableEq, Repr

/-- `emptyNominationSet`, whose `nomMax` is `minParty`. -/
def emptyNominationSet : NominationSet :=
  ⟨0, BitSet.empty, BitSet.empty⟩

def subsumedBy (s1 s2 : NominationSet) : Bool :=
  BitSet.isSubsetOf s1.nomTop s2.nomTop && BitSet.isSubsetOf s1.nomBot s2.nomBot

def unionNominationSet (ns1 ns2 : NominationSet) : NominationSet :=
  ⟨max ns1.nomMax ns2.nomMax, BitSet.union ns1.nomTop ns2.nomTop,
    BitSet.union ns1.nomBot ns2.nomBot⟩

/-! ## Messages, summaries and the check -/

inductive CSSMessage where
  | input (choice : Bool)
  | seen (nominations : NominationSet)
  | doneReporting (nominations : NominationSet)
deriving DecidableEq, Repr

structure DoneReportingDetails (sig : Type) where
  nominations : NominationSet
  signature : sig
deriving DecidableEq, Repr

/-- The weights of a `CSSInstance`. -/
structure CSSInstance where
  totalWeight : Nat
  corruptWeight : Nat
  partyWeight : Nat → Nat

structure CSSSummary (sig : Type) where
  summaryInputsTop : AscMap Nat sig
  summaryInputsBot : AscMap Nat sig
  summarySeen : AscMap Nat (List (NominationSet × sig))
  summaryDoneReporting : AscMap Nat (DoneReportingDetails sig)

section Check

variable {sig : Type} (checkSig : Nat → CSSMessage → sig → Bool)

/-- `checkParties` of `checkInps`: each party in turn must have an input whose signature passes
`checkSig party (Input b)`, with `party` the reporter as in the source, and `party` is then added
to the parties already checked. -/
def checkParties (party : Nat) (inps : AscMap Nat sig) (b : Bool) :
    BitSet → List Nat → BitSet × Bool
  | newPreCheck, [] => (newPreCheck, true)
  | newPreCheck, p :: ps =>
      match inps.lookup p with
      | none => (newPreCheck, false)
      | some isig =>
          if checkSig party (.input b) isig then
            checkParties party inps b (BitSet.insert party newPreCheck) ps
          else (newPreCheck, false)

/-- `checkInps toCheck preCheck inps b` for the reporter `party`: check the nominated parties
that are not already checked. -/
def checkInps (party : Nat) (toCheck preCheck : BitSet) (inps : AscMap Nat sig) (b : Bool) :
    BitSet × Bool :=
  checkParties checkSig party inps b preCheck (BitSet.toList (BitSet.difference toCheck preCheck))

/-- `partySeen`: the union of the nomination sets of the `Seen` messages of `party` whose
signature passes. -/
def partySeen (summary : CSSSummary sig) (party : Nat) : NominationSet :=
  (((summary.summarySeen.findWithDefault [] party).filter fun seen =>
      checkSig party (.seen seen.1) seen.2).map Prod.fst).foldl
    unionNominationSet emptyNominationSet

/-- `checkDoneReps preCheckTop preCheckBot drWeight reports`, with the two caches of parties
whose inputs were already checked. -/
def checkDoneReps (summary : CSSSummary sig) (inst : CSSInstance) :
    BitSet → BitSet → Nat → List (Nat × DoneReportingDetails sig) → Nat
  | _, _, drWeight, [] => drWeight
  | preCheckTop, preCheckBot, drWeight, (party, ⟨ns, signature⟩) :: rest =>
      if checkSig party (.doneReporting ns) signature then
        let top := checkInps checkSig party ns.nomTop preCheckTop summary.summaryInputsTop true
        let bot := checkInps checkSig party ns.nomBot preCheckBot summary.summaryInputsBot false
        if top.2 then
          if bot.2 then
            if subsumedBy ns (partySeen checkSig summary party) then
              checkDoneReps summary inst top.1 bot.1 (Word.add 64 (inst.partyWeight party) drWeight)
                rest
            else checkDoneReps summary inst top.1 bot.1 drWeight rest
          else checkDoneReps summary inst top.1 bot.1 drWeight rest
        -- a failed top check keeps the bottom cache as it was
        else checkDoneReps summary inst top.1 preCheckBot drWeight rest
      else checkDoneReps summary inst preCheckTop preCheckBot drWeight rest

def cssSummaryCheckComplete (summary : CSSSummary sig) (inst : CSSInstance) : Bool :=
  decide (checkDoneReps checkSig summary inst BitSet.empty BitSet.empty 0
      summary.summaryDoneReporting.toAscList ≥ inst.totalWeight - inst.corruptWeight)

/-! ## The check the protocol describes -/

/-- The input `inps` holds from `p` for `b` is there and signed by `p` itself. -/
def inputSignedBy (inps : AscMap Nat sig) (b : Bool) (p : Nat) : Bool :=
  match inps.lookup p with
  | some isig => checkSig p (.input b) isig
  | none => false

/-- A done-reporting of `q` that counts: signed by `q`, each nominated input signed by its own
party, and the nominations covered by `q`'s validly signed `Seen` messages. -/
def justifiedDoneReport (summary : CSSSummary sig) (q : Nat) (details : DoneReportingDetails sig) :
    Bool :=
  checkSig q (.doneReporting details.nominations) details.signature &&
    (BitSet.toList details.nominations.nomTop).all
      (inputSignedBy checkSig summary.summaryInputsTop true) &&
    (BitSet.toList details.nominations.nomBot).all
      (inputSignedBy checkSig summary.summaryInputsBot false) &&
    subsumedBy details.nominations (partySeen checkSig summary q)

/-- Completeness as the protocol states it: the reporters that count reach
`totalWeight - corruptWeight`. -/
def intendedCheckComplete (summary : CSSSummary sig) (inst : CSSInstance) : Bool :=
  decide ((((summary.summaryDoneReporting.toAscList.filter fun report =>
      justifiedDoneReport checkSig summary report.1 report.2).map fun report =>
        inst.partyWeight report.1).sum) ≥ inst.totalWeight - inst.corruptWeight)

/-! ## What the check counts -/

/-- The weight of the reporters whose done-reporting signature passes. -/
def signedReportWeight (inst : CSSInstance) (reports : List (Nat × DoneReportingDetails sig)) :
    Nat :=
  ((reports.filter fun report =>
      checkSig report.1 (.doneReporting report.2.nominations) report.2.signature).map
    fun report => inst.partyWeight report.1).sum

theorem signedReportWeight_cons (inst : CSSInstance) (party : Nat)
    (details : DoneReportingDetails sig) (rest : List (Nat × DoneReportingDetails sig)) :
    signedReportWeight checkSig inst ((party, details) :: rest) =
      (if checkSig party (.doneReporting details.nominations) details.signature then
        inst.partyWeight party else 0) + signedReportWeight checkSig inst rest := by
  unfold signedReportWeight
  rw [List.filter_cons]
  split <;> simp

/-- Whatever the caches hold, the weight `checkDoneReps` adds is at most that of the reporters
whose done-reporting signature passes. -/
theorem checkDoneReps_le (summary : CSSSummary sig) (inst : CSSInstance) :
    ∀ (reports : List (Nat × DoneReportingDetails sig)) (preCheckTop preCheckBot drWeight : Nat),
      checkDoneReps checkSig summary inst preCheckTop preCheckBot drWeight reports ≤
        drWeight + signedReportWeight checkSig inst reports
  | [], _, _, drWeight => by simp [checkDoneReps, signedReportWeight]
  | (party, ⟨ns, signature⟩) :: rest, preCheckTop, preCheckBot, drWeight => by
      rw [checkDoneReps, signedReportWeight_cons]
      -- each branch continues on the rest from at most `drWeight` plus the reporter's weight,
      -- and only a signed report adds that weight
      by_cases signed : checkSig party (.doneReporting ns) signature
      · have wrapped : Word.add 64 (inst.partyWeight party) drWeight ≤
            inst.partyWeight party + drWeight := Word.add_le _ _
        simp only [signed, if_true]
        split_ifs <;>
          exact Nat.le_trans (checkDoneReps_le summary inst rest _ _ _) (by omega)
      · simp only [signed, Bool.false_eq_true, if_false, Nat.zero_add]
        exact checkDoneReps_le summary inst rest preCheckTop preCheckBot drWeight

end Check

/-! ## One reporter, one nominated input -/

/-- Signatures that name their signer: a signature is valid for a party when it is that
party. -/
def signedBy (party : Nat) (_message : CSSMessage) (signature : Nat) : Bool :=
  signature == party

/-- Party `1` nominated top. -/
def topOfOne : NominationSet :=
  ⟨1, BitSet.insert 1 BitSet.empty, BitSet.empty⟩

def oneReporter : CSSInstance :=
  ⟨1, 0, fun _ => 1⟩

/-- Party `0` saw and reports the nomination of party `1`, whose input carries the signature
`inputSignature`. -/
def reportOfOne (inputSignature : Nat) : CSSSummary Nat where
  summaryInputsTop := AscMap.singleton 1 inputSignature
  summaryInputsBot := AscMap.empty
  summarySeen := AscMap.singleton 0 [(topOfOne, 0)]
  summaryDoneReporting := AscMap.singleton 0 ⟨topOfOne, 0⟩

theorem cssSummaryCheckComplete_checks_inputs_against_reporter :
    cssSummaryCheckComplete signedBy (reportOfOne 1) oneReporter = false ∧
      intendedCheckComplete signedBy (reportOfOne 1) oneReporter = true ∧
      cssSummaryCheckComplete signedBy (reportOfOne 0) oneReporter = true ∧
      intendedCheckComplete signedBy (reportOfOne 0) oneReporter = false := by
  -- `BitSet.toList` recurses on the bits by well-founded recursion, which the kernel unfolds
  refine ⟨?_, ?_, ?_, ?_⟩ <;> decide +kernel

end Concordium.Afgjort.CSS
