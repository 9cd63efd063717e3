import Concordium.Afgjort.Types

/-!
Contract: the serialization of the catch-up summaries of finalization: `putFreezeSummary` and
`getFreezeSummary` of `Concordium.Afgjort.Freeze`, `putPhase`, `getPhase`, `putABBASummary` and
`getABBASummary` of `Concordium.Afgjort.ABBA`, and `putWMVBASummary` and `getWMVBASummary` of
`Concordium.Afgjort.WMVBA`, every map from parties written as a party map up to `maxParty`.

Owns:
- `FreezeSummary`, `PhaseSummary`, `ABBASummary` and `WMVBASummary`, over the types of values,
  signatures, ticket proofs and BLS signatures and their formats;
- their writers and readers, with the `Word16` count of a freeze summary's values, the `Word32`
  count of an ABBA summary's phases, the `Word64` count of each list of `Seen` messages, and the
  byte `descByte` whose bits say which parts of a WMVBA summary are present;
- what a summary needs to be read back (`FreezeSummaryReadable`, `PhaseSummaryReadable`,
  `ABBASummaryReadable`, `WMVBASummaryReadable`, and `SeenListsFit` for the `Seen` lists), and the
  round trips, each part read back from its bytes with the rest of the input left.

Does not own: the formats of values, signatures, ticket proofs and BLS signatures (parameters
here), or how a summary is built from the protocol's state. The `assert` on the number of a freeze
summary's values is not modelled: the count is written modulo `2 ^ 16`, as `fromIntegral` does.

## Where the round trip needs more than the counts it names

A list of `Seen` messages is written with cereal's list instance, whose count is a `Word64`: a list
of `2 ^ 64` messages is written with the count `0`, and is read back as the empty list
(`seen_list_count_wraps`).
-/

set_option autoImplicit false

open Serialize Concordium.Afgjort

namespace Concordium.Afgjort.Freeze

structure FreezeSummary (val sig : Type) [LinearOrder val] where
  summaryProposalsVotes : AscMap val (AscMap Nat sig × AscMap Nat sig)
  summaryBotVotes : AscMap Nat sig

section Codec

variable {val sig : Type} [LinearOrder val] (valFormat : Format val) (sigFormat : Format sig)

/-- One entry of `summaryProposalsVotes`: the value, the parties that proposed it and those that
voted for it. -/
def putProposalsVotes (maxParty : Nat) (entry : val × (AscMap Nat sig × AscMap Nat sig)) :
    List UInt8 :=
  valFormat.put entry.1 ++ putPartyMap sigFormat.put maxParty entry.2.1 ++
    putPartyMap sigFormat.put maxParty entry.2.2

/-- `putFreezeSummary maxParty s`. The source's `assert` that there are at most `2 ^ 16 - 1`
values is left out, as GHC leaves it out of optimised code: the count is written modulo `2 ^ 16`,
as `fromIntegral` does, and `FreezeSummaryReadable` asks for fewer values than that. -/
def putFreezeSummary (maxParty : Nat) (s : FreezeSummary val sig) : List UInt8 :=
  putWord16be s.summaryProposalsVotes.size ++
    s.summaryProposalsVotes.toAscList.flatMap (putProposalsVotes valFormat sigFormat maxParty) ++
    putPartyMap sigFormat.put maxParty s.summaryBotVotes

def getProposalsVotes (maxParty : Nat) : Get (val × (AscMap Nat sig × AscMap Nat sig)) := do
  let v ← valFormat.get
  let props ← getPartyMap sigFormat.get maxParty
  let vts ← getPartyMap sigFormat.get maxParty
  pure (v, (props, vts))

def getFreezeSummary (maxParty : Nat) : Get (FreezeSummary val sig) := do
  let pvcount ← getWord16be
  let summaryProposalsVotes ←
    AscMap.fromList <$> replicateGet (getProposalsVotes valFormat sigFormat maxParty) pvcount
  let summaryBotVotes ← getPartyMap sigFormat.get maxParty
  pure ⟨summaryProposalsVotes, summaryBotVotes⟩

/-- Fewer than `2 ^ 16` values, each written by its format, and party maps up to `maxParty` of
signatures that their format writes. -/
def FreezeSummaryReadable (maxParty : Nat) (s : FreezeSummary val sig) : Prop :=
  s.summaryProposalsVotes.size < 2 ^ 16 ∧
    (∀ entry ∈ s.summaryProposalsVotes.toAscList, valFormat.Admissible entry.1 ∧
      PartyMapWithin maxParty sigFormat.Admissible entry.2.1 ∧
      PartyMapWithin maxParty sigFormat.Admissible entry.2.2) ∧
    PartyMapWithin maxParty sigFormat.Admissible s.summaryBotVotes

omit [LinearOrder val] in
theorem getProposalsVotes_putProposalsVotes {maxParty : Nat}
    {entry : val × (AscMap Nat sig × AscMap Nat sig)}
    (admissible : valFormat.Admissible entry.1 ∧
      PartyMapWithin maxParty sigFormat.Admissible entry.2.1 ∧
      PartyMapWithin maxParty sigFormat.Admissible entry.2.2) :
    ReadsBack (putProposalsVotes valFormat sigFormat maxParty)
      (getProposalsVotes valFormat sigFormat maxParty) entry := by
  intro rest
  obtain ⟨value, props, vts⟩ := entry
  obtain ⟨valueAdmissible, propsWithin, vtsWithin⟩ := admissible
  rw [putProposalsVotes, List.append_assoc, List.append_assoc, getProposalsVotes,
    valFormat.bind_get_put valueAdmissible,
    bind_run_of_some (getPartyMap_putPartyMap_of_format sigFormat propsWithin _),
    bind_run_of_some (getPartyMap_putPartyMap_of_format sigFormat vtsWithin _)]
  rfl

theorem getFreezeSummary_putFreezeSummary {maxParty : Nat} {s : FreezeSummary val sig}
    (readable : FreezeSummaryReadable valFormat sigFormat maxParty s) :
    ReadsBack (putFreezeSummary valFormat sigFormat maxParty)
      (getFreezeSummary valFormat sigFormat maxParty) s := by
  intro rest
  obtain ⟨fits, entries, botVotes⟩ := readable
  -- the entries come back in ascending order of value, and `fromList` rebuilds the map
  have entriesRead := replicateGet_of_readsBack (getProposalsVotes valFormat sigFormat maxParty)
    (putProposalsVotes valFormat sigFormat maxParty) s.summaryProposalsVotes.toAscList
    (putPartyMap sigFormat.put maxParty s.summaryBotVotes ++ rest)
    fun entry listed => getProposalsVotes_putProposalsVotes valFormat sigFormat (entries entry listed)
  rw [putFreezeSummary, List.append_assoc, List.append_assoc, getFreezeSummary,
    bind_run_of_some (getWord16be_putWord16be fits _), AscMap.size,
    bind_run_of_some (map_run_of_some entriesRead), AscMap.fromList_self,
    bind_run_of_some (getPartyMap_putPartyMap_of_format sigFormat botVotes rest)]
  rfl

end Codec

end Concordium.Afgjort.Freeze

namespace Concordium.Afgjort.ABBA

open Concordium.Afgjort.CSS

structure PhaseSummary (sig ticket : Type) where
  summaryJustifiedTop : AscMap Nat (ticket × sig)
  summaryJustifiedBot : AscMap Nat (ticket × sig)
  summaryCSSSeen : AscMap Nat (List (NominationSet × sig))
  summaryCSSDoneReporting : AscMap Nat (DoneReportingDetails sig)

structure ABBASummary (sig ticket : Type) where
  summaryPhases : List (PhaseSummary sig ticket)
  summaryWeAreDoneTop : AscMap Nat sig
  summaryWeAreDoneBot : AscMap Nat sig

section Codec

variable {sig ticket : Type} (sigFormat : Format sig) (ticketFormat : Format ticket)

/-- A nomination set and its signature, as the `Serialize` instance of pairs writes them. -/
def putNominationSig (pair : NominationSet × sig) : List UInt8 :=
  putNominationSet pair.1 ++ sigFormat.put pair.2

def getNominationSig : Get (NominationSet × sig) := do
  let ns ← getNominationSet
  let signature ← sigFormat.get
  pure (ns, signature)

def putPhase (maxParty : Nat) (p : PhaseSummary sig ticket) : List UInt8 :=
  putPartyMap (ticketFormat.prod sigFormat).put maxParty p.summaryJustifiedTop ++
    putPartyMap (ticketFormat.prod sigFormat).put maxParty p.summaryJustifiedBot ++
    putPartyMap (putListOf (putNominationSig sigFormat)) maxParty p.summaryCSSSeen ++
    putPartyMap (putNominationSig sigFormat) maxParty
      (p.summaryCSSDoneReporting.map fun details => (details.nominations, details.signature))

def getPhase (maxParty : Nat) : Get (PhaseSummary sig ticket) := do
  let summaryJustifiedTop ← getPartyMap (ticketFormat.prod sigFormat).get maxParty
  let summaryJustifiedBot ← getPartyMap (ticketFormat.prod sigFormat).get maxParty
  let summaryCSSSeen ← getPartyMap (getListOf (getNominationSig sigFormat)) maxParty
  let summaryCSSDoneReporting ←
    AscMap.map (fun pair => DoneReportingDetails.mk pair.1 pair.2) <$>
      getPartyMap (getNominationSig sigFormat) maxParty
  pure ⟨summaryJustifiedTop, summaryJustifiedBot, summaryCSSSeen, summaryCSSDoneReporting⟩

def putABBASummary (maxParty : Nat) (s : ABBASummary sig ticket) : List UInt8 :=
  putWord32be s.summaryPhases.length ++
    s.summaryPhases.flatMap (putPhase sigFormat ticketFormat maxParty) ++
    putPartyMap sigFormat.put maxParty s.summaryWeAreDoneTop ++
    putPartyMap sigFormat.put maxParty s.summaryWeAreDoneBot

def getABBASummary (maxParty : Nat) : Get (ABBASummary sig ticket) := do
  let nPhases ← getWord32be
  let summaryPhases ← replicateGet (getPhase sigFormat ticketFormat maxParty) nPhases
  let summaryWeAreDoneTop ← getPartyMap sigFormat.get maxParty
  let summaryWeAreDoneBot ← getPartyMap sigFormat.get maxParty
  pure ⟨summaryPhases, summaryWeAreDoneTop, summaryWeAreDoneBot⟩

/-- A signed nomination set that is read back: the set by the codec of nomination sets, the
signature by its format. -/
def NominationSigReadable (pair : NominationSet × sig) : Prop :=
  ReadsBack putNominationSet getNominationSet pair.1 ∧ sigFormat.Admissible pair.2

/-- Party maps up to `maxParty` whose tickets, signatures and nomination sets are read back. -/
def PhaseSummaryReadable (maxParty : Nat) (p : PhaseSummary sig ticket) : Prop :=
  PartyMapWithin maxParty (ticketFormat.prod sigFormat).Admissible p.summaryJustifiedTop ∧
    PartyMapWithin maxParty (ticketFormat.prod sigFormat).Admissible p.summaryJustifiedBot ∧
    PartyMapWithin maxParty (fun seen => ∀ pair ∈ seen, NominationSigReadable sigFormat pair)
      p.summaryCSSSeen ∧
    PartyMapWithin maxParty
      (fun details => NominationSigReadable sigFormat (details.nominations, details.signature))
      p.summaryCSSDoneReporting

/-- Every list of `Seen` messages fits in its `Word64` count. -/
def SeenListsFit (p : PhaseSummary sig ticket) : Prop :=
  ∀ entry ∈ p.summaryCSSSeen.toAscList, entry.2.length < 2 ^ 64

/-- Fewer than `2 ^ 32` phases, each read back, and party maps up to `maxParty` of signatures that
their format writes. -/
def ABBASummaryReadable (maxParty : Nat) (s : ABBASummary sig ticket) : Prop :=
  s.summaryPhases.length < 2 ^ 32 ∧
    (∀ p ∈ s.summaryPhases, PhaseSummaryReadable sigFormat ticketFormat maxParty p) ∧
    PartyMapWithin maxParty sigFormat.Admissible s.summaryWeAreDoneTop ∧
    PartyMapWithin maxParty sigFormat.Admissible s.summaryWeAreDoneBot

theorem getNominationSig_putNominationSig {pair : NominationSet × sig}
    (readable : NominationSigReadable sigFormat pair) :
    ReadsBack (putNominationSig sigFormat) (getNominationSig sigFormat) pair := by
  intro rest
  obtain ⟨ns, signature⟩ := pair
  rw [putNominationSig, List.append_assoc, getNominationSig, bind_run_of_some (readable.1 _),
    sigFormat.bind_get_put readable.2]
  rfl

theorem getPhase_putPhase {maxParty : Nat} {p : PhaseSummary sig ticket}
    (readable : PhaseSummaryReadable sigFormat ticketFormat maxParty p) (fit : SeenListsFit p) :
    ReadsBack (putPhase sigFormat ticketFormat maxParty) (getPhase sigFormat ticketFormat maxParty)
      p := by
  intro rest
  obtain ⟨top, bot, seen, done⟩ := readable
  -- a list of `Seen` messages is read back when it fits in its count
  have seenRead : PartyMapWithin maxParty
      (ReadsBack (putListOf (putNominationSig sigFormat))
        (getListOf (getNominationSig sigFormat))) p.summaryCSSSeen := fun entry listed =>
    ⟨(seen entry listed).1, getListOf_putListOf (fit entry listed) fun pair member =>
      getNominationSig_putNominationSig sigFormat ((seen entry listed).2 pair member)⟩
  -- the done-reporting details are written as pairs and read back as details
  have doneRead : PartyMapWithin maxParty
      (ReadsBack (putNominationSig sigFormat) (getNominationSig sigFormat))
      (p.summaryCSSDoneReporting.map fun details => (details.nominations, details.signature)) :=
    PartyMapWithin.map (done.mono fun _ readable =>
      getNominationSig_putNominationSig sigFormat readable)
  have restored := AscMap.map_map_of_leftInverse
    (fun details : DoneReportingDetails sig => (details.nominations, details.signature))
    (fun pair => DoneReportingDetails.mk pair.1 pair.2) (fun _ => rfl) p.summaryCSSDoneReporting
  rw [putPhase, List.append_assoc, List.append_assoc, List.append_assoc, getPhase,
    bind_run_of_some (getPartyMap_putPartyMap_of_format (ticketFormat.prod sigFormat) top _),
    bind_run_of_some (getPartyMap_putPartyMap_of_format (ticketFormat.prod sigFormat) bot _),
    bind_run_of_some (getPartyMap_putPartyMap seenRead _),
    bind_run_of_some (map_run_of_some (getPartyMap_putPartyMap doneRead rest)), restored]
  rfl

theorem getABBASummary_putABBASummary {maxParty : Nat} {s : ABBASummary sig ticket}
    (readable : ABBASummaryReadable sigFormat ticketFormat maxParty s)
    (fit : ∀ p ∈ s.summaryPhases, SeenListsFit p) :
    ReadsBack (putABBASummary sigFormat ticketFormat maxParty)
      (getABBASummary sigFormat ticketFormat maxParty) s := by
  intro rest
  obtain ⟨fits, phases, top, bot⟩ := readable
  have phasesRead := replicateGet_of_readsBack (getPhase sigFormat ticketFormat maxParty)
    (putPhase sigFormat ticketFormat maxParty) s.summaryPhases
    (putPartyMap sigFormat.put maxParty s.summaryWeAreDoneTop ++
      (putPartyMap sigFormat.put maxParty s.summaryWeAreDoneBot ++ rest))
    fun p listed => getPhase_putPhase sigFormat ticketFormat (phases p listed) (fit p listed)
  rw [putABBASummary, List.append_assoc, List.append_assoc, List.append_assoc, getABBASummary,
    bind_run_of_some (getWord32be_putWord32be fits _), bind_run_of_some phasesRead,
    bind_run_of_some (getPartyMap_putPartyMap_of_format sigFormat top _),
    bind_run_of_some (getPartyMap_putPartyMap_of_format sigFormat bot rest)]
  rfl

end Codec

end Concordium.Afgjort.ABBA

namespace Concordium.Afgjort.WMVBA

open Concordium.Afgjort.CSS

structure WMVBASummary (val sig ticket blsSig : Type) [LinearOrder val] where
  summaryFreeze : Option (Freeze.FreezeSummary val sig)
  summaryABBA : Option (ABBA.ABBASummary sig ticket)
  summaryWitnessCreation : Option (val × AscMap Nat (sig × blsSig))

section Codec

variable {val sig ticket blsSig : Type} [LinearOrder val] (valFormat : Format val)
  (sigFormat : Format sig) (ticketFormat : Format ticket) (blsFormat : Format blsSig)

/-- `descByte`: bit `0` set when there is a freeze summary, bit `1` when there is an ABBA summary,
bit `2` when there are witness-creation signatures. -/
def descByte (s : WMVBASummary val sig ticket blsSig) : UInt8 :=
  (if s.summaryFreeze.isSome then (· ||| 1) else id) <|
    (if s.summaryABBA.isSome then (· ||| 2) else id) <|
      (if s.summaryWitnessCreation.isSome then (· ||| 4) else id) 0

/-- The value of the witness creation, then the signatures of the parties on it. -/
def putWitnessCreation (maxParty : Nat) (creation : val × AscMap Nat (sig × blsSig)) :
    List UInt8 :=
  valFormat.put creation.1 ++ putPartyMap (sigFormat.prod blsFormat).put maxParty creation.2

def putWMVBASummary (maxParty : Nat) (s : WMVBASummary val sig ticket blsSig) : List UInt8 :=
  putWord8 (descByte s) ++
    putOption (Freeze.putFreezeSummary valFormat sigFormat maxParty) s.summaryFreeze ++
    putOption (ABBA.putABBASummary sigFormat ticketFormat maxParty) s.summaryABBA ++
    putOption (putWitnessCreation valFormat sigFormat blsFormat maxParty) s.summaryWitnessCreation

def getWitnessCreation (maxParty : Nat) : Get (val × AscMap Nat (sig × blsSig)) := do
  let v ← valFormat.get
  let m ← getPartyMap (sigFormat.prod blsFormat).get maxParty
  pure (v, m)

def getWMVBASummary (maxParty : Nat) : Get (WMVBASummary val sig ticket blsSig) := do
  let descByte ← getWord8
  let summaryFreeze ←
    getOptionIf (Freeze.getFreezeSummary valFormat sigFormat maxParty) (descByte.toNat.testBit 0)
  let summaryABBA ←
    getOptionIf (ABBA.getABBASummary sigFormat ticketFormat maxParty) (descByte.toNat.testBit 1)
  let summaryWitnessCreation ←
    getOptionIf (getWitnessCreation valFormat sigFormat blsFormat maxParty)
      (descByte.toNat.testBit 2)
  pure ⟨summaryFreeze, summaryABBA, summaryWitnessCreation⟩

/-- Each part that is present is read back. -/
def WMVBASummaryReadable (maxParty : Nat) (s : WMVBASummary val sig ticket blsSig) : Prop :=
  (∀ freeze, s.summaryFreeze = some freeze →
      Freeze.FreezeSummaryReadable valFormat sigFormat maxParty freeze) ∧
    (∀ abba, s.summaryABBA = some abba →
      ABBA.ABBASummaryReadable sigFormat ticketFormat maxParty abba) ∧
    (∀ creation, s.summaryWitnessCreation = some creation →
      valFormat.Admissible creation.1 ∧
        PartyMapWithin maxParty (sigFormat.prod blsFormat).Admissible creation.2)

/-- Every list of `Seen` messages in the summary fits in its `Word64` count. -/
def SummarySeenListsFit (s : WMVBASummary val sig ticket blsSig) : Prop :=
  ∀ abba, s.summaryABBA = some abba → ∀ p ∈ abba.summaryPhases, ABBA.SeenListsFit p

/-- The bits of `descByte` are the parts that are present. -/
theorem testBit_descByte (s : WMVBASummary val sig ticket blsSig) :
    (descByte s).toNat.testBit 0 = s.summaryFreeze.isSome ∧
      (descByte s).toNat.testBit 1 = s.summaryABBA.isSome ∧
      (descByte s).toNat.testBit 2 = s.summaryWitnessCreation.isSome := by
  unfold descByte
  cases s.summaryFreeze.isSome <;> cases s.summaryABBA.isSome <;>
    cases s.summaryWitnessCreation.isSome <;> decide

omit [LinearOrder val] in
theorem getWitnessCreation_putWitnessCreation {maxParty : Nat}
    {creation : val × AscMap Nat (sig × blsSig)}
    (readable : valFormat.Admissible creation.1 ∧
      PartyMapWithin maxParty (sigFormat.prod blsFormat).Admissible creation.2) :
    ReadsBack (putWitnessCreation valFormat sigFormat blsFormat maxParty)
      (getWitnessCreation valFormat sigFormat blsFormat maxParty) creation := by
  intro rest
  obtain ⟨value, m⟩ := creation
  have signaturesRead :=
    getPartyMap_putPartyMap_of_format (sigFormat.prod blsFormat) readable.2 rest
  rw [putWitnessCreation, List.append_assoc, getWitnessCreation,
    valFormat.bind_get_put readable.1, bind_run_of_some signaturesRead]
  rfl

/-- The round trip of a summary: each part present is read back under its bit of `descByte`, and
the rest of the input is left. -/
theorem wmvba_summaries_round_trip (maxParty : Nat) (s : WMVBASummary val sig ticket blsSig)
    (readable : WMVBASummaryReadable valFormat sigFormat ticketFormat blsFormat maxParty s)
    (fit : SummarySeenListsFit s) (rest : List UInt8) :
    getWMVBASummary valFormat sigFormat ticketFormat blsFormat maxParty
        (putWMVBASummary valFormat sigFormat ticketFormat blsFormat maxParty s ++ rest) =
      some (s, rest) := by
  obtain ⟨freezeReadable, abbaReadable, creationReadable⟩ := readable
  obtain ⟨freezeBit, abbaBit, creationBit⟩ := testBit_descByte s
  have freezeRead := getOptionIf_of_readsBack s.summaryFreeze fun freeze present =>
    Freeze.getFreezeSummary_putFreezeSummary valFormat sigFormat (freezeReadable freeze present)
  have abbaRead := getOptionIf_of_readsBack s.summaryABBA fun abba present =>
    ABBA.getABBASummary_putABBASummary sigFormat ticketFormat (abbaReadable abba present)
      (fit abba present)
  have creationRead := getOptionIf_of_readsBack s.summaryWitnessCreation fun creation present =>
    getWitnessCreation_putWitnessCreation valFormat sigFormat blsFormat
      (creationReadable creation present)
  rw [putWMVBASummary, List.append_assoc, List.append_assoc, List.append_assoc, getWMVBASummary,
    bind_run_of_some (getWord8_putWord8 _ _), freezeBit, abbaBit, creationBit,
    bind_run_of_some (freezeRead _), bind_run_of_some (abbaRead _),
    bind_run_of_some (creationRead rest)]
  rfl

end Codec

/-- A summary with a freeze summary of one vote for bottom, and no other part. -/
def oneBotVote : WMVBASummary Nat Nat Nat Nat :=
  ⟨some ⟨AscMap.empty, AscMap.singleton 0 7⟩, none, none⟩

theorem wmvba_summaries_round_trip_on_one_vote :
    WMVBASummaryReadable (wordBE 1) (wordBE 1) (wordBE 1) (wordBE 1) 0 oneBotVote ∧
      SummarySeenListsFit oneBotVote ∧
      getWMVBASummary (wordBE 1) (wordBE 1) (wordBE 1) (wordBE 1) 0
          (putWMVBASummary (wordBE 1) (wordBE 1) (wordBE 1) (wordBE 1) 0 oneBotVote ++ []) =
        some (oneBotVote, []) := by
  have readable : WMVBASummaryReadable (wordBE 1) (wordBE 1) (wordBE 1) (wordBE 1) 0
      oneBotVote := by
    refine ⟨?_, ?_, ?_⟩
    · rintro freeze ⟨⟩
      refine ⟨by decide, ?_, ?_⟩
      · intro _ listed
        cases listed
      · intro entry listed
        rw [List.mem_singleton.mp listed]
        exact ⟨le_refl 0, show 7 < 256 ^ 1 by decide⟩
    · intro _ absent
      cases absent
    · intro _ absent
      cases absent
  have fit : SummarySeenListsFit oneBotVote := fun _ absent => by cases absent
  exact ⟨readable, fit, wmvba_summaries_round_trip (wordBE 1) (wordBE 1) (wordBE 1) (wordBE 1) 0
    oneBotVote readable fit []⟩


/-! ## A list of `Seen` messages whose count wraps -/

/-- A phase in which party `0` has `count` signed `Seen` messages of the empty nomination set. -/
def seenListPhase (count : Nat) : ABBA.PhaseSummary Nat Nat :=
  ⟨AscMap.empty, AscMap.empty, AscMap.singleton 0 (List.replicate count (emptyNominationSet, 0)),
    AscMap.empty⟩

def seenListABBA (count : Nat) : ABBA.ABBASummary Nat Nat :=
  ⟨[seenListPhase count], AscMap.empty, AscMap.empty⟩

def seenListSummary (count : Nat) : WMVBASummary Nat Nat Nat Nat :=
  ⟨none, some (seenListABBA count), none⟩

/-- An empty party map up to party `0` is one zero byte. -/
theorem putPartyMap_of_toAscList_eq_nil {v : Type} (put : v → List UInt8) {m : AscMap Nat v}
    (empty : m.toAscList = []) : putPartyMap put 0 m = [0] := by
  simp [putPartyMap, AscMap.keys, empty, BitChunks.putChunks, BitChunks.byteOfBits, minParty,
    putWord8]

theorem putPartyMap_singleton {v : Type} (put : v → List UInt8) (maxParty party : Nat)
    (value : v) :
    putPartyMap put maxParty (AscMap.singleton party value) =
      BitChunks.putChunks maxParty minParty [party] ++ put value := by
  simp [putPartyMap, AscMap.keys, AscMap.singleton]

/-- Each message is a zero byte for the empty nomination set and one for the signature. -/
theorem flatMap_seenMessages (count : Nat) :
    (List.replicate count (emptyNominationSet, 0)).flatMap (ABBA.putNominationSig (wordBE 1)) =
      List.replicate (2 * count) 0 := by
  induction count with
  | zero => rfl
  | succ count inductionHypothesis =>
      rw [List.replicate_succ, List.flatMap_cons, inductionHypothesis, Nat.mul_succ,
        Nat.add_comm, List.replicate_add]
      rfl

theorem putABBASummary_seenListABBA (count : Nat) :
    ABBA.putABBASummary (wordBE 1) (wordBE 1) 0 (seenListABBA count) =
      putWord32be 1 ++ [0, 0] ++ BitChunks.putChunks 0 minParty [0] ++ putWord64be count ++
        List.replicate (2 * count) 0 ++ [0, 0, 0] := by
  simp only [ABBA.putABBASummary, ABBA.putPhase, seenListABBA, seenListPhase, List.length_singleton,
    List.flatMap_singleton, putPartyMap_singleton, putListOf, List.length_replicate,
    flatMap_seenMessages, putPartyMap_of_toAscList_eq_nil _ (rfl : AscMap.empty.toAscList = []),
    putPartyMap_of_toAscList_eq_nil _ (rfl : (AscMap.empty.map _).toAscList = [])]
  simp

/-- The count of `2 ^ 64` messages is written as `0`, and the messages follow: the bytes are those of
the phase without messages, then the messages. -/
theorem putABBASummary_seenListABBA_wraps :
    ABBA.putABBASummary (wordBE 1) (wordBE 1) 0 (seenListABBA (2 ^ 64)) =
      ABBA.putABBASummary (wordBE 1) (wordBE 1) 0 (seenListABBA 0) ++
        List.replicate (2 * 2 ^ 64) 0 := by
  have sameCount : putWord64be (2 ^ 64) = putWord64be 0 := by decide
  -- the messages and the three empty maps after them are all zero bytes
  have zeros : List.replicate (2 * 2 ^ 64) (0 : UInt8) ++ [0, 0, 0] =
      [0, 0, 0] ++ List.replicate (2 * 2 ^ 64) 0 := by
    rw [show ([0, 0, 0] : List UInt8) = List.replicate 3 0 from rfl,
      List.replicate_append_replicate, List.replicate_append_replicate, Nat.add_comm]
  rw [putABBASummary_seenListABBA, putABBASummary_seenListABBA, sameCount, List.append_assoc _
    (List.replicate (2 * 2 ^ 64) 0), zeros]
  simp only [Nat.mul_zero, List.replicate_zero, List.append_nil, List.append_assoc]

/-- Every part of the summary is read back but for the count of the `Seen` messages. -/
theorem seenListSummary_readable (count : Nat) :
    WMVBASummaryReadable (wordBE 1) (wordBE 1) (wordBE 1) (wordBE 1) 0 (seenListSummary count) := by
  refine ⟨?_, ?_, ?_⟩
  · intro _ absent
    cases absent
  · rintro abba ⟨⟩
    refine ⟨show 1 < 2 ^ 32 by decide, ?_, ?_, ?_⟩
    · intro p listed
      rw [List.mem_singleton.mp listed]
      refine ⟨?_, ?_, ?_, ?_⟩
      · intro _ listed
        cases listed
      · intro _ listed
        cases listed
      · intro entry listed
        rw [List.mem_singleton.mp listed]
        refine ⟨le_refl 0, fun pair member => ?_⟩
        rw [List.eq_of_mem_replicate member]
        exact ⟨fun _ => rfl, show 0 < 256 ^ 1 by decide⟩
      · intro _ listed
        cases listed
    · intro _ listed
      cases listed
    · intro _ listed
      cases listed
  · intro _ absent
    cases absent

/-- The round trip fails for a summary that holds a list of `2 ^ 64` `Seen` messages: the reader
takes the count `0`, and leaves the messages unread. -/
theorem seen_list_count_wraps :
    WMVBASummaryReadable (wordBE 1) (wordBE 1) (wordBE 1) (wordBE 1) 0 (seenListSummary (2 ^ 64)) ∧
      getWMVBASummary (wordBE 1) (wordBE 1) (wordBE 1) (wordBE 1) 0
          (putWMVBASummary (wordBE 1) (wordBE 1) (wordBE 1) (wordBE 1) 0
            (seenListSummary (2 ^ 64))) ≠
        some (seenListSummary (2 ^ 64), []) := by
  refine ⟨seenListSummary_readable (2 ^ 64), ?_⟩
  have fit : ∀ p ∈ (seenListABBA 0).summaryPhases, ABBA.SeenListsFit p := by
    intro p listed entry entryListed
    rw [List.mem_singleton.mp listed] at entryListed
    rw [List.mem_singleton.mp entryListed]
    decide
  have abbaRead := ABBA.getABBASummary_putABBASummary (wordBE 1) (wordBE 1)
    ((seenListSummary_readable 0).2.1 (seenListABBA 0) rfl) fit (List.replicate (2 * 2 ^ 64) 0)
  have encoded : putWMVBASummary (wordBE 1) (wordBE 1) (wordBE 1) (wordBE 1) 0
      (seenListSummary (2 ^ 64)) =
      putWord8 2 ++ (ABBA.putABBASummary (wordBE 1) (wordBE 1) 0 (seenListABBA 0) ++
        List.replicate (2 * 2 ^ 64) 0) := by
    have described : descByte (seenListSummary (2 ^ 64)) = 2 := rfl
    rw [putWMVBASummary, described, ← putABBASummary_seenListABBA_wraps]
    simp only [seenListSummary, putOption, List.append_nil]
  have bits : (2 : UInt8).toNat.testBit 0 = false ∧ (2 : UInt8).toNat.testBit 1 = true ∧
      (2 : UInt8).toNat.testBit 2 = false := by decide
  rw [encoded, getWMVBASummary, bind_run_of_some (getWord8_putWord8 _ _), bits.1, bits.2.1,
    bits.2.2]
  -- no freeze summary, the ABBA summary without messages, and no witness creation
  have absent : ∀ {α : Type} (reader : Get α) (input : List UInt8),
      getOptionIf reader false input = some (none, input) := fun _ _ => rfl
  rw [bind_run_of_some (absent _ _), getOptionIf, if_pos rfl,
    bind_run_of_some (map_run_of_some abbaRead), bind_run_of_some (absent _ _), pure_run, Ne,
    Option.some.injEq, Prod.mk.injEq, not_and]
  intro _
  exact List.ne_nil_of_length_pos (by rw [List.length_replicate]; norm_num)

end Concordium.Afgjort.WMVBA
