import Concordium.KonsensusV1.Consensus.Timeout
import Concordium.KonsensusV1.Types.SignedBlock
import Mathlib.Data.List.Sort
import Mathlib.Algebra.Group.PUnit

/-!
Contract: the certificate `makeTimeoutCertificate` builds from stored timeout messages that
keep their invariants records, for each epoch, every finalizer that timed out in the set of its
QC's round and in no other set; and the certificate's decoder reads its encoding back, as long
as fewer than `2 ^ 32` finalizers timed out in each epoch.

Owns:
- `RecordsRounds`, what a `FinalizerRounds` records of a map of timeout messages, and
  `recordsRounds_toFinalizerRounds`, from the fold invariant `Records` that each
  `foldHelper` step keeps;
- `makeTimeoutCertificate_records_rounds`, the certificate's fields and its round trip through
  the wire format of `Concordium.KonsensusV1.Types`;
- `makeTimeoutCertificate_outgrows_round_count`: with all `2 ^ 32` finalizer indices timed out
  on distinct QC rounds, the count of rounds the encoder writes as a `Word32` wraps to `0`, and
  the decoder reads a different certificate.

Does not own: the format of aggregate signatures (a parameter) and the check of a certificate.
-/

set_option autoImplicit false

namespace Concordium.KonsensusV1.Consensus.Timeout

open Concordium.KonsensusV1.Types
open Concordium.KonsensusV1.Consensus.RoundSigning (TimeoutMessage TimeoutMessageBody)
open Serialize

variable {σ : Type}

/-- The round of the QC a timeout message carries. -/
def qcRoundOf (tm : TimeoutMessage σ) : Nat :=
  tm.tmBody.tmQuorumCertificate.qcRound

/-! ## The fold of `toFinalizerRounds` -/

/-- What the map from QC round to finalizer set built so far records of the messages folded into
it: a finalizer is in the set of a round exactly when its message has a QC of that round, and no
recorded set is empty. -/
structure Records (finRounds : AscMap Nat FinalizerSet)
    (messages : List (Nat × TimeoutMessage σ)) : Prop where
  members : ∀ roundOfQC finIndex,
    memberFinalizerSet finIndex (finRounds.findWithDefault emptyFinalizerSet roundOfQC) = true ↔
      ∃ tm, (finIndex, tm) ∈ messages ∧ qcRoundOf tm = roundOfQC
  nonEmpty : ∀ roundOfQC finSet, finRounds.lookup roundOfQC = some finSet →
    ∃ finIndex, memberFinalizerSet finIndex finSet = true

theorem records_empty : Records AscMap.empty ([] : List (Nat × TimeoutMessage σ)) where
  members roundOfQC finIndex := by simp [AscMap.findWithDefault]
  nonEmpty roundOfQC finSet found := by simp at found

theorem findWithDefault_insert (finRounds : AscMap Nat FinalizerSet) (key query : Nat)
    (finSet : FinalizerSet) :
    (finRounds.insert key finSet).findWithDefault emptyFinalizerSet query =
      if query = key then finSet else finRounds.findWithDefault emptyFinalizerSet query := by
  rw [AscMap.findWithDefault, AscMap.lookup_insert]
  split_ifs <;> rfl

/-- One step of the fold adds the finalizer to the set of its QC's round. -/
theorem Records.step {finRounds : AscMap Nat FinalizerSet}
    {messages : List (Nat × TimeoutMessage σ)} (records : Records finRounds messages)
    (finIndex : Nat) (tm : TimeoutMessage σ) :
    Records (foldHelper finRounds finIndex tm) (messages ++ [(finIndex, tm)]) where
  members roundOfQC member := by
    rw [foldHelper, findWithDefault_insert]
    simp only [List.mem_append, List.mem_singleton, Prod.mk.injEq]
    by_cases sameRound : roundOfQC = tm.tmBody.tmQuorumCertificate.qcRound
    · -- the set of the message's round gains the finalizer
      subst sameRound
      rw [if_pos rfl, memberFinalizerSet_addFinalizer, Bool.or_eq_true, decide_eq_true_eq,
        records.members]
      constructor
      · rintro (⟨other, listed, round⟩ | rfl)
        · exact ⟨other, .inl listed, round⟩
        · exact ⟨tm, .inr ⟨rfl, rfl⟩, rfl⟩
      · rintro ⟨other, listed | ⟨rfl, rfl⟩, round⟩
        · exact .inl ⟨other, listed, round⟩
        · exact .inr rfl
    · rw [if_neg sameRound, records.members]
      constructor
      · rintro ⟨other, listed, round⟩
        exact ⟨other, .inl listed, round⟩
      · rintro ⟨other, listed | ⟨rfl, rfl⟩, round⟩
        · exact ⟨other, listed, round⟩
        · exact absurd round.symm sameRound
  nonEmpty roundOfQC finSet found := by
    rw [foldHelper, AscMap.lookup_insert] at found
    split_ifs at found with sameRound
    · cases found
      exact ⟨finIndex, by simp⟩
    · exact records.nonEmpty roundOfQC finSet found

theorem records_foldl : ∀ (later : List (Nat × TimeoutMessage σ))
    (finRounds : AscMap Nat FinalizerSet) (messages : List (Nat × TimeoutMessage σ)),
    Records finRounds messages →
      Records (later.foldl (fun acc entry => foldHelper acc entry.1 entry.2) finRounds)
        (messages ++ later)
  | [], _, messages, records => by rwa [List.append_nil]
  | entry :: later, finRounds, messages, records => by
      rw [List.foldl_cons, ← List.singleton_append, ← List.append_assoc]
      exact records_foldl later _ _ (records.step entry.1 entry.2)

/-! ## What a certificate records -/

/-- What a `FinalizerRounds` records of a map of timeout messages keyed by finalizer index:
no set is empty, the sets are pairwise disjoint, together they are the finalizers of the map, and
a finalizer is in the set of a round exactly when its message's QC is of that round. -/
structure RecordsRounds (rounds : FinalizerRounds) (timeouts : AscMap Nat (TimeoutMessage σ)) :
    Prop where
  nonEmpty : ∀ entry ∈ rounds.theFinalizerRounds,
    ∃ finIndex, memberFinalizerSet finIndex entry.2 = true
  disjoint : rounds.theFinalizerRounds.Pairwise fun first second =>
    ∀ finIndex, ¬ (memberFinalizerSet finIndex first.2 = true ∧
      memberFinalizerSet finIndex second.2 = true)
  covers : ∀ finIndex, finIndex ∈ timeouts.keys ↔
    ∃ entry ∈ rounds.theFinalizerRounds, memberFinalizerSet finIndex entry.2 = true
  byRound : ∀ entry ∈ rounds.theFinalizerRounds, ∀ finIndex,
    memberFinalizerSet finIndex entry.2 = true ↔
      ∃ tm, timeouts.lookup finIndex = some tm ∧ qcRoundOf tm = entry.1

theorem mem_keys_iff (timeouts : AscMap Nat (TimeoutMessage σ)) (finIndex : Nat) :
    finIndex ∈ timeouts.keys ↔ ∃ tm, timeouts.lookup finIndex = some tm := by
  simp only [AscMap.keys, List.mem_map, ← AscMap.mem_iff_lookup]
  constructor
  · rintro ⟨⟨key, tm⟩, listed, rfl⟩
    exact ⟨tm, listed⟩
  · rintro ⟨tm, listed⟩
    exact ⟨(finIndex, tm), listed, rfl⟩

theorem recordsRounds_toFinalizerRounds (timeouts : AscMap Nat (TimeoutMessage σ)) :
    RecordsRounds (toFinalizerRounds timeouts) timeouts := by
  have records := records_foldl timeouts.toAscList AscMap.empty [] records_empty
  rw [List.nil_append] at records
  set finRounds := timeouts.toAscList.foldl (fun acc entry => foldHelper acc entry.1 entry.2)
    AscMap.empty with finRoundsDef
  have rounds : (toFinalizerRounds timeouts).theFinalizerRounds = finRounds.toAscList := rfl
  -- a listed set is the one `findWithDefault` returns for its round
  have listedSet : ∀ entry ∈ finRounds.toAscList,
      finRounds.findWithDefault emptyFinalizerSet entry.1 = entry.2 := by
    intro entry listed
    rw [AscMap.findWithDefault, (AscMap.mem_iff_lookup _ _ _).mp listed]
    rfl
  have byRound : ∀ entry ∈ finRounds.toAscList, ∀ finIndex,
      memberFinalizerSet finIndex entry.2 = true ↔
        ∃ tm, timeouts.lookup finIndex = some tm ∧ qcRoundOf tm = entry.1 := by
    intro entry listed finIndex
    rw [← listedSet entry listed, records.members]
    simp only [AscMap.mem_iff_lookup]
  refine ⟨?_, ?_, ?_, ?_⟩
  · intro entry listed
    exact records.nonEmpty entry.1 entry.2 ((AscMap.mem_iff_lookup _ _ _).mp (by
      rw [rounds] at listed
      exact listed))
  · rw [rounds]
    refine (List.pairwise_map.mp finRounds.ascending).imp_of_mem ?_
    intro first second firstListed secondListed below finIndex ⟨inFirst, inSecond⟩
    obtain ⟨tm, found, firstRound⟩ := (byRound first firstListed finIndex).mp inFirst
    obtain ⟨other, found', secondRound⟩ := (byRound second secondListed finIndex).mp inSecond
    rw [found, Option.some.injEq] at found'
    subst found'
    omega
  · intro finIndex
    rw [mem_keys_iff, rounds]
    constructor
    · rintro ⟨tm, found⟩
      -- the message's round has a set, and it holds the finalizer
      have member : memberFinalizerSet finIndex
          (finRounds.findWithDefault emptyFinalizerSet (qcRoundOf tm)) = true :=
        (records.members _ _).mpr ⟨tm, (AscMap.mem_iff_lookup _ _ _).mpr found, rfl⟩
      cases recorded : finRounds.lookup (qcRoundOf tm) with
      | none =>
          rw [AscMap.findWithDefault, recorded] at member
          simp at member
      | some finSet =>
          rw [AscMap.findWithDefault, recorded] at member
          exact ⟨(qcRoundOf tm, finSet), (AscMap.mem_iff_lookup _ _ _).mpr recorded, member⟩
    · rintro ⟨entry, listed, member⟩
      obtain ⟨tm, found, _⟩ := (byRound entry listed finIndex).mp member
      exact ⟨tm, found⟩
  · rw [rounds]
    exact byRound

/-- A map records at most as many rounds as it has messages: each round is the QC round of one
of them. -/
theorem RecordsRounds.length_le {rounds : FinalizerRounds}
    {timeouts : AscMap Nat (TimeoutMessage σ)} (records : RecordsRounds rounds timeouts) :
    rounds.theFinalizerRounds.length ≤ timeouts.toAscList.length := by
  have nodup : (rounds.theFinalizerRounds.map Prod.fst).Nodup :=
    rounds.ascending.imp (fun below => Nat.ne_of_lt below)
  have within : rounds.theFinalizerRounds.map Prod.fst ⊆
      timeouts.toAscList.map fun entry => qcRoundOf entry.2 := by
    intro roundOfQC listed
    obtain ⟨entry, entryListed, rfl⟩ := List.mem_map.mp listed
    obtain ⟨finIndex, member⟩ := records.nonEmpty entry entryListed
    obtain ⟨tm, found, round⟩ := (records.byRound entry entryListed finIndex).mp member
    exact List.mem_map.mpr ⟨(finIndex, tm), (AscMap.mem_iff_lookup _ _ _).mpr found, round⟩
  simpa using (List.subperm_of_subset nodup within).length_le

/-! ## The certificate -/

/-- From stored messages that keep their invariants, the certificate's minimum epoch is their
first epoch, each epoch's rounds record that epoch's messages, signatures in the second epoch come
with signatures in the first, and, where the round, the epochs, the finalizer indices and QC
rounds fit their words, the aggregate signature can be written, and fewer than `2 ^ 32`
finalizers timed out in each epoch, the decoder reads the encoding back. -/
theorem makeTimeoutCertificate_records_rounds [Monoid σ] (signature : Format σ)
    (currentRound : Nat) (tms : TimeoutMessages σ) (valid : tms.Invariant)
    (roundFits : currentRound < 2 ^ 64) (epochFits : tms.tmFirstEpoch < 2 ^ 64)
    (messagesFit : ∀ timeouts ∈ [tms.tmFirstEpochTimeouts, tms.tmSecondEpochTimeouts],
      ∀ entry ∈ timeouts.toAscList, entry.1 < 2 ^ 32 ∧ qcRoundOf entry.2 < 2 ^ 64)
    (fewTimeouts : ∀ timeouts ∈ [tms.tmFirstEpochTimeouts, tms.tmSecondEpochTimeouts],
      timeouts.toAscList.length < 2 ^ 32)
    (signatureFits :
      signature.Admissible (makeTimeoutCertificate currentRound tms).tcAggregateSignature) :
    (makeTimeoutCertificate currentRound tms).tcMinEpoch = tms.tmFirstEpoch ∧
    RecordsRounds (makeTimeoutCertificate currentRound tms).tcFinalizerQCRoundsFirstEpoch
      tms.tmFirstEpochTimeouts ∧
    RecordsRounds (makeTimeoutCertificate currentRound tms).tcFinalizerQCRoundsSecondEpoch
      tms.tmSecondEpochTimeouts ∧
    (makeTimeoutCertificate currentRound tms).WellFormed ∧
    getTimeoutCertificate signature
        (putTimeoutCertificate signature (makeTimeoutCertificate currentRound tms)) =
      some (makeTimeoutCertificate currentRound tms, []) := by
  have firstRecords := recordsRounds_toFinalizerRounds tms.tmFirstEpochTimeouts
  have secondRecords := recordsRounds_toFinalizerRounds tms.tmSecondEpochTimeouts
  -- the first epoch has a message, so its rounds are not empty
  have firstRounds : (toFinalizerRounds tms.tmFirstEpochTimeouts).theFinalizerRounds ≠ [] := by
    obtain ⟨entry, listed⟩ := List.exists_mem_of_ne_nil _
      (List.isEmpty_eq_false_iff.mp valid.firstNonEmpty)
    obtain ⟨roundEntry, _, _⟩ := (firstRecords.covers entry.1).mp
      (List.mem_map.mpr ⟨entry, listed, rfl⟩)
    exact List.ne_nil_of_mem ‹_›
  have writable : ∀ timeouts ∈ [tms.tmFirstEpochTimeouts, tms.tmSecondEpochTimeouts],
      finalizerRoundsFormat.Admissible (toFinalizerRounds timeouts) := by
    intro timeouts listed
    have records := recordsRounds_toFinalizerRounds timeouts
    rw [finalizerRoundsFormat_admissible]
    refine ⟨lt_of_le_of_lt records.length_le (fewTimeouts timeouts listed), ?_⟩
    intro entry entryListed
    obtain ⟨finIndex, member⟩ := records.nonEmpty entry entryListed
    obtain ⟨tm, found, round⟩ := (records.byRound entry entryListed finIndex).mp member
    refine ⟨?_, byteLength_lt_of_indices fun other otherMember => ?_⟩
    · rw [word64Format_admissible, ← round]
      exact (messagesFit timeouts listed (finIndex, tm)
        ((AscMap.mem_iff_lookup _ _ _).mpr found)).2
    · obtain ⟨otherTm, otherFound, _⟩ := (records.byRound entry entryListed other).mp otherMember
      exact (messagesFit timeouts listed (other, otherTm)
        ((AscMap.mem_iff_lookup _ _ _).mpr otherFound)).1
  have wellFormed : (makeTimeoutCertificate currentRound tms).WellFormed :=
    fun _ => firstRounds
  have fits : (makeTimeoutCertificate currentRound tms).Fits signature :=
    ⟨(word64Format_admissible _).mpr roundFits, (word64Format_admissible _).mpr epochFits,
      signatureFits, writable _ (by simp), writable _ (by simp)⟩
  refine ⟨rfl, firstRecords, secondRecords, wellFormed, ?_⟩
  have roundTrip := getTimeoutCertificate_putTimeoutCertificate signature _ [] wellFormed fits
  rwa [List.append_nil] at roundTrip

/-- The round-`10` certificate of `threeTimeouts`, with signatures written as 64-bit words, is
read back. -/
theorem makeTimeoutCertificate_records_rounds_on_three :
    threeTimeouts.Invariant ∧
      getTimeoutCertificate word64Format
          (putTimeoutCertificate word64Format (makeTimeoutCertificate 10 threeTimeouts)) =
        some (makeTimeoutCertificate 10 threeTimeouts, []) := by
  have valid : threeTimeouts.Invariant := ⟨by decide, rfl, by decide, by decide⟩
  obtain ⟨-, -, -, -, roundTrip⟩ := makeTimeoutCertificate_records_rounds word64Format 10
    threeTimeouts valid (by norm_num) (by decide) (by decide) (by decide)
    ((word64Format_admissible _).mpr (by decide))
  exact ⟨valid, roundTrip⟩

/-! ## Every finalizer index on a round of its own -/

/-- A count of `2 ^ 32` rounds is written as `0`, so the decoder reads no rounds and leaves the
entries unread. -/
theorem finalizerRoundsFormat_get_of_count_wraps (rounds : FinalizerRounds) (rest : List UInt8)
    (wraps : rounds.theFinalizerRounds.length = 2 ^ 32) :
    finalizerRoundsFormat.get (finalizerRoundsFormat.put rounds ++ rest) =
      some (⟨[], List.Pairwise.nil⟩,
        rounds.theFinalizerRounds.flatMap finalizerRoundFormat.put ++ rest) := by
  have count : getWord32be (putWord32be rounds.theFinalizerRounds.length ++
      (rounds.theFinalizerRounds.flatMap finalizerRoundFormat.put ++ rest)) =
        some (0, rounds.theFinalizerRounds.flatMap finalizerRoundFormat.put ++ rest) := by
    rw [getWord32be, putWord32be, getWordBE_putWordBE, wraps]
    rfl
  show getFinalizerRounds (putFinalizerRounds rounds ++ rest) = _
  rw [putFinalizerRounds, getFinalizerRounds, List.append_assoc, bind_run_of_some count]
  rfl

/-- A certificate whose first epoch has `2 ^ 32` rounds is not read back: its first epoch is
read as no rounds at all. -/
theorem getTimeoutCertificate_of_first_count_wraps (signature : Format σ)
    (tc : TimeoutCertificate σ)
    (wraps : tc.tcFinalizerQCRoundsFirstEpoch.theFinalizerRounds.length = 2 ^ 32)
    (roundFits : word64Format.Admissible tc.tcRound)
    (epochFits : word64Format.Admissible tc.tcMinEpoch)
    (signatureFits : signature.Admissible tc.tcAggregateSignature) :
    getTimeoutCertificate signature (putTimeoutCertificate signature tc) ≠ some (tc, []) := by
  intro read
  simp only [putTimeoutCertificate, List.append_assoc, getTimeoutCertificate] at read
  rw [word64Format.bind_get_put roundFits, word64Format.bind_get_put epochFits,
    signature.bind_get_put signatureFits] at read
  obtain ⟨firstRead, middle, readFirst, continued⟩ := bind_run_eq_some read
  rw [finalizerRoundsFormat_get_of_count_wraps _ _ wraps, Option.some.injEq,
    Prod.mk.injEq] at readFirst
  obtain ⟨rfl, -⟩ := readFirst
  obtain ⟨secondRead, afterSecond, _, checked⟩ := bind_run_eq_some continued
  split at checked
  · cases checked
  · obtain ⟨decoded, -⟩ := pure_run_eq_some checked
    have lengths := congrArg
      (fun tc : TimeoutCertificate σ => tc.tcFinalizerQCRoundsFirstEpoch.theFinalizerRounds.length)
      decoded
    simp only [List.length_nil] at lengths
    rw [wraps] at lengths
    exact absurd lengths (by norm_num)

/-- The aggregate signature of a certificate over `Unit`, written as no bytes. -/
def unitSignatureFormat : Format Unit where
  Admissible _ := True
  put _ := []
  get := pure ()
  get_put _ _ _ := rfl
  put_get input value rest read := by
    obtain ⟨-, rfl⟩ := pure_run_eq_some read
    exact ⟨trivial, rfl⟩

/-- The timeout message of finalizer `finIndex` with a QC of round `finIndex`, in epoch `0`. -/
def timeoutOnOwnRound (finIndex : Nat) : TimeoutMessage Unit :=
  ⟨⟨finIndex, 2 ^ 32, 0, ⟨0, finIndex, 0, (), emptyFinalizerSet⟩, ()⟩, 0⟩

/-- All `2 ^ 32` finalizer indices timed out in epoch `0`, each with a QC of a round of its
own. -/
def allFinalizersOnOwnRounds : TimeoutMessages Unit :=
  ⟨0, ⟨(List.range (2 ^ 32)).map fun finIndex => (finIndex, timeoutOnOwnRound finIndex), by
      simp only [List.map_map, Function.comp_def, List.map_id']
      exact List.pairwise_lt_range⟩, AscMap.empty⟩

theorem toAscList_allFinalizersOnOwnRounds :
    allFinalizersOnOwnRounds.tmFirstEpochTimeouts.toAscList =
      (List.range (2 ^ 32)).map fun finIndex => (finIndex, timeoutOnOwnRound finIndex) := by
  rw [allFinalizersOnOwnRounds]

theorem lookup_allFinalizersOnOwnRounds (finIndex : Nat) (tm : TimeoutMessage Unit) :
    allFinalizersOnOwnRounds.tmFirstEpochTimeouts.lookup finIndex = some tm ↔
      finIndex < 2 ^ 32 ∧ tm = timeoutOnOwnRound finIndex := by
  rw [← AscMap.mem_iff_lookup, toAscList_allFinalizersOnOwnRounds]
  simp only [List.mem_map, List.mem_range, Prod.mk.injEq]
  constructor
  · rintro ⟨other, below, rfl, rfl⟩
    exact ⟨below, rfl⟩
  · rintro ⟨below, rfl⟩
    exact ⟨finIndex, below, rfl, rfl⟩

/-- With every finalizer index timed out on a round of its own, the first epoch of the
certificate has `2 ^ 32` rounds. -/
theorem length_firstRounds_allFinalizersOnOwnRounds (currentRound : Nat) :
    (makeTimeoutCertificate currentRound
      allFinalizersOnOwnRounds).tcFinalizerQCRoundsFirstEpoch.theFinalizerRounds.length =
        2 ^ 32 := by
  show (toFinalizerRounds allFinalizersOnOwnRounds.tmFirstEpochTimeouts).theFinalizerRounds.length =
    2 ^ 32
  have records := recordsRounds_toFinalizerRounds allFinalizersOnOwnRounds.tmFirstEpochTimeouts
  set rounds := toFinalizerRounds allFinalizersOnOwnRounds.tmFirstEpochTimeouts
  -- the recorded rounds are exactly the finalizer indices
  have sameRounds : ∀ roundOfQC,
      roundOfQC ∈ rounds.theFinalizerRounds.map Prod.fst ↔ roundOfQC ∈ List.range (2 ^ 32) := by
    intro roundOfQC
    rw [List.mem_range, List.mem_map]
    constructor
    · rintro ⟨entry, listed, rfl⟩
      obtain ⟨finIndex, member⟩ := records.nonEmpty entry listed
      obtain ⟨tm, found, round⟩ := (records.byRound entry listed finIndex).mp member
      obtain ⟨below, rfl⟩ := (lookup_allFinalizersOnOwnRounds finIndex tm).mp found
      rw [← round]
      exact below
    · intro below
      have timedOut : roundOfQC ∈ allFinalizersOnOwnRounds.tmFirstEpochTimeouts.keys :=
        (mem_keys_iff _ _).mpr ⟨_, (lookup_allFinalizersOnOwnRounds _ _).mpr ⟨below, rfl⟩⟩
      obtain ⟨entry, listed, member⟩ := (records.covers roundOfQC).mp timedOut
      obtain ⟨tm, found, round⟩ := (records.byRound entry listed roundOfQC).mp member
      obtain ⟨_, rfl⟩ := (lookup_allFinalizersOnOwnRounds _ tm).mp found
      exact ⟨entry, listed, round.symm⟩
  have nodup : (rounds.theFinalizerRounds.map Prod.fst).Nodup :=
    rounds.ascending.imp (fun below => Nat.ne_of_lt below)
  have perm := (List.perm_ext_iff_of_nodup nodup List.nodup_range).mpr sameRounds
  simpa using perm.length_eq

/-- Where all `2 ^ 32` finalizer indices, which are `Word32`, timed out with QCs of distinct
rounds, the certificate's first epoch has `2 ^ 32` rounds; the encoder writes that count as a
`Word32`, `0`, and the decoder does not read the certificate back. -/
theorem makeTimeoutCertificate_outgrows_round_count :
    allFinalizersOnOwnRounds.Invariant ∧
      (∀ entry ∈ allFinalizersOnOwnRounds.tmFirstEpochTimeouts.toAscList,
        entry.1 < 2 ^ 32 ∧ qcRoundOf entry.2 < 2 ^ 64) ∧
      getTimeoutCertificate unitSignatureFormat (putTimeoutCertificate unitSignatureFormat
          (makeTimeoutCertificate (2 ^ 32) allFinalizersOnOwnRounds)) ≠
        some (makeTimeoutCertificate (2 ^ 32) allFinalizersOnOwnRounds, []) := by
  have stored : StoredUnder 0 allFinalizersOnOwnRounds.tmFirstEpochTimeouts := by
    intro entry listed
    rw [toAscList_allFinalizersOnOwnRounds] at listed
    obtain ⟨finIndex, _, rfl⟩ := List.mem_map.mp listed
    exact ⟨rfl, rfl⟩
  have nonEmpty : allFinalizersOnOwnRounds.tmFirstEpochTimeouts.null = false := by
    rw [AscMap.null, toAscList_allFinalizersOnOwnRounds, List.isEmpty_eq_false_iff, Ne,
      List.map_eq_nil_iff, List.range_eq_nil]
    norm_num
  refine ⟨⟨show 0 < 2 ^ 64 by norm_num, nonEmpty, stored, storedUnder_empty _⟩, ?_, ?_⟩
  · intro entry listed
    rw [toAscList_allFinalizersOnOwnRounds] at listed
    obtain ⟨finIndex, below, rfl⟩ := List.mem_map.mp listed
    rw [List.mem_range] at below
    exact ⟨below, lt_trans below (by norm_num)⟩
  · exact getTimeoutCertificate_of_first_count_wraps unitSignatureFormat _
      (length_firstRounds_allFinalizersOnOwnRounds (2 ^ 32))
      ((word64Format_admissible _).mpr (show 2 ^ 32 < 2 ^ 64 by norm_num))
      ((word64Format_admissible _).mpr (show 0 < 2 ^ 64 by norm_num)) trivial

end Concordium.KonsensusV1.Consensus.Timeout
