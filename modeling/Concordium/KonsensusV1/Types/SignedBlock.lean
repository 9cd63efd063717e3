import Concordium.KonsensusV1.Types.FinalizationEntry
import Concordium.KonsensusV1.Types.TimeoutCertificate
import Concordium.GlobalState.Basic.BlockState.LFMBTree

/-!
Contract: the wire format of signed blocks in `Concordium.KonsensusV1.Types` round trips at every
protocol version, on the blocks whose hash is their computed hash and whose optional timeout
certificate and finalization entry are well formed, given formats with both laws for what the
repository takes from outside (signatures, nonces, block items).

Owns:
- the serialization of `FinalizerRounds` and `TimeoutCertificate`, whose decoder rejects a
  certificate with signatures in its second epoch and none in its first;
- `DerivableBlockHashes` and their serialization at a protocol version, `BakedBlockFlags`;
- `BakedBlock`, its header, its quasi-hash and `getHash` (`computeBlockHash`), the transactions
  hashed as a left-full Merkle tree of the items' hashes;
- `putBakedBlock`, `getBakedBlock` with its remaining-bytes guard, `SignedBlock`, `putSignedBlock`
  and `getSignedBlock`, which recomputes the block hash.

Does not own: the serializations of BLS signatures, block nonces, block items and block
signatures, and the hash of a block item; `BlockCodecs` takes them as parameters. A format of
block items stands for `putBlockItemV0` with `getBlockItemV0` at the protocol version and
transaction time of the read, its admissible items being those valid there.

Byte strings here stand for `ByteString`s, whose length is an `Int`: on them the guard
`remBytes < numTrans` rejects every count at which the source's conversion of the count to
`Int` would differ from the count itself, so the model reads `numTrans` items.
-/

set_option autoImplicit false

namespace Concordium.KonsensusV1.Types

open Serialize
open Concordium.KonsensusV1.TreeState (FinalizationEntry)
open Concordium.GlobalState.Basic.BlockState.LFMBTree
  (HashScheme hashAsLFMBTV0 hashAsLFMBTV1 emptyTreeHashV0)

variable {σ ν β ς : Type}

/-! ## Timeout certificates -/

/-- One entry of a `FinalizerRounds` map: the round, then its finalizer set. -/
def finalizerRoundFormat : Format (Nat × FinalizerSet) :=
  word64Format.prod finalizerSetFormat

/-- `put` of `FinalizerRounds`: the number of rounds as a `Word32`, then `putSafeSizedMapOf`, the
entries in ascending order of round. -/
def putFinalizerRounds (rounds : FinalizerRounds) : List UInt8 :=
  putWord32be rounds.theFinalizerRounds.length ++
    rounds.theFinalizerRounds.flatMap finalizerRoundFormat.put

/-- `get` of `FinalizerRounds`: the count, then `getSafeSizedMapOf`, which reads that many
entries and fails unless their rounds ascend strictly. -/
def getFinalizerRounds : Get FinalizerRounds := do
  let count ← getWord32be
  let entries ← replicateGet finalizerRoundFormat.get count
  if ascending : (entries.map Prod.fst).Pairwise (· < ·) then pure ⟨entries, ascending⟩
  else Get.fail

/-- The maps whose size fits the `Word32` count and whose entries fit their formats. -/
def FinalizerRounds.Fits (rounds : FinalizerRounds) : Prop :=
  rounds.theFinalizerRounds.length < 2 ^ 32 ∧
    ∀ entry ∈ rounds.theFinalizerRounds, finalizerRoundFormat.Admissible entry

theorem getFinalizerRounds_putFinalizerRounds (rounds : FinalizerRounds) (rest : List UInt8)
    (fits : rounds.Fits) :
    getFinalizerRounds (putFinalizerRounds rounds ++ rest) = some (rounds, rest) := by
  obtain ⟨entries, ascending⟩ := rounds
  rw [putFinalizerRounds, getFinalizerRounds, List.append_assoc,
    bind_run_of_some (getWord32be_putWord32be fits.1 _),
    bind_run_of_some (replicateGet_flatMap finalizerRoundFormat entries rest fits.2),
    dif_pos ascending]
  rfl

theorem putFinalizerRounds_of_getFinalizerRounds (input : List UInt8) (rounds : FinalizerRounds)
    (rest : List UInt8) (read : getFinalizerRounds input = some (rounds, rest)) :
    rounds.Fits ∧ input = putFinalizerRounds rounds ++ rest := by
  unfold getFinalizerRounds at read
  obtain ⟨count, afterCount, countFits, atCount, readEntries⟩ := (wordBE 4).bind_get_eq_some read
  obtain ⟨entries, afterEntries, entriesRead, checked⟩ := bind_run_eq_some readEntries
  obtain ⟨length, admissible, atEntries⟩ :=
    replicateGet_eq_some finalizerRoundFormat count afterCount entries afterEntries entriesRead
  split at checked
  · next ascending =>
      obtain ⟨rfl, rfl⟩ := pure_run_eq_some checked
      have countFits : count < 2 ^ 32 := countFits
      refine ⟨⟨length ▸ countFits, admissible⟩, ?_⟩
      rw [atCount, atEntries, putFinalizerRounds, ← length, List.append_assoc]
      rfl
  · cases checked

def finalizerRoundsFormat : Format FinalizerRounds where
  Admissible rounds := rounds.Fits
  put := putFinalizerRounds
  get := getFinalizerRounds
  get_put rounds rest fits := getFinalizerRounds_putFinalizerRounds rounds rest fits
  put_get := putFinalizerRounds_of_getFinalizerRounds

@[simp] theorem finalizerRoundsFormat_admissible (rounds : FinalizerRounds) :
    finalizerRoundsFormat.Admissible rounds ↔ rounds.theFinalizerRounds.length < 2 ^ 32 ∧
      ∀ entry ∈ rounds.theFinalizerRounds,
        word64Format.Admissible entry.1 ∧ finalizerSetFormat.Admissible entry.2 :=
  Iff.rfl

def putTimeoutCertificate (signature : Format σ) (tc : TimeoutCertificate σ) : List UInt8 :=
  word64Format.put tc.tcRound ++ word64Format.put tc.tcMinEpoch ++
    signature.put tc.tcAggregateSignature ++
    finalizerRoundsFormat.put tc.tcFinalizerQCRoundsFirstEpoch ++
    finalizerRoundsFormat.put tc.tcFinalizerQCRoundsSecondEpoch

/-- `get` of a timeout certificate: the fields in the order they are written, then the check that
the minimum epoch is the least one with signatures. -/
def getTimeoutCertificate (signature : Format σ) : Get (TimeoutCertificate σ) := do
  let tcRound ← word64Format.get
  let tcMinEpoch ← word64Format.get
  let tcAggregateSignature ← signature.get
  let tcFinalizerQCRoundsFirstEpoch ← finalizerRoundsFormat.get
  let tcFinalizerQCRoundsSecondEpoch ← finalizerRoundsFormat.get
  if tcFinalizerQCRoundsFirstEpoch.theFinalizerRounds.isEmpty &&
      !tcFinalizerQCRoundsSecondEpoch.theFinalizerRounds.isEmpty then Get.fail
  else pure { tcRound := tcRound
              tcMinEpoch := tcMinEpoch
              tcFinalizerQCRoundsFirstEpoch := tcFinalizerQCRoundsFirstEpoch
              tcFinalizerQCRoundsSecondEpoch := tcFinalizerQCRoundsSecondEpoch
              tcAggregateSignature := tcAggregateSignature }

/-- The invariant the source documents: signatures in the second epoch only if there are some in
the first. -/
def TimeoutCertificate.WellFormed (tc : TimeoutCertificate σ) : Prop :=
  tc.tcFinalizerQCRoundsSecondEpoch.theFinalizerRounds ≠ [] →
    tc.tcFinalizerQCRoundsFirstEpoch.theFinalizerRounds ≠ []

/-- Every field of the certificate can be written by its format. -/
structure TimeoutCertificate.Fits (signature : Format σ) (tc : TimeoutCertificate σ) : Prop where
  round : word64Format.Admissible tc.tcRound
  minEpoch : word64Format.Admissible tc.tcMinEpoch
  aggregateSignature : signature.Admissible tc.tcAggregateSignature
  firstEpoch : finalizerRoundsFormat.Admissible tc.tcFinalizerQCRoundsFirstEpoch
  secondEpoch : finalizerRoundsFormat.Admissible tc.tcFinalizerQCRoundsSecondEpoch

/-- The decoder's check passes exactly on the certificates that keep the invariant. -/
theorem epochCheck_eq_false_iff (tc : TimeoutCertificate σ) :
    (tc.tcFinalizerQCRoundsFirstEpoch.theFinalizerRounds.isEmpty &&
        !tc.tcFinalizerQCRoundsSecondEpoch.theFinalizerRounds.isEmpty) = false ↔
      tc.WellFormed := by
  rw [TimeoutCertificate.WellFormed, Bool.and_eq_false_iff, Bool.not_eq_false',
    List.isEmpty_eq_false_iff, List.isEmpty_iff]
  constructor
  · rintro (nonempty | empty) second
    · exact nonempty
    · exact absurd empty second
  · intro invariant
    by_cases second : tc.tcFinalizerQCRoundsSecondEpoch.theFinalizerRounds = []
    · exact Or.inr second
    · exact Or.inl (invariant second)

theorem getTimeoutCertificate_putTimeoutCertificate (signature : Format σ)
    (tc : TimeoutCertificate σ) (rest : List UInt8) (wellFormed : tc.WellFormed)
    (fits : tc.Fits signature) :
    getTimeoutCertificate signature (putTimeoutCertificate signature tc ++ rest) =
      some (tc, rest) := by
  simp only [putTimeoutCertificate, List.append_assoc, getTimeoutCertificate]
  rw [word64Format.bind_get_put fits.round, word64Format.bind_get_put fits.minEpoch,
    signature.bind_get_put fits.aggregateSignature,
    finalizerRoundsFormat.bind_get_put fits.firstEpoch,
    finalizerRoundsFormat.bind_get_put fits.secondEpoch,
    if_neg (by rw [(epochCheck_eq_false_iff tc).mpr wellFormed]; decide)]
  rfl

theorem putTimeoutCertificate_of_getTimeoutCertificate (signature : Format σ)
    (input : List UInt8) (tc : TimeoutCertificate σ) (rest : List UInt8)
    (read : getTimeoutCertificate signature input = some (tc, rest)) :
    (tc.WellFormed ∧ tc.Fits signature) ∧ input = putTimeoutCertificate signature tc ++ rest := by
  unfold getTimeoutCertificate at read
  -- the fields in the order they are read, each from the bytes its format writes
  obtain ⟨tcRound, afterRound, round, atRound, readMinEpoch⟩ := word64Format.bind_get_eq_some read
  obtain ⟨tcMinEpoch, afterMinEpoch, minEpoch, atMinEpoch, readSignature⟩ :=
    word64Format.bind_get_eq_some readMinEpoch
  obtain ⟨aggregate, afterSignature, aggregateSignature, atSignature, readFirst⟩ :=
    signature.bind_get_eq_some readSignature
  obtain ⟨first, afterFirst, firstEpoch, atFirst, readSecond⟩ :=
    finalizerRoundsFormat.bind_get_eq_some readFirst
  obtain ⟨second, afterSecond, secondEpoch, atSecond, checked⟩ :=
    finalizerRoundsFormat.bind_get_eq_some readSecond
  by_cases failing : (first.theFinalizerRounds.isEmpty && !second.theFinalizerRounds.isEmpty) = true
  · rw [if_pos failing] at checked
    cases checked
  · rw [if_neg failing] at checked
    obtain ⟨rfl, rfl⟩ := pure_run_eq_some checked
    refine ⟨⟨(epochCheck_eq_false_iff _).mp (Bool.eq_false_iff.mpr failing),
      ⟨round, minEpoch, aggregateSignature, firstEpoch, secondEpoch⟩⟩, ?_⟩
    rw [atRound, atMinEpoch, atSignature, atFirst, atSecond]
    simp only [putTimeoutCertificate, List.append_assoc]

def timeoutCertificateFormat (signature : Format σ) : Format (TimeoutCertificate σ) where
  Admissible tc := tc.WellFormed ∧ tc.Fits signature
  put := putTimeoutCertificate signature
  get := getTimeoutCertificate signature
  get_put tc rest admissible :=
    getTimeoutCertificate_putTimeoutCertificate signature tc rest admissible.1 admissible.2
  put_get := putTimeoutCertificate_of_getTimeoutCertificate signature

/-- Finalization entries at a protocol version, as a format: the entries it writes are the
well-formed ones whose fields fit. -/
def finalizationEntryFormat (hashing : Hashing) (signature : Format σ) (pv : ProtocolVersion) :
    Format (FinalizationEntry σ) where
  Admissible entry := WellFormedFinalizationEntry hashing pv entry ∧
    FinalizationEntryFits signature entry
  put := putFinalizationEntry signature
  get := getFinalizationEntry hashing signature pv
  get_put entry rest admissible :=
    getFinalizationEntry_putFinalizationEntry hashing signature pv entry rest admissible.1
      admissible.2
  put_get input entry rest read := by
    obtain ⟨wellFormed, encoded⟩ :=
      putFinalizationEntry_of_getFinalizationEntry hashing signature pv input entry rest read
    refine ⟨⟨wellFormed, ?_⟩, encoded⟩
    obtain ⟨proto, readProto, rfl⟩ := map_run_eq_some read
    exact ((protoFinalizationEntryFormat signature).put_get input proto rest readProto).1

/-! ## Derivable hashes and flags -/

/-- The hashes of a block that can be derived from its state and contents: before protocol
version 7 the outcomes and state hashes, from it the block result hash. -/
inductive DerivableBlockHashes where
  | derivableBlockHashesV0 (dbhv0TransactionOutcomesHash dbhv0BlockStateHash : Nat)
  | derivableBlockHashesV1 (dbhv1BlockResultHash : Nat)
deriving DecidableEq, Repr

/-- The block-hash version of the derivable hashes, which the source keeps in their type. -/
def DerivableBlockHashes.blockHashVersion : DerivableBlockHashes → BlockHashVersion
  | .derivableBlockHashesV0 .. => .blockHashVersion0
  | .derivableBlockHashesV1 .. => .blockHashVersion1

/-- The state hash is written before the outcomes hash. -/
def putDerivableBlockHashes : DerivableBlockHashes → List UInt8
  | .derivableBlockHashesV0 outcomes state => hashFormat.put state ++ hashFormat.put outcomes
  | .derivableBlockHashesV1 result => hashFormat.put result

def getDerivableBlockHashes (pv : ProtocolVersion) : Get DerivableBlockHashes :=
  match blockHashVersionFor pv with
  | .blockHashVersion0 => do
      let dbhv0BlockStateHash ← hashFormat.get
      let dbhv0TransactionOutcomesHash ← hashFormat.get
      pure (.derivableBlockHashesV0 dbhv0TransactionOutcomesHash dbhv0BlockStateHash)
  | .blockHashVersion1 => do
      let dbhv1BlockResultHash ← hashFormat.get
      pure (.derivableBlockHashesV1 dbhv1BlockResultHash)

/-- Derivable hashes of `pv`'s block-hash version, each with 32 bytes. -/
def DerivableBlockHashes.Fits (pv : ProtocolVersion) : DerivableBlockHashes → Prop
  | .derivableBlockHashesV0 outcomes state =>
      blockHashVersionFor pv = .blockHashVersion0 ∧ hashFormat.Admissible outcomes ∧
        hashFormat.Admissible state
  | .derivableBlockHashesV1 result =>
      blockHashVersionFor pv = .blockHashVersion1 ∧ hashFormat.Admissible result

theorem getDerivableBlockHashes_putDerivableBlockHashes (pv : ProtocolVersion) :
    ∀ (hashes : DerivableBlockHashes) (rest : List UInt8), hashes.Fits pv →
      getDerivableBlockHashes pv (putDerivableBlockHashes hashes ++ rest) = some (hashes, rest)
  | .derivableBlockHashesV0 outcomes state, rest, ⟨version, outcomesFits, stateFits⟩ => by
      rw [getDerivableBlockHashes, version, putDerivableBlockHashes, List.append_assoc]
      simp only
      rw [hashFormat.bind_get_put stateFits, hashFormat.bind_get_put outcomesFits]
      rfl
  | .derivableBlockHashesV1 result, rest, ⟨version, resultFits⟩ => by
      rw [getDerivableBlockHashes, version, putDerivableBlockHashes]
      simp only
      rw [hashFormat.bind_get_put resultFits]
      rfl

theorem putDerivableBlockHashes_of_getDerivableBlockHashes (pv : ProtocolVersion)
    (input : List UInt8) (hashes : DerivableBlockHashes) (rest : List UInt8)
    (read : getDerivableBlockHashes pv input = some (hashes, rest)) :
    hashes.Fits pv ∧ input = putDerivableBlockHashes hashes ++ rest := by
  cases version : blockHashVersionFor pv with
  | blockHashVersion0 =>
      rw [getDerivableBlockHashes, version] at read
      simp only at read
      obtain ⟨state, afterState, stateFits, atState, readOutcomes⟩ :=
        hashFormat.bind_get_eq_some read
      obtain ⟨outcomes, afterOutcomes, outcomesFits, atOutcomes, readDone⟩ :=
        hashFormat.bind_get_eq_some readOutcomes
      obtain ⟨rfl, rfl⟩ := pure_run_eq_some readDone
      exact ⟨⟨version, outcomesFits, stateFits⟩,
        by rw [atState, atOutcomes, putDerivableBlockHashes, List.append_assoc]⟩
  | blockHashVersion1 =>
      rw [getDerivableBlockHashes, version] at read
      simp only at read
      obtain ⟨result, afterResult, resultFits, atResult, readDone⟩ :=
        hashFormat.bind_get_eq_some read
      obtain ⟨rfl, rfl⟩ := pure_run_eq_some readDone
      exact ⟨⟨version, resultFits⟩, by rw [atResult, putDerivableBlockHashes]⟩

def derivableBlockHashesFormat (pv : ProtocolVersion) : Format DerivableBlockHashes where
  Admissible hashes := hashes.Fits pv
  put := putDerivableBlockHashes
  get := getDerivableBlockHashes pv
  get_put := getDerivableBlockHashes_putDerivableBlockHashes pv
  put_get := putDerivableBlockHashes_of_getDerivableBlockHashes pv

/-- Which of the optional parts a baked block has. -/
structure BakedBlockFlags where
  bbfTimeoutCertificate : Bool
  bbfEpochFinalizationEntry : Bool
deriving DecidableEq, Repr

/-- `toBit i` of the flags' `put`: bit `i` when the flag is set. -/
def toBit (i : Nat) : Bool → UInt8
  | false => 0
  | true => UInt8.ofNat (2 ^ i)

def putBakedBlockFlags (flags : BakedBlockFlags) : List UInt8 :=
  putWord8 (toBit 0 flags.bbfTimeoutCertificate ||| toBit 1 flags.bbfEpochFinalizationEntry)

/-- `get` of the flags: a byte with no bit set above the two flags. -/
def getBakedBlockFlags : Get BakedBlockFlags := do
  let bits ← getWord8
  if bits ≠ bits &&& 0b11 then Get.fail
  else pure ⟨bits.toNat.testBit 0, bits.toNat.testBit 1⟩

/-- A flags byte the decoder accepts is one of the four the encoder writes. -/
theorem putBakedBlockFlags_of_bits {bits : UInt8} (accepted : bits = bits &&& 0b11) :
    putBakedBlockFlags ⟨bits.toNat.testBit 0, bits.toNat.testBit 1⟩ = [bits] := by
  have small : bits.toNat < 4 := by
    have masked : bits.toNat = bits.toNat &&& 3 := by
      conv => lhs; rw [accepted]
      rfl
    have := Nat.and_le_right (n := bits.toNat) (m := 3)
    omega
  have cases : bits = 0 ∨ bits = 1 ∨ bits = 2 ∨ bits = 3 := by
    rcases (by omega : bits.toNat = 0 ∨ bits.toNat = 1 ∨ bits.toNat = 2 ∨ bits.toNat = 3) with
      zero | one | two | three
    · exact Or.inl (UInt8.toNat_inj.mp zero)
    · exact Or.inr (Or.inl (UInt8.toNat_inj.mp one))
    · exact Or.inr (Or.inr (Or.inl (UInt8.toNat_inj.mp two)))
    · exact Or.inr (Or.inr (Or.inr (UInt8.toNat_inj.mp three)))
  rcases cases with rfl | rfl | rfl | rfl <;> decide

def bakedBlockFlagsFormat : Format BakedBlockFlags where
  Admissible _ := True
  put := putBakedBlockFlags
  get := getBakedBlockFlags
  get_put flags rest _ := by
    obtain ⟨timeout, finalization⟩ := flags
    cases timeout <;> cases finalization <;> rfl
  put_get input flags rest read := by
    unfold getBakedBlockFlags at read
    obtain ⟨bits, afterBits, -, atBits, checked⟩ := word8.bind_get_eq_some read
    split at checked
    · cases checked
    · next accepted =>
        obtain ⟨rfl, rfl⟩ := pure_run_eq_some checked
        refine ⟨trivial, ?_⟩
        rw [atBits, putBakedBlockFlags_of_bits (not_not.mp accepted)]
        rfl

/-! ## Baked blocks and their hash -/

/-- A non-genesis block without its signature. The nonce and the block items are of types from
outside the repository. -/
structure BakedBlock (σ ν β : Type) where
  bbRound : Nat
  bbEpoch : Nat
  bbTimestamp : Nat
  bbBaker : Nat
  bbQuorumCertificate : QuorumCertificate σ
  bbTimeoutCertificate : Option (TimeoutCertificate σ)
  bbEpochFinalizationEntry : Option (FinalizationEntry σ)
  bbNonce : ν
  bbTransactions : List β
  bbDerivableHashes : DerivableBlockHashes

def bakedBlockFlags (bb : BakedBlock σ ν β) : BakedBlockFlags :=
  ⟨bb.bbTimeoutCertificate.isSome, bb.bbEpochFinalizationEntry.isSome⟩

/-- What blocks take from outside the repository: the hashing, the serializations of BLS
signatures, block nonces, block items and block signatures, and the hash of a block item. A block
item is written with at least one byte, its kind. -/
structure BlockCodecs (σ ν β ς : Type) where
  hashing : Hashing
  signature : Format σ
  nonce : Format ν
  blockItem : Format β
  blockItemHash : β → Nat
  blockSignature : Format ς
  blockItemNonempty : ∀ item, blockItem.put item ≠ []

/-- `putBakedBlock`: the optional parts follow the flags that announce them, and the block items
their count as a `Word64`. -/
def putBakedBlock (codecs : BlockCodecs σ ν β ς) (bb : BakedBlock σ ν β) : List UInt8 :=
  word64Format.put bb.bbRound ++ word64Format.put bb.bbEpoch ++
    word64Format.put bb.bbTimestamp ++ word64Format.put bb.bbBaker ++
    codecs.nonce.put bb.bbNonce ++ putDerivableBlockHashes bb.bbDerivableHashes ++
    (quorumCertificateFormat codecs.signature).put bb.bbQuorumCertificate ++
    bakedBlockFlagsFormat.put (bakedBlockFlags bb) ++
    putOption (timeoutCertificateFormat codecs.signature).put bb.bbTimeoutCertificate ++
    putOption (putFinalizationEntry codecs.signature) bb.bbEpochFinalizationEntry ++
    word64Format.put bb.bbTransactions.length ++
    bb.bbTransactions.flatMap codecs.blockItem.put

/-- `getBakedBlock`: before the block items, at least as many bytes must remain as the count
announces. -/
def getBakedBlock (codecs : BlockCodecs σ ν β ς) (pv : ProtocolVersion) :
    Get (BakedBlock σ ν β) := do
  let bbRound ← word64Format.get
  let bbEpoch ← word64Format.get
  let bbTimestamp ← word64Format.get
  let bbBaker ← word64Format.get
  let bbNonce ← codecs.nonce.get
  let bbDerivableHashes ← getDerivableBlockHashes pv
  let bbQuorumCertificate ← (quorumCertificateFormat codecs.signature).get
  let flags ← bakedBlockFlagsFormat.get
  let bbTimeoutCertificate ←
    getOptionIf (timeoutCertificateFormat codecs.signature).get flags.bbfTimeoutCertificate
  let bbEpochFinalizationEntry ←
    getOptionIf (getFinalizationEntry codecs.hashing codecs.signature pv)
      flags.bbfEpochFinalizationEntry
  let numTrans ← word64Format.get
  let remBytes ← remaining
  if remBytes < numTrans then Get.fail
  else do
    let bbTransactions ← replicateGet codecs.blockItem.get numTrans
    pure { bbRound := bbRound
           bbEpoch := bbEpoch
           bbTimestamp := bbTimestamp
           bbBaker := bbBaker
           bbQuorumCertificate := bbQuorumCertificate
           bbTimeoutCertificate := bbTimeoutCertificate
           bbEpochFinalizationEntry := bbEpochFinalizationEntry
           bbNonce := bbNonce
           bbTransactions := bbTransactions
           bbDerivableHashes := bbDerivableHashes }

def bbBlockHeader (bb : BakedBlock σ ν β) : BlockHeader :=
  ⟨bb.bbRound, bb.bbEpoch, bb.bbQuorumCertificate.qcBlock⟩

/-- The hash of an optional certificate or entry: of the byte `0` when absent, of `1` and the
value when present. -/
def optionHash {α : Type} (hashing : Hashing) (put : α → List UInt8) : Option α → Nat
  | none => hashing.hash (putWord8 0)
  | some value => hashing.hash (putWord8 1 ++ put value)

/-- The hashing as the left-full Merkle tree module takes it. -/
def treeHashScheme (hashing : Hashing) : HashScheme Nat :=
  ⟨hashing.hash, hashing.hashOfHashes, hashFormat.put⟩

/-- `computeTransactionsHash`: the items' hashes as the leaves of a left-full Merkle tree; the
empty tree hashes to the hash of no bytes in version 0, and is the V1 tree hash from version 1. -/
def computeTransactionsHash (codecs : BlockCodecs σ ν β ς) (bhv : BlockHashVersion)
    (items : List β) : Nat :=
  match bhv with
  | .blockHashVersion0 =>
      hashAsLFMBTV0 (treeHashScheme codecs.hashing) (codecs.hashing.hash [])
        (items.map codecs.blockItemHash)
  | .blockHashVersion1 =>
      hashAsLFMBTV1 (treeHashScheme codecs.hashing) (emptyTreeHashV0 (treeHashScheme codecs.hashing))
        (items.map codecs.blockItemHash)

/-- The `BlockQuasiHash`: the baker information, the certificates and the data of the block, each
hashed and combined as a Merkle tree. -/
def quasiHash (codecs : BlockCodecs σ ν β ς) (pv : ProtocolVersion) (bb : BakedBlock σ ν β) :
    Nat :=
  let hashOfHashes := codecs.hashing.hashOfHashes
  let timestampBakerHash :=
    codecs.hashing.hash (word64Format.put bb.bbTimestamp ++ word64Format.put bb.bbBaker)
  let nonceHash := codecs.hashing.hash (codecs.nonce.put bb.bbNonce)
  let qcHash :=
    codecs.hashing.hash ((quorumCertificateFormat codecs.signature).put bb.bbQuorumCertificate)
  let timeoutHash := optionHash codecs.hashing (timeoutCertificateFormat codecs.signature).put
    bb.bbTimeoutCertificate
  let finalizationHash := optionHash codecs.hashing (putFinalizationEntry codecs.signature)
    bb.bbEpochFinalizationEntry
  let transactionsHash :=
    computeTransactionsHash codecs (blockHashVersionFor pv) bb.bbTransactions
  let dataHash := match bb.bbDerivableHashes with
    | .derivableBlockHashesV0 outcomes state =>
        hashOfHashes (hashOfHashes transactionsHash outcomes) state
    | .derivableBlockHashesV1 result => hashOfHashes transactionsHash result
  hashOfHashes
    (hashOfHashes (hashOfHashes timestampBakerHash nonceHash)
      (hashOfHashes qcHash (hashOfHashes timeoutHash finalizationHash)))
    dataHash

/-- `getHash` of a baked block: `computeBlockHash` of its header hash and quasi-hash. -/
def bakedBlockHash (codecs : BlockCodecs σ ν β ς) (pv : ProtocolVersion)
    (bb : BakedBlock σ ν β) : Nat :=
  computeBlockHashHelper codecs.hashing pv ((bbBlockHeader bb).getHash codecs.hashing)
    (quasiHash codecs pv bb)

/-- The invariants of a block's optional parts: a timeout certificate with signatures in its
second epoch has some in its first, and a finalization entry keeps its invariants. -/
structure BakedBlock.WellFormed (hashing : Hashing) (pv : ProtocolVersion)
    (bb : BakedBlock σ ν β) : Prop where
  timeoutCertificate : ∀ tc, bb.bbTimeoutCertificate = some tc → tc.WellFormed
  epochFinalizationEntry : ∀ entry, bb.bbEpochFinalizationEntry = some entry →
    WellFormedFinalizationEntry hashing pv entry

/-- Every field of the block can be written by its format: the numbers fit their `Word64`s, the
derivable hashes are of `pv`'s version, and the block items are valid at `pv`. -/
structure BakedBlock.Fits (codecs : BlockCodecs σ ν β ς) (pv : ProtocolVersion)
    (bb : BakedBlock σ ν β) : Prop where
  round : word64Format.Admissible bb.bbRound
  epoch : word64Format.Admissible bb.bbEpoch
  timestamp : word64Format.Admissible bb.bbTimestamp
  baker : word64Format.Admissible bb.bbBaker
  nonce : codecs.nonce.Admissible bb.bbNonce
  derivableHashes : bb.bbDerivableHashes.Fits pv
  quorumCertificate : bb.bbQuorumCertificate.Fits codecs.signature
  timeoutCertificate : ∀ tc, bb.bbTimeoutCertificate = some tc → tc.Fits codecs.signature
  epochFinalizationEntry : ∀ entry, bb.bbEpochFinalizationEntry = some entry →
    FinalizationEntryFits codecs.signature entry
  transactionCount : word64Format.Admissible bb.bbTransactions.length
  transactions : ∀ item ∈ bb.bbTransactions, codecs.blockItem.Admissible item

theorem getBakedBlock_putBakedBlock (codecs : BlockCodecs σ ν β ς) (pv : ProtocolVersion)
    (bb : BakedBlock σ ν β) (rest : List UInt8) (wellFormed : bb.WellFormed codecs.hashing pv)
    (fits : bb.Fits codecs pv) :
    getBakedBlock codecs pv (putBakedBlock codecs bb ++ rest) = some (bb, rest) := by
  have timeoutRead := fun after => getOptionIf_putOption
    (timeoutCertificateFormat codecs.signature) bb.bbTimeoutCertificate after
    fun tc present => ⟨wellFormed.timeoutCertificate tc present, fits.timeoutCertificate tc present⟩
  have finalizationRead : ∀ after, getOptionIf (getFinalizationEntry codecs.hashing codecs.signature pv)
      bb.bbEpochFinalizationEntry.isSome
      (putOption (putFinalizationEntry codecs.signature) bb.bbEpochFinalizationEntry ++ after) =
        some (bb.bbEpochFinalizationEntry, after) := fun after =>
    getOptionIf_putOption (finalizationEntryFormat codecs.hashing codecs.signature pv)
      bb.bbEpochFinalizationEntry after fun entry present =>
        ⟨wellFormed.epochFinalizationEntry entry present, fits.epochFinalizationEntry entry present⟩
  -- the guard passes: every block item takes at least one byte
  have enough : ∀ after : List UInt8, ¬ (bb.bbTransactions.flatMap codecs.blockItem.put ++
      after).length < bb.bbTransactions.length := by
    intro after
    have itemBytes := length_le_length_flatMap codecs.blockItem.put bb.bbTransactions
      fun item _ => codecs.blockItemNonempty item
    rw [List.length_append]
    omega
  simp only [putBakedBlock, List.append_assoc, getBakedBlock, bakedBlockFlags]
  rw [word64Format.bind_get_put fits.round, word64Format.bind_get_put fits.epoch,
    word64Format.bind_get_put fits.timestamp, word64Format.bind_get_put fits.baker,
    codecs.nonce.bind_get_put fits.nonce,
    bind_run_of_some (getDerivableBlockHashes_putDerivableBlockHashes pv _ _ fits.derivableHashes),
    (quorumCertificateFormat codecs.signature).bind_get_put fits.quorumCertificate,
    bakedBlockFlagsFormat.bind_get_put trivial, bind_run_of_some (timeoutRead _),
    bind_run_of_some (finalizationRead _), word64Format.bind_get_put fits.transactionCount,
    remaining_bind, if_neg (enough _),
    bind_run_of_some (replicateGet_flatMap codecs.blockItem _ rest fits.transactions)]
  rfl

/-- What `getBakedBlock` accepts is a well-formed block whose fields fit, read from exactly its
own bytes. -/
theorem putBakedBlock_of_getBakedBlock (codecs : BlockCodecs σ ν β ς) (pv : ProtocolVersion)
    (input : List UInt8) (bb : BakedBlock σ ν β) (rest : List UInt8)
    (read : getBakedBlock codecs pv input = some (bb, rest)) :
    (bb.WellFormed codecs.hashing pv ∧ bb.Fits codecs pv) ∧
      input = putBakedBlock codecs bb ++ rest := by
  unfold getBakedBlock at read
  -- the fields in the order they are read, each from the bytes its format writes
  obtain ⟨bbRound, afterRound, round, atRound, readEpoch⟩ := word64Format.bind_get_eq_some read
  obtain ⟨bbEpoch, afterEpoch, epoch, atEpoch, readTimestamp⟩ :=
    word64Format.bind_get_eq_some readEpoch
  obtain ⟨bbTimestamp, afterTimestamp, timestamp, atTimestamp, readBaker⟩ :=
    word64Format.bind_get_eq_some readTimestamp
  obtain ⟨bbBaker, afterBaker, baker, atBaker, readNonce⟩ :=
    word64Format.bind_get_eq_some readBaker
  obtain ⟨bbNonce, afterNonce, nonce, atNonce, readHashes⟩ :=
    codecs.nonce.bind_get_eq_some readNonce
  obtain ⟨hashes, afterHashes, derivableHashes, atHashes, readQC⟩ :=
    (derivableBlockHashesFormat pv).bind_get_eq_some readHashes
  obtain ⟨qc, afterQC, quorumCertificate, atQC, readFlags⟩ :=
    (quorumCertificateFormat codecs.signature).bind_get_eq_some readQC
  obtain ⟨⟨timeoutFlag, finalizationFlag⟩, afterFlags, -, atFlags, readTimeout⟩ :=
    bakedBlockFlagsFormat.bind_get_eq_some readFlags
  -- each optional part is present exactly when its flag is set
  obtain ⟨timeout, afterTimeout, timeoutRead, readFinalization⟩ := bind_run_eq_some readTimeout
  obtain ⟨rfl, timeoutFits, atTimeout⟩ :=
    getOptionIf_eq_some (timeoutCertificateFormat codecs.signature) timeoutRead
  obtain ⟨finalization, afterFinalization, finalizationRead, readCount⟩ :=
    bind_run_eq_some readFinalization
  obtain ⟨rfl, finalizationFits, atFinalization⟩ :=
    getOptionIf_eq_some (finalizationEntryFormat codecs.hashing codecs.signature pv)
      finalizationRead
  obtain ⟨numTrans, afterCount, countFits, atCount, readGuard⟩ :=
    word64Format.bind_get_eq_some readCount
  rw [remaining_bind] at readGuard
  by_cases short : afterCount.length < numTrans
  · rw [if_pos short] at readGuard
    cases readGuard
  · rw [if_neg short] at readGuard
    obtain ⟨items, afterItems, itemsRead, readDone⟩ := bind_run_eq_some readGuard
    obtain ⟨length, itemsFit, atItems⟩ :=
      replicateGet_eq_some codecs.blockItem numTrans afterCount items afterItems itemsRead
    obtain ⟨rfl, rfl⟩ := pure_run_eq_some readDone
    refine ⟨⟨⟨fun tc present => (timeoutFits tc present).1,
      fun entry present => (finalizationFits entry present).1⟩,
      ⟨round, epoch, timestamp, baker, nonce, derivableHashes, quorumCertificate,
        fun tc present => (timeoutFits tc present).2,
        fun entry present => (finalizationFits entry present).2, length ▸ countFits, itemsFit⟩⟩,
      ?_⟩
    rw [atRound, atEpoch, atTimestamp, atBaker, atNonce, atHashes, atQC, atFlags, atTimeout,
      atFinalization, atCount, atItems, ← length]
    simp only [putBakedBlock, bakedBlockFlags, List.append_assoc]
    rfl

/-! ## Signed blocks -/

/-- A baked block with its hash and the baker's signature on it. -/
structure SignedBlock (σ ν β ς : Type) where
  sbBlock : BakedBlock σ ν β
  sbHash : Nat
  sbSignature : ς

def putSignedBlock (codecs : BlockCodecs σ ν β ς) (sb : SignedBlock σ ν β ς) : List UInt8 :=
  putBakedBlock codecs sb.sbBlock ++ codecs.blockSignature.put sb.sbSignature

/-- `getSignedBlock`: the hash is not read but computed from the block. -/
def getSignedBlock (codecs : BlockCodecs σ ν β ς) (pv : ProtocolVersion) :
    Get (SignedBlock σ ν β ς) := do
  let sbBlock ← getBakedBlock codecs pv
  let sbHash := bakedBlockHash codecs pv sbBlock
  let sbSignature ← codecs.blockSignature.get
  pure { sbBlock := sbBlock, sbHash := sbHash, sbSignature := sbSignature }

/-- The wire format of signed blocks, at every protocol version: a block whose hash is its
computed hash, whose optional parts are well formed and whose fields fit their formats is read
back from its bytes, leaving what follows them. -/
theorem signedBlock_wire_format_round_trips (codecs : BlockCodecs σ ν β ς)
    (pv : ProtocolVersion) (sb : SignedBlock σ ν β ς) (rest : List UInt8)
    (hashed : sb.sbHash = bakedBlockHash codecs pv sb.sbBlock)
    (wellFormed : sb.sbBlock.WellFormed codecs.hashing pv) (fits : sb.sbBlock.Fits codecs pv)
    (signatureFits : codecs.blockSignature.Admissible sb.sbSignature) :
    getSignedBlock codecs pv (putSignedBlock codecs sb ++ rest) = some (sb, rest) := by
  simp only [putSignedBlock, List.append_assoc, getSignedBlock]
  rw [bind_run_of_some (getBakedBlock_putBakedBlock codecs pv sb.sbBlock _ wellFormed fits),
    codecs.blockSignature.bind_get_put signatureFits, ← hashed]
  rfl

/-- What `getSignedBlock` accepts is a block whose hash is its computed hash, well formed, whose
fields fit, read from exactly its own bytes. -/
theorem putSignedBlock_of_getSignedBlock (codecs : BlockCodecs σ ν β ς) (pv : ProtocolVersion)
    (input : List UInt8) (sb : SignedBlock σ ν β ς) (rest : List UInt8)
    (read : getSignedBlock codecs pv input = some (sb, rest)) :
    (sb.sbHash = bakedBlockHash codecs pv sb.sbBlock ∧ sb.sbBlock.WellFormed codecs.hashing pv ∧
      sb.sbBlock.Fits codecs pv ∧ codecs.blockSignature.Admissible sb.sbSignature) ∧
      input = putSignedBlock codecs sb ++ rest := by
  unfold getSignedBlock at read
  obtain ⟨block, afterBlock, blockRead, readSignature⟩ := bind_run_eq_some read
  obtain ⟨⟨wellFormed, fits⟩, atBlock⟩ :=
    putBakedBlock_of_getBakedBlock codecs pv input block afterBlock blockRead
  obtain ⟨signature, afterSignature, signatureFits, atSignature, readDone⟩ :=
    codecs.blockSignature.bind_get_eq_some readSignature
  obtain ⟨rfl, rfl⟩ := pure_run_eq_some readDone
  exact ⟨⟨rfl, wellFormed, fits, signatureFits⟩,
    by rw [atBlock, atSignature, putSignedBlock, List.append_assoc]⟩

/-- One-byte signatures, nonces, block items and block signatures, a block item hashed to its
value, and hashing by length and sum: enough to evaluate the block format. -/
def byteCodecs : BlockCodecs UInt8 UInt8 UInt8 UInt8 :=
  { hashing := lengthHashing
    signature := word8
    nonce := word8
    blockItem := word8
    blockItemHash := UInt8.toNat
    blockSignature := word8
    blockItemNonempty := fun item => List.cons_ne_nil item [] }

/-- A block of round `8` after a timed-out round `7`, with one timeout signer and two block
items, at protocol version 7. -/
def roundEightBlock : BakedBlock UInt8 UInt8 UInt8 :=
  { bbRound := 8
    bbEpoch := 2
    bbTimestamp := 1000
    bbBaker := 4
    bbQuorumCertificate := ⟨5, 6, 2, 9, finalizerSet [0, 2]⟩
    bbTimeoutCertificate :=
      some ⟨7, 2, ⟨[(6, finalizerSet [1])], List.pairwise_singleton _ _⟩,
        ⟨[], List.Pairwise.nil⟩, 3⟩
    bbEpochFinalizationEntry := none
    bbNonce := 17
    bbTransactions := [20, 21]
    bbDerivableHashes := .derivableBlockHashesV1 42 }

def roundEightSignedBlock : SignedBlock UInt8 UInt8 UInt8 UInt8 :=
  ⟨roundEightBlock, bakedBlockHash byteCodecs .p7 roundEightBlock, 99⟩

theorem roundEightBlock_wellFormed : roundEightBlock.WellFormed byteCodecs.hashing .p7 :=
  ⟨fun tc present => by cases present; exact fun _ => List.cons_ne_nil _ _,
    (fun entry present => by cases present)⟩

theorem roundEightBlock_fits : roundEightBlock.Fits byteCodecs .p7 := by
  have word64Fits : ∀ value : Nat, value < 2 ^ 64 → word64Format.Admissible value :=
    fun value small => (word64Format_admissible value).mpr small
  exact
    { round := word64Fits _ (by decide)
      epoch := word64Fits _ (by decide)
      timestamp := word64Fits _ (by decide)
      baker := word64Fits _ (by decide)
      nonce := trivial
      derivableHashes := ⟨rfl, (hashFormat_admissible _).mpr (by decide)⟩
      quorumCertificate := ⟨(hashFormat_admissible _).mpr (by decide), word64Fits _ (by decide),
        word64Fits _ (by decide), trivial, (finalizerSetFormat_admissible _).mpr (by decide +kernel)⟩
      timeoutCertificate := fun tc present => by
        cases present
        refine ⟨word64Fits _ (by decide), word64Fits _ (by decide), trivial,
          (finalizerRoundsFormat_admissible _).mpr ⟨by decide, fun entry listed => ?_⟩,
          (finalizerRoundsFormat_admissible _).mpr ⟨by decide, fun entry listed => by cases listed⟩⟩
        obtain rfl := List.mem_singleton.mp listed
        exact ⟨word64Fits _ (by decide), (finalizerSetFormat_admissible _).mpr (by decide +kernel)⟩
      epochFinalizationEntry := fun entry present => by cases present
      transactionCount := word64Fits _ (by decide)
      transactions := fun item _ => trivial }

theorem roundEightSignedBlock_round_trips :
    roundEightSignedBlock.sbHash = bakedBlockHash byteCodecs .p7 roundEightSignedBlock.sbBlock ∧
      roundEightSignedBlock.sbBlock.WellFormed byteCodecs.hashing .p7 ∧
      roundEightSignedBlock.sbBlock.Fits byteCodecs .p7 ∧
      byteCodecs.blockSignature.Admissible roundEightSignedBlock.sbSignature ∧
      getSignedBlock byteCodecs .p7 (putSignedBlock byteCodecs roundEightSignedBlock ++ []) =
        some (roundEightSignedBlock, []) := by
  have hashed : roundEightSignedBlock.sbHash =
      bakedBlockHash byteCodecs .p7 roundEightSignedBlock.sbBlock := rfl
  exact ⟨hashed, roundEightBlock_wellFormed, roundEightBlock_fits, trivial,
    signedBlock_wire_format_round_trips byteCodecs .p7 roundEightSignedBlock [] hashed
      roundEightBlock_wellFormed roundEightBlock_fits trivial⟩

/-- The bytes of `roundEightSignedBlock` followed by one more byte are read as the block, and the
block the reader accepted is admissible. -/
theorem putSignedBlock_of_getSignedBlock_on_round_eight :
    getSignedBlock byteCodecs .p7 (putSignedBlock byteCodecs roundEightSignedBlock ++ [7]) =
        some (roundEightSignedBlock, [7]) ∧
      roundEightSignedBlock.sbHash = bakedBlockHash byteCodecs .p7 roundEightBlock ∧
        roundEightBlock.WellFormed byteCodecs.hashing .p7 ∧ roundEightBlock.Fits byteCodecs .p7 ∧
        byteCodecs.blockSignature.Admissible roundEightSignedBlock.sbSignature := by
  have read : getSignedBlock byteCodecs .p7 (putSignedBlock byteCodecs roundEightSignedBlock ++ [7]) =
      some (roundEightSignedBlock, [7]) := by
    simp only [putSignedBlock, List.append_assoc, getSignedBlock]
    rw [bind_run_of_some (getBakedBlock_putBakedBlock byteCodecs .p7 roundEightSignedBlock.sbBlock _
      roundEightBlock_wellFormed roundEightBlock_fits), byteCodecs.blockSignature.bind_get_put trivial]
    rfl
  exact ⟨read, (putSignedBlock_of_getSignedBlock byteCodecs .p7 _ roundEightSignedBlock [7] read).1⟩

end Concordium.KonsensusV1.Types
