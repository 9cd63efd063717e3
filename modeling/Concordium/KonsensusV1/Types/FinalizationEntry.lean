import Concordium.KonsensusV1.TreeState.Implementation
import Concordium.Library.Serialize

/-!
Contract: the wire format of finalization entries in `Concordium.KonsensusV1.Types` round trips
on the entries that satisfy their documented invariants, at every protocol version; and every
entry the decoder accepts satisfies the invariants and is written back as the bytes it was read
from.

Owns:
- `ProtocolVersion` with its block-hash version and its `Word64` serialization, `BlockHeader`,
  `computeBlockHashHelper` and `successorBlockHash`, over a hashing that is a parameter;
- the serialization of `FinalizerSet` (a `Word32` byte count, then the bit vector in big-endian
  with no leading zero byte), of `QuorumCertificate` and of `ProtoFinalizationEntry`, each as a
  `Serialize.Format`;
- `toProtoFinalizationEntry`, `toFinalizationEntryHelper`, `putFinalizationEntry`,
  `getFinalizationEntry`, and the documented invariants as `FinalizationEntry.WellFormed`.

Does not own: BLS signatures, whose format is a parameter (it lives outside the repository); the
hash function; the `label`s and failure messages of the decoders, a failed read being `none`.
`ProtocolVersion`, `blockHashVersionFor` and `protocolVersionToWord64` belong to the base library
(`Concordium.Types.ProtocolVersion`), which is not among the sources: they are written here as
it defines them, for the versions up to 7, and cannot be checked against the sources.

Hashes and successor proofs are numbers below `2 ^ 256`, written as their 32 bytes; rounds and
epochs are `Word64`, so the successor round is computed modulo `2 ^ 64` as the source does.
-/

set_option autoImplicit false

namespace Concordium.KonsensusV1.Types

open Serialize
open Concordium.KonsensusV1.TreeState (FinalizationEntry)

variable {σ : Type}

/-! ## Protocol versions and block hashes -/

/-- The protocol versions the consensus code knows. -/
inductive ProtocolVersion where
  | p1 | p2 | p3 | p4 | p5 | p6 | p7
deriving DecidableEq, Repr

inductive BlockHashVersion where
  | blockHashVersion0
  | blockHashVersion1
deriving DecidableEq, Repr

/-- `blockHashVersionFor` of the base library: protocol version 7 introduced the versioned
block hash. -/
def blockHashVersionFor : ProtocolVersion → BlockHashVersion
  | .p7 => .blockHashVersion1
  | _ => .blockHashVersion0

/-- `protocolVersionToWord64` of the base library. -/
def protocolVersionToWord64 : ProtocolVersion → Nat
  | .p1 => 1
  | .p2 => 2
  | .p3 => 3
  | .p4 => 4
  | .p5 => 5
  | .p6 => 6
  | .p7 => 7

/-- The hashing a block hash is built from: `Hash.hash` (and `hashLazy`) of a byte string, and
`Hash.hashOfHashes`. -/
structure Hashing where
  hash : List UInt8 → Nat
  hashOfHashes : Nat → Nat → Nat

/-- The serialization of `Hash.Hash`: its 32 bytes. -/
def hashFormat : Format Nat := wordBE 32

/-- The serialization of `Word64`, and so of `Round` and `Epoch`. -/
def word64Format : Format Nat := wordBE 8

/-- A hash can be written when it has 32 bytes. -/
@[simp] theorem hashFormat_admissible (value : Nat) :
    hashFormat.Admissible value ↔ value < 2 ^ 256 := by
  show value < 256 ^ 32 ↔ _
  norm_num

/-- A `Word64` can be written when it is below `2 ^ 64`. -/
@[simp] theorem word64Format_admissible (value : Nat) :
    word64Format.Admissible value ↔ value < 2 ^ 64 := by
  show value < 256 ^ 8 ↔ _
  norm_num

structure BlockHeader where
  bhRound : Nat
  bhEpoch : Nat
  bhParent : Nat
deriving DecidableEq, Repr

/-- The `BlockHeaderHash`: the hash of the round, the epoch and the parent hash. -/
def BlockHeader.getHash (hashing : Hashing) (header : BlockHeader) : Nat :=
  hashing.hash (word64Format.put header.bhRound ++ word64Format.put header.bhEpoch ++
    hashFormat.put header.bhParent)

/-- The block hash from the header hash and the quasi-hash; from block-hash version 1 the
protocol version is hashed in. -/
def computeBlockHashHelper (hashing : Hashing) (pv : ProtocolVersion) (bhh bqh : Nat) : Nat :=
  let preHash := hashing.hashOfHashes bhh bqh
  match blockHashVersionFor pv with
  | .blockHashVersion0 => preHash
  | .blockHashVersion1 =>
      hashing.hash (word64Format.put (protocolVersionToWord64 pv) ++ hashFormat.put preHash)

def successorBlockHash (hashing : Hashing) (pv : ProtocolVersion) (header : BlockHeader)
    (successorProof : Nat) : Nat :=
  computeBlockHashHelper hashing pv (header.getHash hashing) successorProof

/-! ## Finalizer sets -/

/-- `put` of a finalizer set: the byte count as a `Word32`, then the bytes of the bit vector, most
significant first. `unroll` moves the low byte in front of the bytes so far and shifts it out; its
count is a `Word32`. -/
def putFinalizerSet (set : FinalizerSet) : List UInt8 :=
  let (byteCount, putBytes) := unroll 0 [] set.theFinalizerSet
  putWord32be byteCount ++ putBytes
where
  unroll (byteCount : Nat) (putBytes : List UInt8) (n : Nat) : Nat × List UInt8 :=
    if n = 0 then (byteCount, putBytes)
    else unroll ((byteCount + 1) % 2 ^ 32) (putWord8 (UInt8.ofNat n) ++ putBytes) (n >>> 8)
  termination_by n
  decreasing_by rw [Nat.shiftRight_eq_div_pow]; omega

/-- `get` of a finalizer set: the byte count, then the bytes, of which the first may not be `0`;
this is what makes the encoding unique. -/
def getFinalizerSet : Get FinalizerSet := do
  let byteCount ← getWord32be
  FinalizerSet.mk <$> roll1 byteCount
where
  roll1 : Nat → Get Nat
    | 0 => pure 0
    | byteCount + 1 => do
        let b ← getWord8
        if b = 0 then Get.fail else roll byteCount b.toNat
  roll : Nat → Nat → Get Nat
    | 0, n => pure n
    | byteCount + 1, n => do
        let b ← getWord8
        roll byteCount (n <<< 8 ||| b.toNat)

/-- `unroll` counts the bytes of the shortest encoding, modulo `2 ^ 32`, and writes them in front
of the bytes so far. -/
theorem unroll_eq (byteCount : Nat) (putBytes : List UInt8) (n : Nat)
    (small : byteCount < 2 ^ 32) :
    putFinalizerSet.unroll byteCount putBytes n =
      ((byteCount + byteLength n) % 2 ^ 32, putWordBE (byteLength n) n ++ putBytes) := by
  fun_induction putFinalizerSet.unroll byteCount putBytes n with
  | case1 byteCount putBytes =>
      rw [byteLength_zero, Nat.add_zero, Nat.mod_eq_of_lt small]
      rfl
  | case2 byteCount putBytes n nonzero inductionHypothesis =>
      have positive : 0 < n := Nat.pos_of_ne_zero nonzero
      have shifted : n >>> 8 = n / 256 := Nat.shiftRight_eq_div_pow n 8
      have lowByte : UInt8.ofNat n = UInt8.ofNat (n % 256) :=
        UInt8.toNat_inj.mp (by simp [UInt8.toNat_ofNat'])
      rw [inductionHypothesis (Nat.mod_lt _ (by decide)), shifted, byteLength_of_pos positive,
        putWordBE, List.append_assoc, putWord8, lowByte]
      -- the count wraps modulo `2 ^ 32` at every step, which is wrapping once at the end
      have wrapped : ((byteCount + 1) % 2 ^ 32 + byteLength (n / 256)) % 2 ^ 32 =
          (byteCount + (byteLength (n / 256) + 1)) % 2 ^ 32 := by omega
      rw [wrapped]

/-- The bytes of a finalizer set: the count of its shortest encoding, then that encoding. -/
theorem putFinalizerSet_eq (set : FinalizerSet) :
    putFinalizerSet set = putWord32be (byteLength set.theFinalizerSet % 2 ^ 32) ++
      putWordBE (byteLength set.theFinalizerSet) set.theFinalizerSet := by
  rw [putFinalizerSet, unroll_eq 0 [] set.theFinalizerSet (by decide), Nat.zero_add,
    List.append_nil]

/-- `roll` reads `byteCount` bytes as a big-endian number on top of `n`. -/
theorem roll_eq : ∀ (byteCount n : Nat) (input : List UInt8),
    getFinalizerSet.roll byteCount n input =
      if byteCount ≤ input.length then some (decodeBE n (input.take byteCount),
        input.drop byteCount) else none
  | 0, n, input => by simp [getFinalizerSet.roll, decodeBE]
  | byteCount + 1, n, [] => by simp [getFinalizerSet.roll, bind_run, getWord8]
  | byteCount + 1, n, b :: rest => by
      have shiftedIn : n <<< 8 ||| b.toNat = n * 256 + b.toNat := by
        rw [← Nat.shiftLeft_add_eq_or_of_lt b.toNat_lt, Nat.shiftLeft_eq]
      simp only [getFinalizerSet.roll]
      rw [bind_run_of_some (show getWord8 (b :: rest) = some (b, rest) from rfl), shiftedIn,
        roll_eq byteCount (n * 256 + b.toNat) rest]
      simp [decodeBE_cons]

/-- `roll1` reads the shortest encoding back. -/
theorem roll1_putWordBE {n byteCount : Nat} (length : byteLength n = byteCount)
    (rest : List UInt8) :
    getFinalizerSet.roll1 byteCount (putWordBE byteCount n ++ rest) = some (n, rest) := by
  cases byteCount with
  | zero =>
      have zero : n = 0 := by simpa [length] using lt_pow_byteLength n
      subst zero
      rfl
  | succ width =>
      obtain ⟨lower, upper⟩ := bounds_of_byteLength_eq length
      have leading : n / 256 ^ width < 256 := by
        rw [Nat.div_lt_iff_lt_mul (Nat.pow_pos (by decide)), ← Nat.pow_succ']
        exact upper
      have leadingByte : (UInt8.ofNat (n / 256 ^ width)).toNat = n / 256 ^ width := by
        rw [UInt8.toNat_ofNat', Nat.mod_eq_of_lt leading]
      rw [putWordBE_succ_eq_cons, List.cons_append, getFinalizerSet.roll1,
        bind_run_of_some (show getWord8 _ = some (UInt8.ofNat (n / 256 ^ width), _) from rfl),
        if_neg (head_putWordBE_ne_zero length), leadingByte, roll_eq]
      have lengthFits : width ≤ (putWordBE width n ++ rest).length := by simp
      rw [if_pos lengthFits, List.take_left' (putWordBE_length width n),
        List.drop_left' (putWordBE_length width n), decodeBE_putWordBE, Nat.div_add_mod']

/-- What `roll1` reads is the shortest encoding of the number it returns. -/
theorem roll1_eq_some {byteCount n : Nat} {input rest : List UInt8}
    (read : getFinalizerSet.roll1 byteCount input = some (n, rest)) :
    byteLength n = byteCount ∧ input = putWordBE byteCount n ++ rest := by
  cases byteCount with
  | zero =>
      obtain ⟨rfl, rfl⟩ := Prod.mk.inj (Option.some.inj read)
      exact ⟨byteLength_zero, rfl⟩
  | succ width =>
      cases input with
      | nil => cases read
      | cons b tail =>
          rw [getFinalizerSet.roll1, bind_run_of_some (show getWord8 (b :: tail) = some (b, tail)
            from rfl)] at read
          split at read
          · cases read
          · next nonzero =>
              rw [roll_eq] at read
              split at read
              · next long =>
                  obtain ⟨decoded, dropped⟩ := Prod.mk.inj (Option.some.inj read)
                  have taken : (tail.take width).length = width := List.length_take_of_le long
                  -- the bytes read are `b` and the `width` bytes after it
                  have whole : decodeBE 0 (b :: tail.take width) = n := by
                    rw [decodeBE_cons, Nat.zero_mul, Nat.zero_add, decoded]
                  have positive : 0 < b.toNat := by
                    rw [Nat.pos_iff_ne_zero]
                    exact fun zero => nonzero (UInt8.toNat_inj.mp zero)
                  obtain ⟨lower, upper⟩ := decodeBE_bounds (tail.take width) b.toNat
                  rw [taken, decoded] at lower upper
                  constructor
                  · apply byteLength_eq_of_bounds
                    · exact Nat.le_trans (Nat.le_mul_of_pos_left _ positive) lower
                    · calc n < (b.toNat + 1) * 256 ^ width := upper
                        _ ≤ 256 * 256 ^ width := Nat.mul_le_mul_right _ b.toNat_lt
                        _ = 256 ^ (width + 1) := (Nat.pow_succ' ..).symm
                  · have written := putWordBE_decodeBE (b :: tail.take width)
                    rw [List.length_cons, taken, whole] at written
                    rw [written, ← dropped, List.cons_append, List.take_append_drop]
              · cases read

theorem getFinalizerSet_putFinalizerSet (set : FinalizerSet) (rest : List UInt8)
    (fits : byteLength set.theFinalizerSet < 2 ^ 32) :
    getFinalizerSet (putFinalizerSet set ++ rest) = some (set, rest) := by
  rw [putFinalizerSet_eq, Nat.mod_eq_of_lt fits, List.append_assoc, getFinalizerSet,
    bind_run_of_some (getWord32be_putWord32be fits _)]
  exact map_run_of_some (roll1_putWordBE rfl rest)

theorem putFinalizerSet_of_getFinalizerSet (input : List UInt8) (set : FinalizerSet)
    (rest : List UInt8) (read : getFinalizerSet input = some (set, rest)) :
    byteLength set.theFinalizerSet < 2 ^ 32 ∧ input = putFinalizerSet set ++ rest := by
  obtain ⟨byteCount, middle, countFits, rfl, readBytes⟩ := (wordBE 4).bind_get_eq_some read
  obtain ⟨n, rolled, rfl⟩ := map_run_eq_some readBytes
  obtain ⟨length, rfl⟩ := roll1_eq_some rolled
  subst length
  have countFits : byteLength n < 2 ^ 32 := countFits
  refine ⟨countFits, ?_⟩
  rw [putFinalizerSet_eq, Nat.mod_eq_of_lt countFits, List.append_assoc]
  rfl

/-- The serialization of finalizer sets. It can write the sets whose byte count fits its
`Word32`; `byteLength_lt_of_indices` shows that every set of `Word32` finalizer indices does. -/
def finalizerSetFormat : Format FinalizerSet where
  Admissible set := byteLength set.theFinalizerSet < 2 ^ 32
  put := putFinalizerSet
  get := getFinalizerSet
  get_put set rest fits := getFinalizerSet_putFinalizerSet set rest fits
  put_get := putFinalizerSet_of_getFinalizerSet

@[simp] theorem finalizerSetFormat_admissible (set : FinalizerSet) :
    finalizerSetFormat.Admissible set ↔ byteLength set.theFinalizerSet < 2 ^ 32 :=
  Iff.rfl

/-- A set of finalizer indices, which are `Word32`, has fewer than `2 ^ 32` bytes. -/
theorem byteLength_lt_of_indices {set : FinalizerSet}
    (indices : ∀ index, memberFinalizerSet index set = true → index < 2 ^ 32) :
    finalizerSetFormat.Admissible set := by
  show byteLength set.theFinalizerSet < 2 ^ 32
  cases length : byteLength set.theFinalizerSet with
  | zero => decide
  | succ width =>
      have bitsBelow := eight_mul_lt_of_testBit length indices
      omega

/-- The encoding of a set is its byte count and then its bytes, big-endian and with no leading
zero byte. -/
theorem putFinalizerSet_shape (set : FinalizerSet) (fits : byteLength set.theFinalizerSet < 2 ^ 32) :
    ∃ bytes : List UInt8, putFinalizerSet set = putWord32be bytes.length ++ bytes ∧
      bytes.head? ≠ some 0 ∧ decodeBE 0 bytes = set.theFinalizerSet := by
  refine ⟨putWordBE (byteLength set.theFinalizerSet) set.theFinalizerSet, ?_, ?_, ?_⟩
  · rw [putFinalizerSet_eq, putWordBE_length, Nat.mod_eq_of_lt fits]
  · cases length : byteLength set.theFinalizerSet with
    | zero => simp [putWordBE]
    | succ width =>
        rw [putWordBE_succ_eq_cons, List.head?_cons, Ne, Option.some.injEq]
        exact head_putWordBE_ne_zero length
  · rw [decodeBE_putWordBE, Nat.zero_mul, Nat.zero_add,
      Nat.mod_eq_of_lt (lt_pow_byteLength set.theFinalizerSet)]

/-- The encoding of finalizer sets is one to one onto what `get` accepts: a set whose byte count
fits the `Word32` is read back from its bytes, which are consumed exactly; every input `get`
accepts begins with the encoding of the set it reads; and that encoding is the count and then
the big-endian bytes, the first of which is not zero. -/
theorem finalizerSet_encoding_bijective :
    (∀ (set : FinalizerSet) (rest : List UInt8), byteLength set.theFinalizerSet < 2 ^ 32 →
      getFinalizerSet (putFinalizerSet set ++ rest) = some (set, rest)) ∧
      (∀ (input : List UInt8) (set : FinalizerSet) (rest : List UInt8),
        getFinalizerSet input = some (set, rest) → input = putFinalizerSet set ++ rest) ∧
      (∀ set : FinalizerSet, byteLength set.theFinalizerSet < 2 ^ 32 →
        ∃ bytes : List UInt8, putFinalizerSet set = putWord32be bytes.length ++ bytes ∧
          bytes.head? ≠ some 0 ∧ decodeBE 0 bytes = set.theFinalizerSet) :=
  ⟨fun set rest fits => getFinalizerSet_putFinalizerSet set rest fits,
    fun input set rest read => (putFinalizerSet_of_getFinalizerSet input set rest read).2,
    putFinalizerSet_shape⟩

theorem finalizerSet_encoding_bijective_on_five :
    byteLength 5 < 2 ^ 32 ∧ getFinalizerSet (putFinalizerSet ⟨5⟩ ++ []) = some (⟨5⟩, []) := by
  have fits : byteLength 5 < 2 ^ 32 := by
    rw [@byteLength_eq_of_bounds 5 0 (by decide) (by decide)]
    decide
  exact ⟨fits, finalizerSet_encoding_bijective.1 ⟨5⟩ [] fits⟩

/-! ## Quorum certificates -/

def putQuorumCertificate (signature : Format σ) (qc : QuorumCertificate σ) : List UInt8 :=
  hashFormat.put qc.qcBlock ++ word64Format.put qc.qcRound ++ word64Format.put qc.qcEpoch ++
    signature.put qc.qcAggregateSignature ++ finalizerSetFormat.put qc.qcSignatories

def getQuorumCertificate (signature : Format σ) : Get (QuorumCertificate σ) := do
  let qcBlock ← hashFormat.get
  let qcRound ← word64Format.get
  let qcEpoch ← word64Format.get
  let qcAggregateSignature ← signature.get
  let qcSignatories ← finalizerSetFormat.get
  pure { qcBlock, qcRound, qcEpoch, qcAggregateSignature, qcSignatories }

/-- Every field of the certificate can be written by its format. -/
structure QuorumCertificate.Fits (signature : Format σ) (qc : QuorumCertificate σ) : Prop where
  block : hashFormat.Admissible qc.qcBlock
  round : word64Format.Admissible qc.qcRound
  epoch : word64Format.Admissible qc.qcEpoch
  aggregateSignature : signature.Admissible qc.qcAggregateSignature
  signatories : finalizerSetFormat.Admissible qc.qcSignatories

theorem getQuorumCertificate_putQuorumCertificate (signature : Format σ)
    (qc : QuorumCertificate σ) (rest : List UInt8) (fits : qc.Fits signature) :
    getQuorumCertificate signature (putQuorumCertificate signature qc ++ rest) =
      some (qc, rest) := by
  simp only [putQuorumCertificate, List.append_assoc, getQuorumCertificate]
  rw [hashFormat.bind_get_put fits.block, word64Format.bind_get_put fits.round,
    word64Format.bind_get_put fits.epoch, signature.bind_get_put fits.aggregateSignature,
    finalizerSetFormat.bind_get_put fits.signatories]
  rfl

theorem putQuorumCertificate_of_getQuorumCertificate (signature : Format σ)
    (input : List UInt8) (qc : QuorumCertificate σ) (rest : List UInt8)
    (read : getQuorumCertificate signature input = some (qc, rest)) :
    qc.Fits signature ∧ input = putQuorumCertificate signature qc ++ rest := by
  -- the fields in the order they are read, each from the bytes its format writes
  unfold getQuorumCertificate at read
  -- the fields in the order they are read, each from the bytes its format writes
  obtain ⟨qcBlock, afterBlock, block, atBlock, readRound⟩ := hashFormat.bind_get_eq_some read
  obtain ⟨qcRound, afterRound, round, atRound, readEpoch⟩ :=
    word64Format.bind_get_eq_some readRound
  obtain ⟨qcEpoch, afterEpoch, epoch, atEpoch, readSignature⟩ :=
    word64Format.bind_get_eq_some readEpoch
  obtain ⟨qcAggregateSignature, afterSignature, aggregateSignature, atSignature,
    readSignatories⟩ := signature.bind_get_eq_some readSignature
  obtain ⟨qcSignatories, afterSignatories, signatories, atSignatories, readDone⟩ :=
    finalizerSetFormat.bind_get_eq_some readSignatories
  obtain ⟨rfl, rfl⟩ := Prod.mk.inj (Option.some.inj readDone)
  refine ⟨⟨block, round, epoch, aggregateSignature, signatories⟩, ?_⟩
  rw [atBlock, atRound, atEpoch, atSignature, atSignatories]
  simp only [putQuorumCertificate, List.append_assoc]

def quorumCertificateFormat (signature : Format σ) : Format (QuorumCertificate σ) where
  Admissible qc := qc.Fits signature
  put := putQuorumCertificate signature
  get := getQuorumCertificate signature
  get_put qc rest fits := getQuorumCertificate_putQuorumCertificate signature qc rest fits
  put_get := putQuorumCertificate_of_getQuorumCertificate signature

/-! ## Finalization entries -/

/-- The components of a finalization entry that cannot be derived from its invariants: of the
successor certificate, only the signature and the signatories. -/
structure ProtoFinalizationEntry (σ : Type) where
  pfeFinalizedQuorumCertificate : QuorumCertificate σ
  pfeSuccessorAggregateSignature : σ
  pfeSuccessorSignatories : FinalizerSet
  pfeSuccessorProof : Nat
deriving DecidableEq, Repr

def putProtoFinalizationEntry (signature : Format σ) (entry : ProtoFinalizationEntry σ) :
    List UInt8 :=
  (quorumCertificateFormat signature).put entry.pfeFinalizedQuorumCertificate ++
    signature.put entry.pfeSuccessorAggregateSignature ++
    finalizerSetFormat.put entry.pfeSuccessorSignatories ++ hashFormat.put entry.pfeSuccessorProof

def getProtoFinalizationEntry (signature : Format σ) : Get (ProtoFinalizationEntry σ) := do
  let pfeFinalizedQuorumCertificate ← (quorumCertificateFormat signature).get
  let pfeSuccessorAggregateSignature ← signature.get
  let pfeSuccessorSignatories ← finalizerSetFormat.get
  let pfeSuccessorProof ← hashFormat.get
  pure { pfeFinalizedQuorumCertificate := pfeFinalizedQuorumCertificate
         pfeSuccessorAggregateSignature := pfeSuccessorAggregateSignature
         pfeSuccessorSignatories := pfeSuccessorSignatories
         pfeSuccessorProof := pfeSuccessorProof }

/-- Every field of the entry can be written by its format. -/
structure ProtoFinalizationEntry.Fits (signature : Format σ) (entry : ProtoFinalizationEntry σ) :
    Prop where
  finalizedQuorumCertificate : entry.pfeFinalizedQuorumCertificate.Fits signature
  successorAggregateSignature : signature.Admissible entry.pfeSuccessorAggregateSignature
  successorSignatories : finalizerSetFormat.Admissible entry.pfeSuccessorSignatories
  successorProof : hashFormat.Admissible entry.pfeSuccessorProof

theorem getProtoFinalizationEntry_putProtoFinalizationEntry (signature : Format σ)
    (entry : ProtoFinalizationEntry σ) (rest : List UInt8) (fits : entry.Fits signature) :
    getProtoFinalizationEntry signature (putProtoFinalizationEntry signature entry ++ rest) =
      some (entry, rest) := by
  simp only [putProtoFinalizationEntry, List.append_assoc, getProtoFinalizationEntry]
  rw [(quorumCertificateFormat signature).bind_get_put fits.finalizedQuorumCertificate,
    signature.bind_get_put fits.successorAggregateSignature,
    finalizerSetFormat.bind_get_put fits.successorSignatories,
    hashFormat.bind_get_put fits.successorProof]
  rfl

theorem putProtoFinalizationEntry_of_getProtoFinalizationEntry (signature : Format σ)
    (input : List UInt8) (entry : ProtoFinalizationEntry σ) (rest : List UInt8)
    (read : getProtoFinalizationEntry signature input = some (entry, rest)) :
    entry.Fits signature ∧ input = putProtoFinalizationEntry signature entry ++ rest := by
  unfold getProtoFinalizationEntry at read
  obtain ⟨finalized, afterFinalized, finalizedFits, atFinalized, readSignature⟩ :=
    (quorumCertificateFormat signature).bind_get_eq_some read
  obtain ⟨aggregateSignature, afterSignature, signatureFits, atSignature, readSignatories⟩ :=
    signature.bind_get_eq_some readSignature
  obtain ⟨signatories, afterSignatories, signatoriesFit, atSignatories, readProof⟩ :=
    finalizerSetFormat.bind_get_eq_some readSignatories
  obtain ⟨proof, afterProof, proofFits, atProof, readDone⟩ := hashFormat.bind_get_eq_some readProof
  obtain ⟨rfl, rfl⟩ := Prod.mk.inj (Option.some.inj readDone)
  refine ⟨⟨finalizedFits, signatureFits, signatoriesFit, proofFits⟩, ?_⟩
  rw [atFinalized, atSignature, atSignatories, atProof]
  simp only [putProtoFinalizationEntry, List.append_assoc]

def protoFinalizationEntryFormat (signature : Format σ) : Format (ProtoFinalizationEntry σ) where
  Admissible entry := entry.Fits signature
  put := putProtoFinalizationEntry signature
  get := getProtoFinalizationEntry signature
  get_put entry rest fits :=
    getProtoFinalizationEntry_putProtoFinalizationEntry signature entry rest fits
  put_get := putProtoFinalizationEntry_of_getProtoFinalizationEntry signature

/-- `toProtoFinalizationEntry`: the successor certificate loses its round, epoch and block hash. -/
def toProtoFinalizationEntry (entry : FinalizationEntry σ) : ProtoFinalizationEntry σ :=
  { pfeFinalizedQuorumCertificate := entry.feFinalizedQuorumCertificate
    pfeSuccessorAggregateSignature := entry.feSuccessorQuorumCertificate.qcAggregateSignature
    pfeSuccessorSignatories := entry.feSuccessorQuorumCertificate.qcSignatories
    pfeSuccessorProof := entry.feSuccessorProof }

/-- `toFinalizationEntryHelper`: the successor is in the next round (as a `Word64`) of the same
epoch, and its block hash is derived from that header and the successor proof. -/
def toFinalizationEntryHelper (hashing : Hashing) (pv : ProtocolVersion)
    (entry : ProtoFinalizationEntry σ) : FinalizationEntry σ :=
  let sqcRound := (entry.pfeFinalizedQuorumCertificate.qcRound + 1) % 2 ^ 64
  let sqcEpoch := entry.pfeFinalizedQuorumCertificate.qcEpoch
  { feFinalizedQuorumCertificate := entry.pfeFinalizedQuorumCertificate
    feSuccessorQuorumCertificate :=
      { qcRound := sqcRound
        qcEpoch := sqcEpoch
        qcBlock := successorBlockHash hashing pv
          ⟨sqcRound, sqcEpoch, entry.pfeFinalizedQuorumCertificate.qcBlock⟩
          entry.pfeSuccessorProof
        qcAggregateSignature := entry.pfeSuccessorAggregateSignature
        qcSignatories := entry.pfeSuccessorSignatories }
    feSuccessorProof := entry.pfeSuccessorProof }

def putFinalizationEntry (signature : Format σ) (entry : FinalizationEntry σ) : List UInt8 :=
  (protoFinalizationEntryFormat signature).put (toProtoFinalizationEntry entry)

def getFinalizationEntry (hashing : Hashing) (signature : Format σ) (pv : ProtocolVersion) :
    Get (FinalizationEntry σ) :=
  toFinalizationEntryHelper hashing pv <$> (protoFinalizationEntryFormat signature).get

/-- The invariants the source documents for a finalization entry at protocol version `pv`: the
successor certificate is for the next round of the same epoch, and for the block whose hash the
successor proof derives from that header. -/
structure WellFormedFinalizationEntry (hashing : Hashing) (pv : ProtocolVersion)
    (entry : FinalizationEntry σ) : Prop where
  successorRound : entry.feSuccessorQuorumCertificate.qcRound =
    (entry.feFinalizedQuorumCertificate.qcRound + 1) % 2 ^ 64
  successorEpoch : entry.feSuccessorQuorumCertificate.qcEpoch =
    entry.feFinalizedQuorumCertificate.qcEpoch
  successorBlock : entry.feSuccessorQuorumCertificate.qcBlock =
    successorBlockHash hashing pv
      ⟨entry.feSuccessorQuorumCertificate.qcRound, entry.feSuccessorQuorumCertificate.qcEpoch,
        entry.feFinalizedQuorumCertificate.qcBlock⟩
      entry.feSuccessorProof

/-- The fields of the entry that are written can be written by their formats. -/
def FinalizationEntryFits (signature : Format σ) (entry : FinalizationEntry σ) : Prop :=
  (toProtoFinalizationEntry entry).Fits signature

/-- The helper rebuilds a well-formed entry from what is written of it. -/
theorem toFinalizationEntryHelper_toProtoFinalizationEntry {hashing : Hashing}
    {pv : ProtocolVersion} {entry : FinalizationEntry σ}
    (wellFormed : WellFormedFinalizationEntry hashing pv entry) :
    toFinalizationEntryHelper hashing pv (toProtoFinalizationEntry entry) = entry := by
  obtain ⟨finalized, ⟨block, round, epoch, aggregateSignature, signatories⟩, proof⟩ := entry
  obtain ⟨successorRound, successorEpoch, successorBlock⟩ := wellFormed
  dsimp only at successorRound successorEpoch successorBlock
  subst successorBlock successorRound successorEpoch
  rfl

/-- What the helper builds is well formed. -/
theorem wellFormed_toFinalizationEntryHelper (hashing : Hashing) (pv : ProtocolVersion)
    (entry : ProtoFinalizationEntry σ) :
    WellFormedFinalizationEntry hashing pv (toFinalizationEntryHelper hashing pv entry) :=
  ⟨rfl, rfl, rfl⟩

theorem toProtoFinalizationEntry_toFinalizationEntryHelper (hashing : Hashing)
    (pv : ProtocolVersion) (entry : ProtoFinalizationEntry σ) :
    toProtoFinalizationEntry (toFinalizationEntryHelper hashing pv entry) = entry :=
  rfl

theorem getFinalizationEntry_putFinalizationEntry (hashing : Hashing) (signature : Format σ)
    (pv : ProtocolVersion) (entry : FinalizationEntry σ) (rest : List UInt8)
    (wellFormed : WellFormedFinalizationEntry hashing pv entry)
    (fits : FinalizationEntryFits signature entry) :
    getFinalizationEntry hashing signature pv (putFinalizationEntry signature entry ++ rest) =
      some (entry, rest) := by
  rw [getFinalizationEntry, putFinalizationEntry,
    map_run_of_some ((protoFinalizationEntryFormat signature).get_put _ rest fits),
    toFinalizationEntryHelper_toProtoFinalizationEntry wellFormed]

theorem putFinalizationEntry_of_getFinalizationEntry (hashing : Hashing) (signature : Format σ)
    (pv : ProtocolVersion) (input : List UInt8) (entry : FinalizationEntry σ)
    (rest : List UInt8) (read : getFinalizationEntry hashing signature pv input = some (entry, rest)) :
    WellFormedFinalizationEntry hashing pv entry ∧
      input = putFinalizationEntry signature entry ++ rest := by
  obtain ⟨proto, readProto, built⟩ := map_run_eq_some read
  obtain ⟨-, encoded⟩ := (protoFinalizationEntryFormat signature).put_get input proto rest readProto
  rw [← built]
  exact ⟨wellFormed_toFinalizationEntryHelper hashing pv proto,
    by rw [encoded, putFinalizationEntry, toProtoFinalizationEntry_toFinalizationEntryHelper]⟩

/-- The wire format of finalization entries, at every protocol version: a well-formed entry whose
fields fit their formats is read back from its bytes, leaving what follows them; and every entry
that is read is well formed and was read from exactly its own bytes. -/
theorem finalizationEntry_wire_format_round_trips (hashing : Hashing) (signature : Format σ)
    (pv : ProtocolVersion) :
    (∀ (entry : FinalizationEntry σ) (rest : List UInt8),
        WellFormedFinalizationEntry hashing pv entry → FinalizationEntryFits signature entry →
        getFinalizationEntry hashing signature pv (putFinalizationEntry signature entry ++ rest) =
          some (entry, rest)) ∧
      (∀ (input : List UInt8) (entry : FinalizationEntry σ) (rest : List UInt8),
        getFinalizationEntry hashing signature pv input = some (entry, rest) →
        WellFormedFinalizationEntry hashing pv entry ∧
          input = putFinalizationEntry signature entry ++ rest) :=
  ⟨getFinalizationEntry_putFinalizationEntry hashing signature pv,
    putFinalizationEntry_of_getFinalizationEntry hashing signature pv⟩

/-- Hashing by length and by sum, for evaluating the model. -/
def lengthHashing : Hashing := ⟨fun bytes => bytes.length, fun first second => first + second⟩

/-- A finalization entry at protocol version 7, with one-byte signatures: finalizers `0` and `2`
signed the block `5` of round `7`, finalizers `0` and `1` its successor. -/
def roundSevenEntry : FinalizationEntry UInt8 :=
  { feFinalizedQuorumCertificate := ⟨5, 7, 2, 9, finalizerSet [0, 2]⟩
    feSuccessorQuorumCertificate :=
      ⟨successorBlockHash lengthHashing .p7 ⟨8, 2, 5⟩ 11, 8, 2, 10, finalizerSet [0, 1]⟩
    feSuccessorProof := 11 }

theorem roundSevenEntry_round_trips :
    WellFormedFinalizationEntry lengthHashing .p7 roundSevenEntry ∧
      FinalizationEntryFits word8 roundSevenEntry ∧
      getFinalizationEntry lengthHashing word8 .p7 (putFinalizationEntry word8 roundSevenEntry ++ []) =
        some (roundSevenEntry, []) := by
  have wellFormed : WellFormedFinalizationEntry lengthHashing .p7 roundSevenEntry :=
    ⟨rfl, rfl, rfl⟩
  have fits : FinalizationEntryFits word8 roundSevenEntry := by
    refine ⟨⟨?_, ?_, ?_, trivial, ?_⟩, trivial, ?_, ?_⟩ <;>
      simp only [hashFormat_admissible, word64Format_admissible,
        finalizerSetFormat_admissible] <;> decide +kernel
  exact ⟨wellFormed, fits,
    (finalizationEntry_wire_format_round_trips lengthHashing word8 .p7).1 roundSevenEntry []
      wellFormed fits⟩

end Concordium.KonsensusV1.Types
