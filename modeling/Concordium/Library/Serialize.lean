import Mathlib.Tactic.Ring
import Mathlib.Tactic.NormNum
import Mathlib.Data.Nat.Digits.Lemmas
import Mathlib.Data.Nat.Log
import Concordium.Library.ListPrefix

/-!
Contract: a byte-level model of a `cereal`-style serializer, independent of any program.

Owns:
- `Put` output as a list of bytes, with `putWord8` and big-endian `putWordBE`
  (`putWord16be`, `putWord32be`, `putWord64be`);
- `Get` as a parser over a byte list, its monad instance, and `getWord8`, `getWordBE`;
- the round-trip laws: a getter reads back exactly what the matching putter wrote, and
  leaves the rest of the input untouched; and the bind law that lets a decoder be
  peeled one field at a time;
- `lex_putWordBE_iff`: big-endian encodings of one width are ordered as the numbers are;
- `Format`: a putter and a getter with both laws, the round trip on the values it can write and
  canonicity (every read is of exactly the bytes the putter writes), with `bind_get_put` and
  `bind_get_eq_some` to peel a record's fields in order; the formats `word8` and `wordBE`;
- `Format.prod`, `replicateGet` and the optional values `putOption` / `getOptionIf`, with the laws
  that let a record with a counted sequence or a flagged optional part be read back;
- `ReadsBack`, the round trip of one value for a writer and a reader that need not form a
  `Format`, with `replicateGet_of_readsBack` and the `Word64`-counted lists `putListOf` /
  `getListOf`;
- `byteLength`, the width of the shortest big-endian encoding, whose first byte is not zero.

Does not own: any particular format. A format is a `put` function and a `Get` parser,
and its round trip is proved from the laws here.
-/

set_option autoImplicit false

namespace Serialize

/-- A parser: the value read and the unread input, or failure. -/
def Get (α : Type) : Type := List UInt8 → Option (α × List UInt8)

instance : Monad Get where
  pure value input := some (value, input)
  bind reader continuation input :=
    match reader input with
    | none => none
    | some (value, rest) => continuation value rest

def Get.fail {α : Type} : Get α := fun _ => none

variable {α β : Type}

@[simp] theorem pure_run (value : α) (input : List UInt8) :
    (pure value : Get α) input = some (value, input) := rfl

/-- Running a bind is running the first parser and then the continuation on what is left. -/
theorem bind_run (reader : Get α) (continuation : α → Get β) (input : List UInt8) :
    (reader >>= continuation) input =
      match reader input with
      | none => none
      | some (value, rest) => continuation value rest := rfl

/-- The bind law used to peel a decoder: a reader that succeeds hands its value and the
rest of the input to the continuation. -/
theorem bind_run_of_some {reader : Get α} {continuation : α → Get β} {input rest : List UInt8}
    {value : α} (read : reader input = some (value, rest)) :
    (reader >>= continuation) input = continuation value rest := by
  rw [bind_run, read]

theorem bind_run_of_none {reader : Get α} {continuation : α → Get β} {input : List UInt8}
    (failed : reader input = none) :
    (reader >>= continuation) input = none := by
  rw [bind_run, failed]

/-- A bind that succeeds: the first parser succeeded, and the continuation on what it left. -/
theorem bind_run_eq_some {reader : Get α} {continuation : α → Get β} {input rest : List UInt8}
    {result : β} (read : (reader >>= continuation) input = some (result, rest)) :
    ∃ value middle, reader input = some (value, middle) ∧
      continuation value middle = some (result, rest) := by
  cases fieldRead : reader input with
  | none =>
      rw [bind_run_of_none fieldRead] at read
      cases read
  | some field =>
      obtain ⟨value, middle⟩ := field
      exact ⟨value, middle, rfl, by rwa [bind_run_of_some fieldRead] at read⟩

theorem pure_run_eq_some {value result : α} {input rest : List UInt8}
    (read : (pure value : Get α) input = some (result, rest)) : value = result ∧ input = rest :=
  Prod.mk.inj (Option.some.inj read)

/-- The number of bytes left to read (`remaining`). -/
def remaining : Get Nat := fun input => some (input.length, input)

theorem remaining_bind (continuation : Nat → Get β) (input : List UInt8) :
    (remaining >>= continuation) input = continuation input.length input := rfl

/-! ## Words -/

def putWord8 (byte : UInt8) : List UInt8 := [byte]

def getWord8 : Get UInt8
  | [] => none
  | byte :: rest => some (byte, rest)

@[simp] theorem getWord8_putWord8 (byte : UInt8) (rest : List UInt8) :
    getWord8 (putWord8 byte ++ rest) = some (byte, rest) := rfl

/-- The low `width` bytes of `value`, most significant first. -/
def putWordBE : Nat → Nat → List UInt8
  | 0, _ => []
  | width + 1, value => putWordBE width (value / 256) ++ [UInt8.ofNat (value % 256)]

/-- The number whose big-endian bytes are `bytes`, on top of `accumulated`. -/
def decodeBE (accumulated : Nat) (bytes : List UInt8) : Nat :=
  bytes.foldl (fun total byte => total * 256 + byte.toNat) accumulated

/-- Read `width` bytes as a big-endian number. -/
def getWordBE (width : Nat) : Get Nat := fun input =>
  if width ≤ input.length then some (decodeBE 0 (input.take width), input.drop width)
  else none

@[simp] theorem putWordBE_length (width value : Nat) :
    (putWordBE width value).length = width := by
  induction width generalizing value with
  | zero => rfl
  | succ width inductionHypothesis => simp [putWordBE, inductionHypothesis]

theorem decodeBE_putWordBE (width value accumulated : Nat) :
    decodeBE accumulated (putWordBE width value) =
      accumulated * 256 ^ width + value % 256 ^ width := by
  induction width generalizing value accumulated with
  | zero => simp [decodeBE, putWordBE, Nat.mod_one]
  | succ width inductionHypothesis =>
      simp only [decodeBE] at inductionHypothesis ⊢
      rw [putWordBE, List.foldl_append, inductionHypothesis]
      have lowByte : (UInt8.ofNat (value % 256)).toNat = value % 256 := by simp
      simp only [List.foldl_cons, List.foldl_nil, lowByte]
      -- the low byte and the higher bytes of `value % 256 ^ (width + 1)`
      rw [Nat.pow_succ, Nat.mul_comm (256 ^ width) 256, Nat.mod_mul]
      ring

theorem getWordBE_putWordBE (width value : Nat) (rest : List UInt8) :
    getWordBE width (putWordBE width value ++ rest) = some (value % 256 ^ width, rest) := by
  have lengthFits : width ≤ (putWordBE width value ++ rest).length := by simp
  simp only [getWordBE, lengthFits, if_true]
  have taken : (putWordBE width value ++ rest).take width = putWordBE width value := by
    exact List.take_left' (putWordBE_length width value)
  have dropped : (putWordBE width value ++ rest).drop width = rest := by
    exact List.drop_left' (putWordBE_length width value)
  rw [taken, dropped, decodeBE_putWordBE]
  simp

theorem putWordBE_inj {width first second : Nat} (firstFits : first < 256 ^ width)
    (secondFits : second < 256 ^ width) (same : putWordBE width first = putWordBE width second) :
    first = second := by
  have decoded := congrArg (decodeBE 0) same
  rw [decodeBE_putWordBE, decodeBE_putWordBE, Nat.mod_eq_of_lt firstFits,
    Nat.mod_eq_of_lt secondFits] at decoded
  simpa using decoded

/-- Big-endian encodings of one width compare lexicographically as the numbers do. -/
theorem lex_putWordBE_iff : ∀ (width : Nat) {first second : Nat}, first < 256 ^ width →
    second < 256 ^ width →
      (List.Lex (· < ·) (putWordBE width first) (putWordBE width second) ↔ first < second)
  | 0, first, second, firstFits, secondFits => by
      rw [putWordBE, putWordBE]
      constructor
      · intro lex
        cases lex
      · intro below
        rw [Nat.pow_zero] at firstFits secondFits
        omega
  | width + 1, first, second, firstFits, secondFits => by
      rw [Nat.pow_succ] at firstFits secondFits
      have firstHigh : first / 256 < 256 ^ width := by omega
      have secondHigh : second / 256 < 256 ^ width := by omega
      have sameHigh : putWordBE width (first / 256) = putWordBE width (second / 256) ↔
          first / 256 = second / 256 :=
        ⟨putWordBE_inj firstHigh secondHigh, congrArg (putWordBE width)⟩
      have firstLow : (UInt8.ofNat (first % 256)).toNat = first % 256 := by simp
      have secondLow : (UInt8.ofNat (second % 256)).toNat = second % 256 := by simp
      -- the high bytes decide, and the low byte where they agree
      rw [putWordBE, putWordBE,
        ListPrefix.lex_append_singleton_iff (by rw [putWordBE_length, putWordBE_length]),
        lex_putWordBE_iff width firstHigh secondHigh, sameHigh, UInt8.lt_iff_toNat_lt, firstLow,
        secondLow]
      omega

def putWord16be (value : Nat) : List UInt8 := putWordBE 2 value

def putWord32be (value : Nat) : List UInt8 := putWordBE 4 value

def putWord64be (value : Nat) : List UInt8 := putWordBE 8 value

def getWord16be : Get Nat := getWordBE 2

def getWord32be : Get Nat := getWordBE 4

def getWord64be : Get Nat := getWordBE 8

theorem getWord64be_putWord64be {value : Nat} (fits : value < 2 ^ 64) (rest : List UInt8) :
    getWord64be (putWord64be value ++ rest) = some (value, rest) := by
  rw [getWord64be, putWord64be, getWordBE_putWordBE]
  have sameBound : (256 : Nat) ^ 8 = 2 ^ 64 := by norm_num
  rw [sameBound, Nat.mod_eq_of_lt fits]

theorem getWord16be_putWord16be {value : Nat} (fits : value < 2 ^ 16) (rest : List UInt8) :
    getWord16be (putWord16be value ++ rest) = some (value, rest) := by
  rw [getWord16be, putWord16be, getWordBE_putWordBE]
  have sameBound : (256 : Nat) ^ 2 = 2 ^ 16 := by norm_num
  rw [sameBound, Nat.mod_eq_of_lt fits]

theorem getWord32be_putWord32be {value : Nat} (fits : value < 2 ^ 32) (rest : List UInt8) :
    getWord32be (putWord32be value ++ rest) = some (value, rest) := by
  rw [getWord32be, putWord32be, getWordBE_putWordBE]
  have sameBound : (256 : Nat) ^ 4 = 2 ^ 32 := by norm_num
  rw [sameBound, Nat.mod_eq_of_lt fits]

/-! ## Decoding bounds -/

theorem decodeBE_cons (accumulated : Nat) (byte : UInt8) (bytes : List UInt8) :
    decodeBE accumulated (byte :: bytes) = decodeBE (accumulated * 256 + byte.toNat) bytes := rfl

/-- What is decoded on top of `accumulated` lies in `accumulated`'s block of `256 ^ length`. -/
theorem decodeBE_bounds (bytes : List UInt8) : ∀ accumulated : Nat,
    accumulated * 256 ^ bytes.length ≤ decodeBE accumulated bytes ∧
      decodeBE accumulated bytes < (accumulated + 1) * 256 ^ bytes.length := by
  induction bytes with
  | nil => intro accumulated; simp [decodeBE]
  | cons byte bytes inductionHypothesis =>
      intro accumulated
      have byteFits := byte.toNat_lt
      obtain ⟨lower, upper⟩ := inductionHypothesis (accumulated * 256 + byte.toNat)
      rw [decodeBE_cons, List.length_cons, Nat.pow_succ]
      constructor
      · calc accumulated * (256 ^ bytes.length * 256)
            = accumulated * 256 * 256 ^ bytes.length := by ring
          _ ≤ (accumulated * 256 + byte.toNat) * 256 ^ bytes.length :=
              Nat.mul_le_mul_right _ (Nat.le_add_right _ _)
          _ ≤ _ := lower
      · calc _ < (accumulated * 256 + byte.toNat + 1) * 256 ^ bytes.length := upper
          _ ≤ (accumulated + 1) * 256 * 256 ^ bytes.length :=
              Nat.mul_le_mul_right _ (by omega)
          _ = (accumulated + 1) * (256 ^ bytes.length * 256) := by ring

/-- Writing a decoded string back at its own width gives the string. -/
theorem putWordBE_decodeBE (bytes : List UInt8) :
    putWordBE bytes.length (decodeBE 0 bytes) = bytes := by
  induction bytes using List.reverseRecOn with
  | nil => rfl
  | append_singleton init last inductionHypothesis =>
      have lastFits := last.toNat_lt
      have decoded : decodeBE 0 (init ++ [last]) = decodeBE 0 init * 256 + last.toNat := by
        simp [decodeBE, List.foldl_append]
      -- the last byte is the low byte of the decoded number, the rest its high part
      have high : (decodeBE 0 init * 256 + last.toNat) / 256 = decodeBE 0 init := by omega
      have low : UInt8.ofNat ((decodeBE 0 init * 256 + last.toNat) % 256) = last := by
        rw [show (decodeBE 0 init * 256 + last.toNat) % 256 = last.toNat by omega]
        exact UInt8.ofNat_toNat
      rw [List.length_append, List.length_singleton, putWordBE, decoded, high, low,
        inductionHypothesis]

/-- The leading byte of a `width + 1`-byte encoding is the part of the number above the low
`width` bytes. -/
theorem putWordBE_succ_eq_cons : ∀ (width value : Nat),
    putWordBE (width + 1) value = UInt8.ofNat (value / 256 ^ width) :: putWordBE width value
  | 0, value => by
      have lowByte : UInt8.ofNat (value % 256) = UInt8.ofNat value :=
        UInt8.toNat_inj.mp (by simp [UInt8.toNat_ofNat'])
      rw [putWordBE, putWordBE, Nat.pow_zero, Nat.div_one, lowByte]
      rfl
  | width + 1, value => by
      rw [putWordBE, putWordBE_succ_eq_cons width (value / 256), Nat.div_div_eq_div_mul,
        ← Nat.pow_succ']
      rfl

/-! ## Formats -/

/-- A format for `α`: what `put` writes and `get` reads back. The round trip holds for the values
the format can write (`Admissible`); and every successful read is of an admissible value whose
encoding is exactly the bytes the read consumed, so that each value has one encoding. Both laws
are stated on a prefix of the input, with the rest left unread. -/
structure Format (α : Type) where
  Admissible : α → Prop
  put : α → List UInt8
  get : Get α
  get_put : ∀ value rest, Admissible value → get (put value ++ rest) = some (value, rest)
  put_get : ∀ input value rest, get input = some (value, rest) →
    Admissible value ∧ input = put value ++ rest

namespace Format

/-- Reading a field: after the field's bytes, the rest of the record is read from what follows. -/
theorem bind_get_put (format : Format α) {value : α} (admissible : format.Admissible value)
    (continuation : α → Get β) (rest : List UInt8) :
    (format.get >>= continuation) (format.put value ++ rest) = continuation value rest :=
  bind_run_of_some (format.get_put value rest admissible)

/-- Peeling a field off a successful read: the input starts with the field's encoding, and the
rest of the record was read from what follows it. -/
theorem bind_get_eq_some (format : Format α) {continuation : α → Get β} {input rest : List UInt8}
    {result : β} (read : (format.get >>= continuation) input = some (result, rest)) :
    ∃ value middle, format.Admissible value ∧ input = format.put value ++ middle ∧
      continuation value middle = some (result, rest) := by
  obtain ⟨value, middle, fieldRead, continued⟩ := bind_run_eq_some read
  obtain ⟨admissible, encoded⟩ := format.put_get input value middle fieldRead
  exact ⟨value, middle, admissible, encoded, continued⟩

end Format

/-- Mapping over a parser that succeeds maps its value and keeps the rest. -/
theorem map_run_of_some {reader : Get α} {convert : α → β} {input rest : List UInt8} {value : α}
    (read : reader input = some (value, rest)) :
    (convert <$> reader) input = some (convert value, rest) := by
  show (reader >>= fun value => pure (convert value)) input = _
  rw [bind_run_of_some read, pure_run]

theorem map_run_eq_some {reader : Get α} {convert : α → β} {input rest : List UInt8} {result : β}
    (read : (convert <$> reader) input = some (result, rest)) :
    ∃ value, reader input = some (value, rest) ∧ convert value = result := by
  change (reader >>= fun value => pure (convert value)) input = _ at read
  obtain ⟨value, middle, fieldRead, readDone⟩ := bind_run_eq_some read
  obtain ⟨converted, rfl⟩ := pure_run_eq_some readDone
  exact ⟨value, fieldRead, converted⟩

/-- A single byte. -/
def word8 : Format UInt8 where
  Admissible _ := True
  put := putWord8
  get := getWord8
  get_put byte rest _ := getWord8_putWord8 byte rest
  put_get input byte rest read := by
    cases input with
    | nil => cases read
    | cons first tail =>
        obtain ⟨rfl, rfl⟩ := Prod.mk.inj (Option.some.inj read)
        exact ⟨trivial, rfl⟩

/-- A number in `width` big-endian bytes: the values below `256 ^ width` are those it can write. -/
def wordBE (width : Nat) : Format Nat where
  Admissible value := value < 256 ^ width
  put := putWordBE width
  get := getWordBE width
  get_put value rest fits := by rw [getWordBE_putWordBE, Nat.mod_eq_of_lt fits]
  put_get input value rest read := by
    unfold getWordBE at read
    split at read
    · next long =>
        rw [Option.some.injEq, Prod.mk.injEq] at read
        obtain ⟨decoded, dropped⟩ := read
        have taken : (input.take width).length = width := List.length_take_of_le long
        constructor
        · have bounds := (decodeBE_bounds (input.take width) 0).2
          rw [taken, Nat.zero_add, Nat.one_mul] at bounds
          rwa [← decoded]
        · have written := putWordBE_decodeBE (input.take width)
          rw [taken, decoded] at written
          rw [written, ← dropped, List.take_append_drop]
    · cases read

/-! ## Pairs, sequences and optional values -/

namespace Format

/-- A pair, the first component written first. -/
def prod (first : Format α) (second : Format β) : Format (α × β) where
  Admissible pair := first.Admissible pair.1 ∧ second.Admissible pair.2
  put pair := first.put pair.1 ++ second.put pair.2
  get := do
    let a ← first.get
    let b ← second.get
    pure (a, b)
  get_put pair rest admissible := by
    rw [List.append_assoc, first.bind_get_put admissible.1, second.bind_get_put admissible.2]
    rfl
  put_get input pair rest read := by
    obtain ⟨a, middle, firstAdmissible, atFirst, readSecond⟩ := first.bind_get_eq_some read
    obtain ⟨b, after, secondAdmissible, atSecond, readDone⟩ := second.bind_get_eq_some readSecond
    obtain ⟨rfl, rfl⟩ := pure_run_eq_some readDone
    exact ⟨⟨firstAdmissible, secondAdmissible⟩, by rw [atFirst, atSecond, List.append_assoc]⟩

end Format

/-- `count` values read one after another (`replicateM`). -/
def replicateGet (reader : Get α) : Nat → Get (List α)
  | 0 => pure []
  | count + 1 => do
      let value ← reader
      let values ← replicateGet reader count
      pure (value :: values)

/-- A value that `reader` reads back from what `put` writes of it, whatever follows: the round
trip of one value, for readers and writers that are not a `Format`. -/
def ReadsBack (put : α → List UInt8) (reader : Get α) (value : α) : Prop :=
  ∀ rest, reader (put value ++ rest) = some (value, rest)

theorem Format.readsBack (format : Format α) {value : α} (admissible : format.Admissible value) :
    ReadsBack format.put format.get value :=
  fun rest => format.get_put value rest admissible

/-- Values written one after another, each of which is read back, are read back by reading as
many. -/
theorem replicateGet_of_readsBack (reader : Get α) (put : α → List UInt8) :
    ∀ (values : List α) (rest : List UInt8), (∀ value ∈ values, ReadsBack put reader value) →
      replicateGet reader values.length (values.flatMap put ++ rest) = some (values, rest)
  | [], rest, _ => rfl
  | value :: values, rest, reads => by
      have others := replicateGet_of_readsBack reader put values rest
        fun other listed => reads other (List.mem_cons_of_mem _ listed)
      rw [List.length_cons, replicateGet, List.flatMap_cons, List.append_assoc,
        bind_run_of_some (reads value List.mem_cons_self _), bind_run_of_some others]
      rfl

/-- Values written one after another are read back by reading as many. -/
theorem replicateGet_flatMap (format : Format α) (values : List α) (rest : List UInt8)
    (admissible : ∀ value ∈ values, format.Admissible value) :
    replicateGet format.get values.length (values.flatMap format.put ++ rest) =
      some (values, rest) :=
  replicateGet_of_readsBack format.get format.put values rest
    fun value listed => format.readsBack (admissible value listed)

/-- What reading `count` values accepts is `count` admissible values, written one after another. -/
theorem replicateGet_eq_some (format : Format α) : ∀ (count : Nat) (input : List UInt8)
    (values : List α) (rest : List UInt8),
    replicateGet format.get count input = some (values, rest) →
      values.length = count ∧ (∀ value ∈ values, format.Admissible value) ∧
        input = values.flatMap format.put ++ rest
  | 0, input, values, rest, read => by
      obtain ⟨rfl, rfl⟩ := pure_run_eq_some read
      exact ⟨rfl, fun _ listed => absurd listed List.not_mem_nil, rfl⟩
  | count + 1, input, values, rest, read => by
      rw [replicateGet] at read
      obtain ⟨value, middle, admissible, atValue, readOthers⟩ := format.bind_get_eq_some read
      obtain ⟨others, after, othersRead, readDone⟩ := bind_run_eq_some readOthers
      obtain ⟨rfl, rfl⟩ := pure_run_eq_some readDone
      obtain ⟨length, othersAdmissible, atOthers⟩ :=
        replicateGet_eq_some format count middle others after othersRead
      refine ⟨by rw [List.length_cons, length], fun listed member => ?_, ?_⟩
      · rcases List.mem_cons.mp member with same | later
        · exact same ▸ admissible
        · exact othersAdmissible listed later
      · rw [atValue, atOthers, List.flatMap_cons, List.append_assoc]

/-- Values that each take a byte or more take at least as many bytes as there are values. -/
theorem length_le_length_flatMap (put : α → List UInt8) :
    ∀ values : List α, (∀ value ∈ values, put value ≠ []) →
      values.length ≤ (values.flatMap put).length
  | [], _ => Nat.le_refl 0
  | value :: values, nonempty => by
      have first : 1 ≤ (put value).length :=
        List.length_pos_iff.mpr (nonempty value List.mem_cons_self)
      have others := length_le_length_flatMap put values
        fun other listed => nonempty other (List.mem_cons_of_mem _ listed)
      rw [List.flatMap_cons, List.length_append, List.length_cons]
      omega

/-- `mapM_ put` of an optional value: its bytes when present, nothing when absent. -/
def putOption (put : α → List UInt8) : Option α → List UInt8
  | none => []
  | some value => put value

/-- An optional value whose presence a flag read earlier tells: `Present <$> get` when it is set,
`return Absent` when not. -/
def getOptionIf (reader : Get α) (present : Bool) : Get (Option α) :=
  if present then some <$> reader else pure none

/-- An optional value is read back under its own flag, when the value inside is read back. -/
theorem getOptionIf_of_readsBack {put : α → List UInt8} {reader : Get α} :
    ∀ value : Option α, (∀ inner, value = some inner → ReadsBack put reader inner) →
      ReadsBack (putOption put) (getOptionIf reader value.isSome) value
  | none, _, _ => rfl
  | some value, reads, rest => map_run_of_some (reads value rfl rest)

theorem getOptionIf_putOption (format : Format α) (value : Option α) (rest : List UInt8)
    (admissible : ∀ inner, value = some inner → format.Admissible inner) :
    getOptionIf format.get value.isSome (putOption format.put value ++ rest) =
      some (value, rest) :=
  getOptionIf_of_readsBack value (fun inner same => format.readsBack (admissible inner same)) rest

theorem getOptionIf_eq_some (format : Format α) {present : Bool} {input rest : List UInt8}
    {value : Option α} (read : getOptionIf format.get present input = some (value, rest)) :
    value.isSome = present ∧ (∀ inner, value = some inner → format.Admissible inner) ∧
      input = putOption format.put value ++ rest := by
  cases present with
  | false =>
      obtain ⟨rfl, rfl⟩ := pure_run_eq_some read
      exact ⟨rfl, (fun _ absent => by cases absent), rfl⟩
  | true =>
      obtain ⟨inner, innerRead, rfl⟩ := map_run_eq_some read
      obtain ⟨admissible, encoded⟩ := format.put_get input inner rest innerRead
      exact ⟨rfl, fun other same => Option.some.inj same ▸ admissible, encoded⟩

/-- `putListOf`: the number of values as a `Word64`, then the values. -/
def putListOf (put : α → List UInt8) (values : List α) : List UInt8 :=
  putWord64be values.length ++ values.flatMap put

/-- `getListOf`: a `Word64` count, then as many values. -/
def getListOf (reader : Get α) : Get (List α) := do
  let count ← getWord64be
  replicateGet reader count

/-- A list whose length fits in its `Word64` count, of values that are each read back. -/
theorem getListOf_putListOf {put : α → List UInt8} {reader : Get α} {values : List α}
    (fits : values.length < 2 ^ 64) (reads : ∀ value ∈ values, ReadsBack put reader value) :
    ReadsBack (putListOf put) (getListOf reader) values := by
  intro rest
  rw [putListOf, getListOf, List.append_assoc, bind_run_of_some (getWord64be_putWord64be fits _)]
  exact replicateGet_of_readsBack reader put values rest reads

/-! ## Shortest encodings -/

/-- The number of bytes of the shortest big-endian encoding of `value`: none for `0`. -/
def byteLength (value : Nat) : Nat := (Nat.digits 256 value).length

@[simp] theorem byteLength_zero : byteLength 0 = 0 := by simp [byteLength]

theorem byteLength_of_pos {value : Nat} (positive : 0 < value) :
    byteLength value = byteLength (value / 256) + 1 := by
  rw [byteLength, byteLength, Nat.digits_def' (by decide) positive, List.length_cons]

theorem lt_pow_byteLength (value : Nat) : value < 256 ^ byteLength value :=
  Nat.lt_base_pow_length_digits (by decide)

/-- A number between `256 ^ width` and `256 ^ (width + 1)` takes `width + 1` bytes. -/
theorem byteLength_eq_of_bounds {value width : Nat} (lower : 256 ^ width ≤ value)
    (upper : value < 256 ^ (width + 1)) : byteLength value = width + 1 := by
  have positive : value ≠ 0 := Nat.pos_iff_ne_zero.mp (Nat.lt_of_lt_of_le (Nat.pow_pos (by decide)) lower)
  rw [byteLength, Nat.length_digits 256 value (by decide) positive,
    Nat.log_eq_of_pow_le_of_lt_pow lower upper]

/-- A number of `width + 1` bytes lies between `256 ^ width` and `256 ^ (width + 1)`. -/
theorem bounds_of_byteLength_eq {value width : Nat} (length : byteLength value = width + 1) :
    256 ^ width ≤ value ∧ value < 256 ^ (width + 1) := by
  have positive : value ≠ 0 := by
    rintro rfl
    simp at length
  have lower := Nat.base_pow_length_digits_le 256 value (by decide) positive
  rw [← byteLength, length, Nat.pow_succ, Nat.mul_comm] at lower
  exact ⟨Nat.le_of_mul_le_mul_left lower (by decide), length ▸ lt_pow_byteLength value⟩

/-- A number of `width + 1` bytes whose set bits all lie below `bits` has `8 * width < bits`. -/
theorem eight_mul_lt_of_testBit {value width bits : Nat} (length : byteLength value = width + 1)
    (below : ∀ index, value.testBit index = true → index < bits) : 8 * width < bits := by
  have fits : value < 2 ^ bits := by
    apply Nat.lt_pow_two_of_testBit
    intro index large
    cases set : value.testBit index with
    | false => rfl
    | true => exact absurd (below index set) (Nat.not_lt.mpr large)
  have lower := (bounds_of_byteLength_eq length).1
  rw [show (256 : Nat) = 2 ^ 8 by decide, ← Nat.pow_mul] at lower
  exact (Nat.pow_lt_pow_iff_right (by decide : 1 < 2)).mp (Nat.lt_of_le_of_lt lower fits)

/-- The shortest encoding does not start with a zero byte. -/
theorem head_putWordBE_ne_zero {value width : Nat} (length : byteLength value = width + 1) :
    UInt8.ofNat (value / 256 ^ width) ≠ 0 := by
  obtain ⟨lower, upper⟩ := bounds_of_byteLength_eq length
  have leading : 0 < value / 256 ^ width ∧ value / 256 ^ width < 256 := by
    constructor
    · exact Nat.div_pos lower (Nat.pow_pos (by decide))
    · rw [Nat.div_lt_iff_lt_mul (Nat.pow_pos (by decide)), ← Nat.pow_succ']
      exact upper
  intro zero
  have toNat := congrArg UInt8.toNat zero
  rw [UInt8.toNat_ofNat', Nat.mod_eq_of_lt leading.2] at toNat
  exact absurd toNat (Nat.pos_iff_ne_zero.mp leading.1)

end Serialize
