import Concordium.Library.Serialize
import Mathlib.Data.List.TakeWhile

/-!
Contract: a set of indices up to a bound written as bit masks, one byte for each run of eight
indices from a start, bit `i` of the `k`-th byte standing for index `start + 8 * k + i`; and the
reader that reads the same number of bytes back.

Owns:
- `byteOfBits` and `bitsOfByte`, a byte from the positions of its set bits and back, with
  `bitsOfByte_byteOfBits` for ascending positions below eight;
- `putChunks` and `getChunks`, the writer and the reader of the bytes from a start to a bound,
  with the round trip `getChunks_putChunks` for ascending indices between the start and the
  bound.

Does not own: what the indices stand for.
-/

set_option autoImplicit false

namespace BitChunks

open Serialize

/-- The byte whose bits at the given positions are set (`foldl setBit 0`). -/
def byteOfBits (positions : List Nat) : UInt8 :=
  UInt8.ofNat (positions.foldl (fun byte position => byte ||| 2 ^ position) 0)

/-- The positions of the set bits of a byte, ascending (`filter (testBit b) [0 .. 7]`). -/
def bitsOfByte (byte : UInt8) : List Nat :=
  (List.range 8).filter fun position => byte.toNat.testBit position

/-- The bytes for the indices from `start` to `bound`, eight indices a byte. -/
def putChunks (bound start : Nat) (indices : List Nat) : List UInt8 :=
  if start ≤ bound then
    let (current, later) := indices.span (· < start + 8)
    putWord8 (byteOfBits (current.map (· - start))) ++ putChunks bound (start + 8) later
  else []
termination_by bound + 1 - start

/-- Read the bytes for the indices from `start` to `bound`. -/
def getChunks (bound start : Nat) : Get (List Nat) :=
  if start ≤ bound then do
    let byte ← getWord8
    let here := (bitsOfByte byte).map (start + ·)
    (here ++ ·) <$> getChunks bound (start + 8)
  else pure []
termination_by bound + 1 - start

theorem testBit_foldl_or (positions : List Nat) (j : Nat) : ∀ accumulated : Nat,
    (positions.foldl (fun byte position => byte ||| 2 ^ position) accumulated).testBit j =
      (accumulated.testBit j || decide (j ∈ positions)) := by
  induction positions with
  | nil => simp
  | cons position later inductionHypothesis =>
      intro accumulated
      rw [List.foldl_cons, inductionHypothesis, Nat.testBit_or, Nat.testBit_two_pow]
      by_cases same : j = position
      · subst same
        simp
      · simp [same, Ne.symm same]

/-- The bits of the byte are exactly the positions, when they are all below eight. -/
theorem testBit_byteOfBits {positions : List Nat} (small : ∀ position ∈ positions, position < 8)
    (j : Nat) : (byteOfBits positions).toNat.testBit j = decide (j ∈ positions) := by
  have fits : positions.foldl (fun byte position => byte ||| 2 ^ position) 0 < 2 ^ 8 := by
    apply Nat.lt_pow_two_of_testBit
    intro i large
    rw [testBit_foldl_or, Nat.zero_testBit, Bool.false_or, decide_eq_false_iff_not]
    intro listed
    have := small i listed
    omega
  rw [byteOfBits, UInt8.toNat_ofNat', Nat.mod_eq_of_lt fits, testBit_foldl_or, Nat.zero_testBit,
    Bool.false_or]

theorem bitsOfByte_byteOfBits {positions : List Nat} (ascending : positions.Pairwise (· < ·))
    (small : ∀ position ∈ positions, position < 8) :
    bitsOfByte (byteOfBits positions) = positions := by
  have filtered : (bitsOfByte (byteOfBits positions)).Pairwise (· < ·) :=
    List.pairwise_lt_range.filter _
  -- both lists are ascending and have the same members
  have same : ∀ j, j ∈ bitsOfByte (byteOfBits positions) ↔ j ∈ positions := by
    intro j
    rw [bitsOfByte, List.mem_filter, testBit_byteOfBits small, decide_eq_true_eq, List.mem_range]
    exact ⟨fun found => found.2, fun listed => ⟨small j listed, listed⟩⟩
  exact ((List.perm_ext_iff_of_nodup filtered.nodup ascending.nodup).mpr same).eq_of_pairwise'
    filtered ascending

/-- Past the ascending prefix below a bound, every index is at least the bound. -/
theorem le_of_mem_dropWhile {bound : Nat} :
    ∀ {indices : List Nat}, indices.Pairwise (· < ·) →
      ∀ index ∈ indices.dropWhile (· < bound), bound ≤ index
  | [], _, _, listed => absurd listed List.not_mem_nil
  | first :: later, ascending, index, listed => by
      by_cases below : first < bound
      · rw [List.dropWhile_cons_of_pos (by simpa using below)] at listed
        exact le_of_mem_dropWhile (List.pairwise_cons.mp ascending).2 index listed
      · rw [List.dropWhile_cons_of_neg (by simpa using below)] at listed
        rcases List.mem_cons.mp listed with rfl | later
        · exact Nat.le_of_not_lt below
        · exact le_trans (Nat.le_of_not_lt below)
            (le_of_lt ((List.pairwise_cons.mp ascending).1 index later))

/-- The indices of one byte, taken off the front, are read back from it. -/
theorem bitsOfByte_current {start : Nat} {indices : List Nat}
    (ascending : indices.Pairwise (· < ·)) (above : ∀ index ∈ indices, start ≤ index) :
    (bitsOfByte (byteOfBits ((indices.takeWhile (· < start + 8)).map (· - start)))).map
        (start + ·) =
      indices.takeWhile (· < start + 8) := by
  have prefixAscending :=
    ascending.sublist (List.takeWhile_sublist fun index => decide (index < start + 8))
  have inPrefix : ∀ index ∈ indices.takeWhile (· < start + 8), start ≤ index ∧ index < start + 8 :=
    fun index listed => ⟨above index ((List.takeWhile_sublist _).subset listed),
      by simpa using List.mem_takeWhile_imp listed⟩
  rw [bitsOfByte_byteOfBits, List.map_map]
  · conv_rhs => rw [← List.map_id (indices.takeWhile (· < start + 8))]
    apply List.map_congr_left
    intro index listed
    simp only [Function.comp_apply, id_eq]
    have := (inPrefix index listed).1
    omega
  · apply List.pairwise_map.mpr
    refine prefixAscending.imp_of_mem fun {first second} firstListed secondListed below => ?_
    have := (inPrefix first firstListed).1
    omega
  · intro position listed
    obtain ⟨index, indexListed, rfl⟩ := List.mem_map.mp listed
    have := inPrefix index indexListed
    omega

/-- The round trip: ascending indices from the start to the bound are read back, and the rest of
the input is left. -/
theorem getChunks_putChunks (bound start : Nat) (indices : List Nat) (rest : List UInt8)
    (ascending : indices.Pairwise (· < ·))
    (inRange : ∀ index ∈ indices, start ≤ index ∧ index ≤ bound) :
    getChunks bound start (putChunks bound start indices ++ rest) = some (indices, rest) := by
  fun_induction putChunks bound start indices with
  | case1 start indices within current later split inductionHypothesis =>
      rw [List.span_eq_takeWhile_dropWhile, Prod.mk.injEq] at split
      obtain ⟨rfl, rfl⟩ := split
      -- the indices past the first byte start a byte later
      have laterRead := inductionHypothesis (ascending.sublist (List.dropWhile_sublist _))
        fun index listed => ⟨le_of_mem_dropWhile ascending index listed,
          (inRange index ((List.dropWhile_sublist _).subset listed)).2⟩
      rw [getChunks, if_pos within, List.append_assoc,
        bind_run_of_some (getWord8_putWord8 _ _)]
      rw [map_run_of_some laterRead, bitsOfByte_current ascending fun index listed =>
        (inRange index listed).1, List.takeWhile_append_dropWhile]
  | case2 start indices past =>
      -- past the bound there is no index left, and no byte
      have empty : indices = [] := List.eq_nil_iff_forall_not_mem.mpr fun index listed => by
        have := inRange index listed
        omega
      rw [empty, getChunks, if_neg past]
      rfl

end BitChunks
