import Mathlib.Data.ZMod.Basic

/-!
Contract: unsigned machine words of a fixed width, held as the numbers below `2 ^ bits`, with
the wrapping arithmetic of the machine.

Owns:
- `Word.add`, `Word.sub`, `Word.mul` and `Word.sum`: the operations taken modulo `2 ^ bits`,
  `sum` being the fold of `add` over a list (`sum_cons`);
- that every result is a word (`add_lt`, `sub_lt`, `sum_lt`), and a wrapped sum at most the
  exact one (`add_le`);
- that an operation whose exact result is a word computes it (`add_of_lt`, `add_zero_of_lt`,
  `mul_of_lt`), and that additions compose (`add_add`);
- the ring view: in `ZMod (2 ^ bits)` the wrapping operations are the ring's (`cast_add`,
  `cast_sub`, `cast_sum`), and a word is determined by its class (`eq_mod_of_cast_eq`).

Does not own: signed words, or any type of words of a program.
-/

set_option autoImplicit false

namespace Word

variable (bits : Nat)

/-- `a + b` on words of `bits` bits. -/
def add (a b : Nat) : Nat :=
  (a + b) % 2 ^ bits

/-- `a - b` on words of `bits` bits: below zero it wraps to the top. -/
def sub (a b : Nat) : Nat :=
  (a + (2 ^ bits - b % 2 ^ bits)) % 2 ^ bits

/-- `a * b` on words of `bits` bits. -/
def mul (a b : Nat) : Nat :=
  (a * b) % 2 ^ bits

/-- The sum of a list of words: reducing once at the end is reducing at every addition. -/
def sum (l : List Nat) : Nat :=
  l.sum % 2 ^ bits

variable {bits}

theorem add_lt (a b : Nat) : add bits a b < 2 ^ bits :=
  Nat.mod_lt _ (Nat.two_pow_pos bits)

theorem sub_lt (a b : Nat) : sub bits a b < 2 ^ bits :=
  Nat.mod_lt _ (Nat.two_pow_pos bits)

theorem sum_lt (l : List Nat) : sum bits l < 2 ^ bits :=
  Nat.mod_lt _ (Nat.two_pow_pos bits)

theorem add_of_lt {a b : Nat} (fits : a + b < 2 ^ bits) : add bits a b = a + b :=
  Nat.mod_eq_of_lt fits

theorem add_zero_of_lt {a : Nat} (isWord : a < 2 ^ bits) : add bits a 0 = a :=
  add_of_lt isWord

theorem add_le (a b : Nat) : add bits a b ≤ a + b :=
  Nat.mod_le _ _

theorem add_add (a b c : Nat) : add bits (add bits a b) c = add bits a (b + c) := by
  rw [add, add, add, Nat.mod_add_mod, Nat.add_assoc]

@[simp] theorem sum_nil : sum bits [] = 0 :=
  Nat.zero_mod _

theorem sum_cons (a : Nat) (l : List Nat) : sum bits (a :: l) = add bits a (sum bits l) := by
  rw [sum, add, sum, List.sum_cons, Nat.add_mod_mod]

/-! ### The ring of words -/

@[simp] theorem cast_add (a b : Nat) : ((add bits a b : Nat) : ZMod (2 ^ bits)) = a + b := by
  rw [add, ZMod.natCast_mod, Nat.cast_add]

@[simp] theorem cast_sub (a b : Nat) : ((sub bits a b : Nat) : ZMod (2 ^ bits)) = a - b := by
  have reduced : b % 2 ^ bits ≤ 2 ^ bits := le_of_lt (Nat.mod_lt _ (Nat.two_pow_pos bits))
  rw [sub, ZMod.natCast_mod, Nat.cast_add, Nat.cast_sub reduced, ZMod.natCast_self,
    ZMod.natCast_mod, zero_sub, ← sub_eq_add_neg]

@[simp] theorem cast_mul (a b : Nat) : ((mul bits a b : Nat) : ZMod (2 ^ bits)) = a * b := by
  rw [mul, ZMod.natCast_mod, Nat.cast_mul]

@[simp] theorem cast_sum (l : List Nat) : ((sum bits l : Nat) : ZMod (2 ^ bits)) = (l.sum : Nat) := by
  rw [sum, ZMod.natCast_mod]

/-- A word is the reduction of every number of its class. -/
theorem eq_mod_of_cast_eq {word value : Nat} (isWord : word < 2 ^ bits)
    (same : (word : ZMod (2 ^ bits)) = value) : word = value % 2 ^ bits := by
  rw [ZMod.natCast_eq_natCast_iff'] at same
  rw [← same, Nat.mod_eq_of_lt isWord]

end Word
