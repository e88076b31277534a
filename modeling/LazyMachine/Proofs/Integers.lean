import LazyMachine.Proofs.Sequences
import Mathlib.Data.Int.Bitwise
import Mathlib.Data.Int.ModEq
import Mathlib.Tactic.NormNum
import Mathlib.Tactic.Positivity

/-!
# Arithmetic of integers

Two integers are widened to the wider of their two classes, and an operator gives what it gives on
whole numbers, in two's complement of that width.

* `Arith.onInt` is arithmetic on whole numbers, and `TwosComplement.arith_exact` says that machine
  integers of any width compute it up to two's complement; `Bitwise.Yields` and `Bitwise.yields` are
  the like for the operations on bits.
* `ExactOperators` says what the arithmetic and bitwise operators do with two integers, and
  `integers_exact` that they do so at every level.

The width enters in one place only, `Integer.reduced`: what a class computes is `Int.bmod` of the
whole number, so nothing has to be said about which operands overflow.
-/

namespace LazyMachine

open Numeric

/-! ### Integers of two widths -/

/-- An integer of one of the two classes. -/
inductive Integer where
  | int (i : Int32)
  | long (i : Int64)

namespace Integer

/-- The integer as a value. -/
def toValue : Integer → Value
  | .int i => .int i
  | .long i => .long i

/-- The integer as a number of the tower. -/
def toNumeric : Integer → Numeric
  | .int i => .int i
  | .long i => .long i

/-- The whole number. -/
def toInt : Integer → Int
  | .int i => i.toInt
  | .long i => i.toInt

/-- The width in which two integers meet. -/
def joint : Integer → Integer → Nat
  | .int _, .int _ => 32
  | _, _ => 64

/-- A whole number in two's complement, in the class in which two integers meet. -/
def reduced : Integer → Integer → Int → Integer
  | .int _, .int _, i => .int (.ofInt i)
  | _, _, i => .long (.ofInt i)

variable (x y : Integer)

/-- A whole number is reduced to its two's complement of the joint width. -/
theorem toInt_reduced (i : Int) : (x.reduced y i).toInt = i.bmod (2 ^ x.joint y) := by
  cases x <;> cases y
  · exact Int32.toInt_ofInt
  all_goals exact Int64.toInt_ofInt

/-- Two's complement is taken once. -/
theorem reduced_bmod (i : Int) : x.reduced y (i.bmod (2 ^ x.joint y)) = x.reduced y i := by
  have hint : Int32.ofInt (i.bmod (2 ^ 32)) = .ofInt i := by
    rw [← Int32.toInt_inj, Int32.toInt_ofInt, Int32.toInt_ofInt]
    exact Int.bmod_bmod
  have hlong : Int64.ofInt (i.bmod (2 ^ 64)) = .ofInt i := by
    rw [← Int64.toInt_inj, Int64.toInt_ofInt, Int64.toInt_ofInt]
    exact Int.bmod_bmod
  cases x <;> cases y
  · exact congrArg Integer.int hint
  all_goals exact congrArg Integer.long hlong

/-- An integer is not lazy. -/
@[simp]
theorem isLazy_toValue : x.toValue.isLazy = false := by
  cases x <;> rfl

theorem numeric?_toValue : x.toValue.numeric? = some x.toNumeric := by
  cases x <;> rfl

/-- An integer fits the width in which it meets another. -/
theorem natAbs_toInt_le : y.toInt.natAbs ≤ 2 ^ (x.joint y - 1) := by
  have hint (i : Int32) : i.toInt.natAbs ≤ 2 ^ 31 := by
    have hle := i.le_toInt
    have hlt := i.toInt_lt
    omega
  have hlong (i : Int64) : i.toInt.natAbs ≤ 2 ^ 63 := by
    have hle := i.le_toInt
    have hlt := i.toInt_lt
    omega
  rcases x with i | i <;> rcases y with j | j
  · exact hint j
  · exact hlong j
  · exact (hint j).trans (by norm_num [joint])
  · exact hlong j

/-- What is below an operand in magnitude is not changed by two's complement. -/
theorem toInt_reduced_of_lt {i : Int} (hi : i.natAbs < y.toInt.natAbs) :
    (x.reduced y i).toInt = i := by
  have hbound := hi.trans_le (natAbs_toInt_le x y)
  rw [toInt_reduced]
  have hwidth : 2 ^ x.joint y = 2 * 2 ^ (x.joint y - 1) := by
    rw [← Nat.pow_succ']
    congr 1
    cases x <;> cases y <;> rfl
  -- half of the range is on either side of zero
  rw [hwidth]
  generalize 2 ^ (x.joint y - 1) = n at hbound
  exact Int.bmod_eq_of_le (by omega) (by omega)

end Integer

/-! ### Arithmetic of whole numbers -/

/-- The result of an arithmetic operation on whole numbers. The modulus has the sign of the divisor,
and the exponent of a power is cut off. -/
def Numeric.Arith.onInt (op : Arith) (x y : Int) : Int :=
  match op with
  | .add => x + y
  | .sub => x - y
  | .mul => x * y
  | .div => x.tdiv y
  | .rem => x.tmod y
  | .mod => x.fmod y
  | .pow => x ^ min y.toNat largestExponent

/-- The modulus is the remainder, plus the divisor if the signs differ. -/
theorem fmod_eq_floored (x y : Int) :
    x.fmod y =
      if (x < 0 ∧ 0 < y ∨ 0 < x ∧ y < 0) ∧ x.tmod y ≠ 0 then x.tmod y + y else x.tmod y := by
  have hdvd : y ∣ x ↔ x % y = 0 := Int.dvd_iff_emod_eq_zero
  have hnonneg := Int.emod_nonneg x (b := y)
  have hlt := Int.emod_lt x (b := y)
  rw [Int.fmod_eq_emod, Int.tmod_eq_emod]
  simp only [hdvd]
  by_cases hy : y = 0
  · simp [hy]
  by_cases hx : x = 0
  · simp [hx]
  specialize hnonneg hy
  specialize hlt hy
  -- both are the least residue up to the divisor
  generalize x % y = r at *
  split_ifs <;> omega

/-- A modulus is zero or has the sign of the divisor, and it is smaller than that. -/
theorem fmod_bounds (x : Int) {y : Int} (hy : y ≠ 0) :
    (x.fmod y = 0 ∨ (x.fmod y).sign = y.sign) ∧ (x.fmod y).natAbs < y.natAbs := by
  have hnonneg := Int.emod_nonneg x hy
  have hlt := Int.emod_lt x hy
  rw [Int.fmod_eq_emod]
  simp only [Int.dvd_iff_emod_eq_zero]
  generalize x % y = r at *
  rcases lt_or_gt_of_ne hy with hneg | hpos
  · rw [Int.sign_eq_neg_one_of_neg hneg, Int.sign_eq_neg_one_iff_neg]
    split_ifs <;> omega
  · rw [Int.sign_eq_one_of_pos hpos, Int.sign_eq_one_iff_pos]
    split_ifs <;> omega

/-- A power is computed as one of whole numbers is, up to a modulus that multiplication respects. -/
theorem power_modEq {α : Type} [Mul α] {toInt : α → Int} {m : Int} {one : α}
    (hone : toInt one ≡ 1 [ZMOD m]) (hmul : ∀ a b, toInt (a * b) ≡ toInt a * toInt b [ZMOD m])
    (x : α) (n : Nat) : toInt (power one x n) ≡ toInt x ^ n [ZMOD m] := by
  -- the exponent is halved and the base squared, whatever base it has come to
  induction n using Nat.strong_induction_on generalizing x with
  | _ n ih =>
    rw [power]
    split
    · next hn =>
      subst hn
      simpa using hone
    · next hn =>
      have hroot := (ih (n / 2) (by omega) (x * x)).trans ((hmul x x).pow (n / 2))
      rw [← pow_two, ← pow_mul] at hroot
      split
      · next hodd =>
        have hsplit : 2 * (n / 2) + 1 = n := by omega
        refine (hmul _ _).trans ?_
        rw [← hsplit, pow_succ', hsplit]
        exact hroot.mul_left _
      · next heven =>
        have hsplit : 2 * (n / 2) = n := by omega
        rwa [hsplit] at hroot

/-- Whole numbers that are congruent have the same two's complement. -/
theorem bmod_eq_of_modEq {i j : Int} {n : Nat} (h : i ≡ j [ZMOD n]) : i.bmod n = j.bmod n := by
  rw [← Int.emod_bmod, h.eq, Int.emod_bmod]

/-- Two's complement respects multiplication. -/
theorem bmod_mul_modEq (i j : Int) (n : Nat) : (i * j).bmod n ≡ i * j [ZMOD n] :=
  Int.bmod_emod

/-! ### The two classes compute it -/

section TwosComplement

variable {α : Type} [Add α] [Sub α] [Mul α] [Div α] [Mod α]

/-- The operators of a type of machine integers are those of whole numbers, in two's complement of a
width. A remainder needs no reduction. -/
structure TwosComplement (toInt : α → Int) (width : Nat) : Prop where
  add : ∀ x y, toInt (x + y) = (toInt x + toInt y).bmod (2 ^ width)
  sub : ∀ x y, toInt (x - y) = (toInt x - toInt y).bmod (2 ^ width)
  mul : ∀ x y, toInt (x * y) = (toInt x * toInt y).bmod (2 ^ width)
  div : ∀ x y, toInt (x / y) = ((toInt x).tdiv (toInt y)).bmod (2 ^ width)
  mod : ∀ x y, toInt (x % y) = (toInt x).tmod (toInt y)
  reduced : ∀ x, (toInt x).bmod (2 ^ width) = toInt x

/-- Arithmetic of 32 bits is in two's complement. -/
theorem twosComplementInt : TwosComplement Int32.toInt 32 where
  add := Int32.toInt_add
  sub := Int32.toInt_sub
  mul := Int32.toInt_mul
  div := Int32.toInt_div
  mod := Int32.toInt_mod
  reduced := Int32.toInt_bmod_size

/-- So is that of 64 bits. -/
theorem twosComplementLong : TwosComplement Int64.toInt 64 where
  add := Int64.toInt_add
  sub := Int64.toInt_sub
  mul := Int64.toInt_mul
  div := Int64.toInt_div
  mod := Int64.toInt_mod
  reduced := Int64.toInt_bmod_size

namespace TwosComplement

variable {toInt : α → Int} {width : Nat} (h : TwosComplement toInt width)
include h

/-- Squaring and multiplying modulo the width all along is right modulo the width. -/
theorem power_exact {one : α} (hone : toInt one = 1) (x : α) (n : Nat) :
    toInt (power one x n) = (toInt x ^ n).bmod (2 ^ width) := by
  have hmul (a b : α) : toInt (a * b) ≡ toInt a * toInt b [ZMOD (2 ^ width : Nat)] := by
    rw [h.mul]
    exact bmod_mul_modEq _ _ _
  have hmod := power_modEq (m := (2 ^ width : Nat)) (by rw [hone]) hmul x n
  rw [← h.reduced, bmod_eq_of_modEq hmod]

/-- Adding the divisor gives the modulus, if the signs differ. -/
theorem floored_exact (x y : α) :
    ((toInt x).fmod (toInt y)).bmod (2 ^ width) =
      toInt (floored (x % y) y
        (decide (toInt x < 0 ∧ 0 < toInt y ∨ 0 < toInt x ∧ toInt y < 0))
        (decide (toInt (x % y) = 0))) := by
  rw [fmod_eq_floored, ← h.mod, floored]
  by_cases hsigns : (toInt x < 0 ∧ 0 < toInt y ∨ 0 < toInt x ∧ toInt y < 0) ∧ toInt (x % y) ≠ 0
  · rw [if_pos hsigns, if_pos (by simpa using hsigns), h.add]
  · rw [if_neg hsigns, if_neg (by simpa using hsigns), h.reduced]

/-- Arithmetic is that of whole numbers, in two's complement, if the look at the signs, the look at
the remainder and the power are right. -/
theorem arith_exact (op : Arith) (x y : α) {signsDiffer isZero : Bool} {pow : α}
    (hsigns : signsDiffer = decide (toInt x < 0 ∧ 0 < toInt y ∨ 0 < toInt x ∧ toInt y < 0))
    (hzero : isZero = decide (toInt (x % y) = 0)) :
    (op = .pow →
      toInt pow = (toInt x ^ min (toInt y).toNat largestExponent).bmod (2 ^ width)) →
    (op.onInt (toInt x) (toInt y)).bmod (2 ^ width) =
      toInt (match op with
        | .add => x + y
        | .sub => x - y
        | .mul => x * y
        | .div => x / y
        | .rem => x % y
        | .mod => floored (x % y) y signsDiffer isZero
        | .pow => pow) := by
  intro hpow
  cases op with
  | add => exact (h.add x y).symm
  | sub => exact (h.sub x y).symm
  | mul => exact (h.mul x y).symm
  | div => exact (h.div x y).symm
  | rem =>
    rw [Arith.onInt, ← h.mod]
    exact h.reduced (x % y)
  | mod =>
    rw [hsigns, hzero]
    exact h.floored_exact x y
  | pow => exact (hpow rfl).symm

end TwosComplement

end TwosComplement

/-- The look at the signs tells whether they are opposite. -/
theorem oppositeInt_eq (x y : Int32) : oppositeInt x y =
    decide (x.toInt < 0 ∧ 0 < y.toInt ∨ 0 < x.toInt ∧ y.toInt < 0) := by
  simp [oppositeInt, Int32.lt_iff_toInt_lt]

theorem oppositeLong_eq (x y : Int64) : oppositeLong x y =
    decide (x.toInt < 0 ∧ 0 < y.toInt ∨ 0 < x.toInt ∧ y.toInt < 0) := by
  simp [oppositeLong, Int64.lt_iff_toInt_lt]

/-- The look at a remainder tells whether it is zero. -/
theorem isZeroInt_eq (x : Int32) : (x == 0) = decide (x.toInt = 0) := by
  rw [Bool.eq_iff_iff, beq_iff_eq, decide_eq_true_iff, ← Int32.toInt_inj, Int32.toInt_zero]

theorem isZeroLong_eq (x : Int64) : (x == 0) = decide (x.toInt = 0) := by
  rw [Bool.eq_iff_iff, beq_iff_eq, decide_eq_true_iff, ← Int64.toInt_inj, Int64.toInt_zero]

/-- The 32-bit class computes arithmetic of whole numbers. The largest exponent is beyond every
32-bit integer, so no exponent is cut off. -/
theorem arithInt_exact (op : Arith) (x y : Int32) (hpow : op = .pow → 0 ≤ y.toInt) :
    arithInt op x y = .ofInt (op.onInt x.toInt y.toInt) := by
  symm
  rw [Int32.ofInt_eq_iff_bmod_eq_toInt]
  refine twosComplementInt.arith_exact op x y (oppositeInt_eq x y) (isZeroInt_eq _) fun hop => ?_
  have hnonneg : ¬ y < 0 := by
    rw [Int32.lt_iff_toInt_lt, Int32.toInt_zero]
    exact (hpow hop).not_gt
  have hle : y.toInt.toNat ≤ largestExponent := by
    have hlt := y.toInt_lt
    have hlargest : largestExponent = 4294967295 := by decide
    omega
  rw [powInt, if_neg hnonneg, min_eq_left hle]
  exact twosComplementInt.power_exact rfl x _

/-- The 64-bit class computes arithmetic of whole numbers. -/
theorem arithLong_exact (op : Arith) (x y : Int64) (hpow : op = .pow → 0 ≤ y.toInt) :
    arithLong op x y = .ofInt (op.onInt x.toInt y.toInt) := by
  symm
  rw [Int64.ofInt_eq_iff_bmod_eq_toInt]
  refine twosComplementLong.arith_exact op x y (oppositeLong_eq x y) (isZeroLong_eq _) fun hop => ?_
  have hnonneg : ¬ y < 0 := by
    rw [Int64.lt_iff_toInt_lt, Int64.toInt_zero]
    exact (hpow hop).not_gt
  rw [powLong, if_neg hnonneg]
  exact twosComplementLong.power_exact rfl x _

/-! ### Bits -/

section Bits

variable {width : Nat} (x y : BitVec width)

/-- The bits of two's complement; above its width the sign goes on. -/
theorem testBit_toInt (i : Nat) :
    x.toInt.testBit i = if i < width then x.getLsbD i else x.msb := by
  rw [BitVec.toInt_eq_msb_cond]
  split
  · next hmsb =>
    -- the bits of a negative number are those of its complement, turned over
    have hneg : (x.toNat : Int) - (2 ^ width : Nat) =
        Int.negSucc (2 ^ width - (x.toNat + 1)) := by
      have hlt := x.isLt
      rw [Int.negSucc_eq]
      omega
    rw [hneg, Int.testBit, Nat.testBit_two_pow_sub_succ x.isLt]
    by_cases hi : i < width <;> simp [hi, hmsb, BitVec.getLsbD]
  · next hmsb =>
    show x.toNat.testBit i = _
    split
    · rfl
    · next hi =>
      have hlt : x.toNat < 2 ^ i :=
        x.isLt.trans_le (Nat.pow_le_pow_right (by simp) (Nat.le_of_not_lt hi))
      rw [Nat.testBit_eq_false_of_lt hlt]
      simpa using hmsb

/-- A bit of the conjunction is the conjunction of the bits. -/
theorem testBit_and (i : Nat) :
    (x &&& y).toInt.testBit i = (x.toInt.testBit i && y.toInt.testBit i) := by
  simp only [testBit_toInt, BitVec.getLsbD_and, BitVec.msb_and]
  split <;> rfl

/-- A bit of the disjunction is the disjunction of the bits. -/
theorem testBit_or (i : Nat) :
    (x ||| y).toInt.testBit i = (x.toInt.testBit i || y.toInt.testBit i) := by
  simp only [testBit_toInt, BitVec.getLsbD_or, BitVec.msb_or]
  split <;> rfl

/-- A bit of the exclusive disjunction is that of the bits. -/
theorem testBit_xor (i : Nat) :
    (x ^^^ y).toInt.testBit i = (x.toInt.testBit i ^^ y.toInt.testBit i) := by
  simp only [testBit_toInt, BitVec.getLsbD_xor, BitVec.msb_xor]
  split <;> rfl

/-- The count of a shift is the least residue of the operand. -/
theorem shiftCount {k : BitVec width} (hk : k.toInt = width) (hwidth : 0 < width) :
    (y.smod k).toNat = (y.toInt % width).toNat := by
  have hcount : (y.smod k).toInt = y.toInt % width := by
    rw [BitVec.toInt_smod, hk, Int.fmod_eq_emod_of_nonneg _ (by simp)]
  have hnonneg : 0 ≤ y.toInt % width := Int.emod_nonneg _ (by omega)
  have hlt := (y.smod k).isLt
  rw [BitVec.toInt_eq_toNat_cond] at hcount
  split at hcount <;> omega

/-- A shift to the left multiplies by a power of two. -/
theorem toInt_shiftLeft (n : Nat) :
    (x <<< n).toInt = (x.toInt * 2 ^ n).bmod (2 ^ width) := by
  rw [BitVec.toInt_shiftLeft, Nat.shiftLeft_eq, BitVec.toInt_eq_toNat_bmod, Int.bmod_mul_bmod]
  push_cast
  rfl

/-- A shift to the right divides by a power of two and rounds down. -/
theorem toInt_sshiftRight (n : Nat) : (x.sshiftRight n).toInt = x.toInt.fdiv (2 ^ n) := by
  rw [BitVec.toInt_sshiftRight, Int.shiftRight_eq_div_pow, Int.fdiv_eq_ediv_of_nonneg]
  · push_cast
    rfl
  · positivity

end Bits

/-- What a bitwise operation on two whole numbers gives, in two's complement of a width: the bits of
the operands, whose signs go on, or a multiple or part of the first operand, where the count is the
least residue of the second. -/
def Numeric.Bitwise.Yields (op : Bitwise) (width : Nat) (x y r : Int) : Prop :=
  match op with
  | .and => ∀ i, r.testBit i = (x.testBit i && y.testBit i)
  | .or => ∀ i, r.testBit i = (x.testBit i || y.testBit i)
  | .xor => ∀ i, r.testBit i = (x.testBit i ^^ y.testBit i)
  | .shl => r = (x * 2 ^ (y % width).toNat).bmod (2 ^ width)
  | .shr => r = x.fdiv (2 ^ (y % width).toNat)

/-- The operations on bits, of any width, for a count that is taken modulo the width. -/
theorem Numeric.Bitwise.yields {width : Nat} (op : Bitwise) (x y : BitVec width) {k : BitVec width}
    (hk : k.toInt = width) (hwidth : 0 < width) :
    op.Yields width x.toInt y.toInt (match op with
      | .and => x &&& y
      | .or => x ||| y
      | .xor => x ^^^ y
      | .shl => x <<< (y.smod k)
      | .shr => x.sshiftRight (y.smod k).toNat).toInt := by
  have hcount := shiftCount y hk hwidth
  cases op with
  | and => exact testBit_and x y
  | or => exact testBit_or x y
  | xor => exact testBit_xor x y
  | shl =>
    dsimp only
    rw [BitVec.shiftLeft_eq', hcount]
    exact toInt_shiftLeft x _
  | shr =>
    dsimp only
    rw [hcount]
    exact toInt_sshiftRight x _

/-- The operations on 32 bits do what they do on bits of any width. -/
theorem bitwiseInt_yields (op : Bitwise) (x y : Int32) :
    op.Yields 32 x.toInt y.toInt (bitwiseInt op x y).toInt := by
  have hyields := op.yields x.toBitVec y.toBitVec (k := 32) rfl (by simp)
  cases op <;> exact hyields

theorem bitwiseLong_yields (op : Bitwise) (x y : Int64) :
    op.Yields 64 x.toInt y.toInt (bitwiseLong op x y).toInt := by
  have hyields := op.yields x.toBitVec y.toBitVec (k := 64) rfl (by simp)
  cases op <;> exact hyields

/-! ### Promotion -/

section Promotion

variable (x y : Integer)

/-- Promotion does not change whether the divisor is zero. -/
theorem rightIsZero_promote :
    (x.toNumeric.promote y.toNumeric).rightIsZero = decide (y.toInt = 0) := by
  rcases x with i | i <;> rcases y with j | j
  · exact isZeroInt_eq j
  · exact isZeroLong_eq j
  · rw [Integer.toInt, ← Int32.toInt_toInt64]
    exact isZeroLong_eq j.toInt64
  · exact isZeroLong_eq j

/-- In the class in which two integers meet, arithmetic is that of whole numbers. -/
theorem arith_promote {a : Arith} (hpow : a = .pow → 0 ≤ y.toInt) :
    Value.ofNumeric ((x.toNumeric.promote y.toNumeric).arith a) =
      (x.reduced y (a.onInt x.toInt y.toInt)).toValue := by
  rcases x with i | i <;> rcases y with j | j
  · exact congrArg Value.int (arithInt_exact a i j hpow)
  · rw [Integer.toInt, ← Int32.toInt_toInt64]
    exact congrArg Value.long (arithLong_exact a i.toInt64 j hpow)
  · rw [Integer.toInt, Integer.toInt, ← j.toInt_toInt64]
    rw [Integer.toInt, ← Int32.toInt_toInt64] at hpow
    exact congrArg Value.long (arithLong_exact a i j.toInt64 hpow)
  · exact congrArg Value.long (arithLong_exact a i j hpow)

/-- In the class in which two integers meet, the bitwise operations are defined. -/
theorem bitwise_promote (b : Bitwise) :
    ∃ r : Int, (x.toNumeric.promote y.toNumeric).bitwise? b = some (x.reduced y r).toNumeric ∧
      (x.reduced y r).toInt = r ∧ b.Yields (x.joint y) x.toInt y.toInt r := by
  have hint (r : Int32) : some (Numeric.int r) = some (Integer.int (.ofInt r.toInt)).toNumeric := by
    rw [Int32.ofInt_toInt, Integer.toNumeric]
  have hlong (r : Int64) :
      some (Numeric.long r) = some (Integer.long (.ofInt r.toInt)).toNumeric := by
    rw [Int64.ofInt_toInt, Integer.toNumeric]
  rcases x with i | i <;> rcases y with j | j
  · exact ⟨_, hint (bitwiseInt b i j), congrArg Int32.toInt (Int32.ofInt_toInt _),
      bitwiseInt_yields b i j⟩
  · have hyields := bitwiseLong_yields b i.toInt64 j
    rw [Int32.toInt_toInt64] at hyields
    exact ⟨_, hlong (bitwiseLong b i.toInt64 j), congrArg Int64.toInt (Int64.ofInt_toInt _),
      hyields⟩
  · have hyields := bitwiseLong_yields b i j.toInt64
    rw [Int32.toInt_toInt64] at hyields
    exact ⟨_, hlong (bitwiseLong b i j.toInt64), congrArg Int64.toInt (Int64.ofInt_toInt _),
      hyields⟩
  · exact ⟨_, hlong (bitwiseLong b i j), congrArg Int64.toInt (Int64.ofInt_toInt _),
      bitwiseLong_yields b i j⟩

end Promotion

/-! ### Operators -/

section Operators

variable {level : Nat} {w : World} (hlevel : 1 < level) (hlive : w.context.interrupt? = none)
  {x y : Integer} {op : BinaryOp}

include hlevel hlive

/-- Integers are as they are, so an operator is applied to them at once. -/
theorem engine_operator :
    (∀ a, op.arith? = some a → engine level (.binary op x.toValue y.toValue) w =
      arithmetic op a x.toValue y.toValue w) ∧
    ∀ b, op.bitwise? = some b → engine level (.binary op x.toValue y.toValue) w =
      bitwise op b x.toValue y.toValue w := by
  obtain ⟨n, rfl⟩ : ∃ n, level = n + 1 := ⟨level - 1, by omega⟩
  have hleaves := forcesOf_leaves (n := n) (by omega)
  have hx := hleaves w x.toValue hlive x.isLazy_toValue
  have hy := hleaves w y.toValue hlive y.isLazy_toValue
  constructor
  all_goals
    intro a hop
    refine (bind_ok (Eval.ensureLive_ok hlive)).trans ?_
    cases op <;> cases hop <;> refine (bind_ok hx).trans ((bind_ok hy).trans ?_) <;>
      cases x <;> cases y <;> rfl

/-- An arithmetic operator gives what it gives on whole numbers, unless it would divide by zero. -/
theorem engine_arith {a : Arith} (hop : op.arith? = some a)
    (hzero : a.divides = true → y.toInt ≠ 0) (hpow : a = .pow → 0 ≤ y.toInt) :
    engine level (.binary op x.toValue y.toValue) w =
      .ok (x.reduced y (a.onInt x.toInt y.toInt)).toValue w := by
  rw [(engine_operator hlevel hlive).1 a hop]
  simp only [arithmetic, Integer.numeric?_toValue, rightIsZero_promote, arith_promote x y hpow]
  rw [if_neg (by simpa using hzero)]
  rfl

/-- Division by zero fails in every class. -/
theorem engine_divideByZero {a : Arith} (hop : op.arith? = some a) (hdivides : a.divides = true)
    (hzero : y.toInt = 0) :
    engine level (.binary op x.toValue y.toValue) w =
      .error .failed (w.failing (.divideByZero op.name x.toValue.typeName)) := by
  rw [(engine_operator hlevel hlive).1 a hop]
  simp only [arithmetic, Integer.numeric?_toValue, rightIsZero_promote]
  rw [if_pos (by simp [hdivides, hzero])]
  rfl

/-- A bitwise operator gives what it gives on whole numbers. -/
theorem engine_bits {b : Bitwise} (hop : op.bitwise? = some b) :
    ∃ r : Int, engine level (.binary op x.toValue y.toValue) w =
        .ok (x.reduced y r).toValue w ∧
      (x.reduced y r).toInt = r ∧ b.Yields (x.joint y) x.toInt y.toInt r := by
  obtain ⟨r, hr, hexact, hyields⟩ := bitwise_promote x y b
  refine ⟨r, ?_, hexact, hyields⟩
  rw [(engine_operator hlevel hlive).2 b hop]
  simp only [bitwise, Integer.numeric?_toValue, hr]
  cases x <;> cases y <;> rfl

end Operators

/-- What the operators do with two integers at a level and in a world. -/
structure ExactOperators (level : Nat) (w : World) (x y : Integer) : Prop where
  /-- Sums, differences and products are those of whole numbers, in two's complement. -/
  add : engine level (.binary .add x.toValue y.toValue) w =
    .ok (x.reduced y (x.toInt + y.toInt)).toValue w
  sub : engine level (.binary .sub x.toValue y.toValue) w =
    .ok (x.reduced y (x.toInt - y.toInt)).toValue w
  mul : engine level (.binary .mul x.toValue y.toValue) w =
    .ok (x.reduced y (x.toInt * y.toInt)).toValue w
  /-- The quotient is cut off toward zero, and so is the one that leaves the remainder. -/
  div : y.toInt ≠ 0 → engine level (.binary .div x.toValue y.toValue) w =
    .ok (x.reduced y (x.toInt.tdiv y.toInt)).toValue w
  rem : y.toInt ≠ 0 → engine level (.binary .rem x.toValue y.toValue) w =
    .ok (x.reduced y (x.toInt.tmod y.toInt)).toValue w
  /-- The modulus is what the quotient that is rounded down leaves. -/
  mod : y.toInt ≠ 0 → ∃ r : Int, r = x.toInt - y.toInt * x.toInt.fdiv y.toInt ∧
    (r = 0 ∨ r.sign = y.toInt.sign) ∧ r.natAbs < y.toInt.natAbs ∧ (x.reduced y r).toInt = r ∧
    engine level (.binary .mod x.toValue y.toValue) w = .ok (x.reduced y r).toValue w
  divideByZero : y.toInt = 0 → ∀ op, op = .div ∨ op = .rem ∨ op = .mod →
    engine level (.binary op x.toValue y.toValue) w =
      .error .failed (w.failing (.divideByZero op.name x.toValue.typeName))
  /-- The count of a shift is the least residue modulo the width. -/
  shl : engine level (.binary .shl x.toValue y.toValue) w =
    .ok (x.reduced y (x.toInt * 2 ^ (y.toInt % x.joint y).toNat)).toValue w
  shr : engine level (.binary .shr x.toValue y.toValue) w =
    .ok (x.reduced y (x.toInt.fdiv (2 ^ (y.toInt % x.joint y).toNat))).toValue w
  /-- The operands have infinitely many bits, since their signs go on. -/
  bitAnd : ∃ r : Int, (∀ i, r.testBit i = (x.toInt.testBit i && y.toInt.testBit i)) ∧
    (x.reduced y r).toInt = r ∧
    engine level (.binary .bitAnd x.toValue y.toValue) w = .ok (x.reduced y r).toValue w
  bitOr : ∃ r : Int, (∀ i, r.testBit i = (x.toInt.testBit i || y.toInt.testBit i)) ∧
    (x.reduced y r).toInt = r ∧
    engine level (.binary .bitOr x.toValue y.toValue) w = .ok (x.reduced y r).toValue w
  bitXor : ∃ r : Int, (∀ i, r.testBit i = (x.toInt.testBit i ^^ y.toInt.testBit i)) ∧
    (x.reduced y r).toInt = r ∧
    engine level (.binary .bitXor x.toValue y.toValue) w = .ok (x.reduced y r).toValue w

/-- Arithmetic of integers is exact up to two's complement of the joint width, at every level that
evaluates operands. -/
theorem integers_exact {level : Nat} {w : World} (hlevel : 1 < level)
    (hlive : w.context.interrupt? = none) (x y : Integer) : ExactOperators level w x y where
  add := engine_arith hlevel hlive (a := .add) rfl (by simp [Arith.divides]) (by simp)
  sub := engine_arith hlevel hlive (a := .sub) rfl (by simp [Arith.divides]) (by simp)
  mul := engine_arith hlevel hlive (a := .mul) rfl (by simp [Arith.divides]) (by simp)
  div hy := engine_arith hlevel hlive (a := .div) rfl (fun _ => hy) (by simp)
  rem hy := engine_arith hlevel hlive (a := .rem) rfl (fun _ => hy) (by simp)
  mod hy := by
    -- the result has the sign of the divisor and less than its size, so it is exact in this width
    obtain ⟨hsign, hlt⟩ := fmod_bounds x.toInt hy
    exact ⟨_, Int.fmod_def _ _, hsign, hlt, x.toInt_reduced_of_lt y hlt,
      engine_arith hlevel hlive (a := .mod) rfl (fun _ => hy) (by simp)⟩
  divideByZero hy op hop := by
    rcases hop with rfl | rfl | rfl <;> exact engine_divideByZero hlevel hlive rfl rfl hy
  shl := by
    have hop : BinaryOp.shl.bitwise? = some .shl := rfl
    obtain ⟨r, hr, -, rfl⟩ := engine_bits hlevel hlive (x := x) (y := y) hop
    rw [hr, Integer.reduced_bmod]
  shr := by
    have hop : BinaryOp.shr.bitwise? = some .shr := rfl
    obtain ⟨r, hr, -, rfl⟩ := engine_bits hlevel hlive (x := x) (y := y) hop
    exact hr
  bitAnd := by
    have hop : BinaryOp.bitAnd.bitwise? = some .and := rfl
    obtain ⟨r, hr, hexact, hbits⟩ := engine_bits hlevel hlive hop
    exact ⟨r, hbits, hexact, hr⟩
  bitOr := by
    have hop : BinaryOp.bitOr.bitwise? = some .or := rfl
    obtain ⟨r, hr, hexact, hbits⟩ := engine_bits hlevel hlive hop
    exact ⟨r, hbits, hexact, hr⟩
  bitXor := by
    have hop : BinaryOp.bitXor.bitwise? = some .xor := rfl
    obtain ⟨r, hr, hexact, hbits⟩ := engine_bits hlevel hlive hop
    exact ⟨r, hbits, hexact, hr⟩

/-- The smallest integer divided by minus one is itself, and its modulus is zero; a negative count
of a wide operand shifts by its residue. -/
theorem integers_exact_overflow :
    engine 2 (.binary .div (.int (-2147483648)) (.int (-1))) {} = .ok (.int (-2147483648)) {} ∧
    engine 2 (.binary .shl (.int 3) (.long (-1))) {} =
      .ok (.long (-9223372036854775808)) {} ∧
    engine 2 (.binary .mod (.int 7) (.long (-3))) {} = .ok (.long (-2)) {} ∧
    engine 2 (.binary .rem (.int 7) (.long 0)) {} =
      .error .failed (({} : World).failing (.divideByZero "Remainder" "Int")) := by
  have hexact (x y : Integer) : ExactOperators 2 {} x y := integers_exact (by simp) rfl x y
  refine ⟨?_, ?_, ?_, ?_⟩
  · exact (hexact (.int (-2147483648)) (.int (-1))).div (by decide)
  · exact (hexact (.int 3) (.long (-1))).shl
  · obtain ⟨r, hr, -, -, -, hmod⟩ := (hexact (.int 7) (.long (-3))).mod (by decide)
    rw [hr] at hmod
    exact hmod
  · exact (hexact (.int 7) (.long 0)).divideByZero (by decide) .rem (by simp)

end LazyMachine
