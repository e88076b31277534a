import LazyMachine.Word

/-!
# Binary floating point, exactly

The two interchange formats of 32 and 64 bits, read as exact numbers `mantissa * 2 ^ exponent`.
`round` goes back: it gives the bits of the number of the format that lies nearest to a positive
rational, a tie going to the even mantissa. The remainder of two numbers is exact in either format.
-/

namespace LazyMachine.Decimal

/-- A binary interchange format. -/
structure Width where
  /-- Stored bits of the mantissa. -/
  fraction : Nat
  /-- Bits of the exponent. -/
  exponent : Nat
deriving DecidableEq, Repr

namespace Width

/-- The format of 32 bits. -/
def single : Width := ⟨23, 8⟩

/-- The format of 64 bits. -/
def double : Width := ⟨52, 11⟩

/-- The exponent of the last place of the smallest numbers. -/
def least (w : Width) : Int :=
  2 - Word.count (w.exponent - 1) - w.fraction

/-- The bits of positive infinity. -/
def infinity (w : Width) : Nat :=
  (Word.count w.exponent - 1) * Word.count w.fraction

/-- The bit of the sign. -/
def signBit (w : Width) : Nat :=
  Word.count (w.fraction + w.exponent)

end Width

/-- What a bit pattern stands for. -/
inductive Number where
  /-- Not a number. -/
  | nan
  /-- An infinity. -/
  | infinite (negative : Bool)
  /-- The number `mantissa * 2 ^ exponent`, negated if `negative`. In `narrow` numbers the gap to
  the next smaller magnitude is half the gap to the next larger one. -/
  | finite (negative : Bool) (mantissa : Nat) (exponent : Int) (narrow : Bool)
deriving DecidableEq, Repr

/-- Whether a number has digits. -/
def Number.isFinite : Number → Bool
  | .finite _ _ _ _ => true
  | _ => false

/-- Reads a bit pattern of the given width. -/
def Number.ofBits (w : Width) (bits : Nat) : Number :=
  let fraction := bits % Word.count w.fraction
  let exponent := bits / Word.count w.fraction % Word.count w.exponent
  let negative := w.signBit ≤ bits
  if exponent = Word.count w.exponent - 1 then
    if fraction = 0 then .infinite negative else .nan
  else if exponent = 0 then .finite negative fraction w.least false
  else
    .finite negative (Word.count w.fraction + fraction) (w.least + (exponent - 1 : Nat))
      (fraction = 0 && 1 < exponent)

/-- What a 64-bit number stands for. -/
def Number.ofDouble (x : Float) : Number :=
  .ofBits .double x.toBits.toNat

/-- What a 32-bit number stands for. -/
def Number.ofSingle (x : Float32) : Number :=
  .ofBits .single x.toBits.toNat

/-- A rational number that is not negative. -/
structure Ratio where
  /-- Numerator. -/
  num : Nat
  /-- Denominator. -/
  den : Nat
deriving DecidableEq, Repr

/-- The rational `n * base ^ e`. -/
def Ratio.scaled (n base : Nat) (e : Int) : Ratio :=
  if 0 ≤ e then ⟨n * Nat.pow base e.toNat, 1⟩ else ⟨n, Nat.pow base (-e).toNat⟩

/-- The rational times `base ^ e`. -/
def Ratio.scale (r : Ratio) (base : Nat) (e : Int) : Ratio :=
  if 0 ≤ e then ⟨r.num * Nat.pow base e.toNat, r.den⟩
  else ⟨r.num, r.den * Nat.pow base (-e).toNat⟩

/-- The nearest natural number, a tie going to the even one. -/
def Ratio.roundEven (r : Ratio) : Nat :=
  let q := r.num / r.den
  let twice := 2 * (r.num % r.den)
  if r.den < twice ∨ (twice = r.den ∧ q % 2 = 1) then q + 1 else q

/-- The exponent `e` with `2 ^ e ≤ r < 2 ^ (e + 1)`, for a positive rational. -/
def Ratio.log2 (r : Ratio) : Int :=
  let guess : Int := (Nat.log2 r.num : Int) - Nat.log2 r.den
  let scaled := r.scale 2 (-guess)
  if scaled.num < scaled.den then guess - 1 else guess

/-- The bits of the number of width `w` nearest to a positive rational. -/
def roundPositive (w : Width) (r : Ratio) : Nat :=
  let place := max (r.log2 - w.fraction) w.least
  let bits := (place - w.least).toNat * Word.count w.fraction + (r.scale 2 (-place)).roundEven
  min bits w.infinity

/-- The bits of the number of width `w` nearest to a rational with a sign. -/
def round (w : Width) (negative : Bool) (r : Ratio) : Nat :=
  (if r.num = 0 then 0 else roundPositive w r) + (if negative then w.signBit else 0)

/-- The 64-bit number nearest to a rational with a sign. -/
def roundDouble (negative : Bool) (r : Ratio) : Float :=
  Float.ofBits (round .double negative r).toUInt64

/-- The 32-bit number nearest to a rational with a sign. -/
def roundSingle (negative : Bool) (r : Ratio) : Float32 :=
  Float32.ofBits (round .single negative r).toUInt32

/-- The bits of `x - y * n`, where `n` is the quotient cut off toward zero; `none` if it is not a
number. The result has the sign of `x` and is exact. -/
def remainder? (w : Width) (x y : Number) : Option Nat :=
  match x, y with
  | .finite negative m e _, .infinite _ => some (round w negative (.scaled m 2 e))
  | .finite negative m e _, .finite _ m' e' _ =>
    if m' = 0 then none
    else
      let place := min e e'
      let r := m * Nat.pow 2 (e - place).toNat % (m' * Nat.pow 2 (e' - place).toNat)
      some (round w negative (.scaled r 2 place))
  | _, _ => none

/-- The truncated remainder of two 64-bit numbers. -/
def remainderDouble (x y : Float) : Float :=
  match remainder? .double (.ofDouble x) (.ofDouble y) with
  | some bits => Float.ofBits bits.toUInt64
  | none => 0.0 / 0.0

/-- The truncated remainder of two 32-bit numbers. -/
def remainderSingle (x y : Float32) : Float32 :=
  match remainder? .single (.ofSingle x) (.ofSingle y) with
  | some bits => Float32.ofBits bits.toUInt32
  | none => 0.0 / 0.0

end LazyMachine.Decimal
