import LazyMachine.Decimal.Binary

/-!
# The fewest digits that read back

A positive number `mantissa * 2 ^ exponent` is written with the fewest decimal digits that round
to it again. Among the decimals of that length the nearest one is taken; where two are equally
near, the `Tie` rule decides.
-/

namespace LazyMachine.Decimal

/-- A positive decimal `digits * 10 ^ exponent`. -/
structure Digits where
  /-- The digits as one number. -/
  digits : Nat
  /-- The power of ten of the last digit. -/
  exponent : Int
deriving DecidableEq, Repr

/-- Which of two equally near decimals is taken. -/
inductive Tie where
  /-- The one whose last digit is even. -/
  | toEven
  /-- The larger one. -/
  | up
deriving DecidableEq, Repr

/-- Number of decimal digits. -/
def decimalLength (n : Nat) : Nat :=
  (Nat.toDigits 10 n).length

/-- The number `k` with `10 ^ (k - 1) ≤ r < 10 ^ k`, for a positive rational. -/
def Ratio.decimalPoint (r : Ratio) : Int :=
  if r.den ≤ r.num then decimalLength (r.num / r.den)
  else 1 - (decimalLength ((r.den + r.num - 1) / r.num - 1) : Int)

/-- The open or closed interval of rationals that round to a number, in quarters of its last
place: `low ≤ 4 * mantissa ≤ high`. -/
structure Span where
  /-- Lower end. -/
  low : Nat
  /-- Upper end. -/
  high : Nat
  /-- Whether the ends belong to it. -/
  closed : Bool

/-- The rationals that round to `mantissa * 2 ^ exponent`. -/
def Span.of (mantissa : Nat) (narrow : Bool) : Span where
  low := if narrow then 4 * mantissa - 1 else 4 * mantissa - 2
  high := 4 * mantissa + 2
  closed := mantissa % 2 = 0

/-- Whether a rational, in quarters of the last place, lies in the span. -/
def Span.contains (s : Span) (r : Ratio) : Bool :=
  if s.closed then s.low * r.den ≤ r.num && r.num ≤ s.high * r.den
  else s.low * r.den < r.num && r.num < s.high * r.den

/-- The nearest decimal of the span whose last digit stands for `10 ^ place`, if there is one. -/
def nearestAt? (tie : Tie) (span : Span) (mantissa : Nat) (exponent place : Int) : Option Nat :=
  let value := (Ratio.scaled mantissa 2 exponent).scale 10 (-place)
  let below := value.num / value.den
  let inSpan (n : Nat) : Bool := span.contains ((Ratio.scaled n 10 place).scale 2 (2 - exponent))
  match inSpan below && 0 < below, inSpan (below + 1) with
  | false, false => none
  | true, false => some below
  | false, true => some (below + 1)
  | true, true =>
    let twice := 2 * (value.num % value.den)
    if twice < value.den then some below
    else if value.den < twice then some (below + 1)
    else match tie with
      | .up => some (below + 1)
      | .toEven => some (if below % 2 = 0 then below else below + 1)

/-- Drops zeros at the end; `steps` bounds their number. -/
def Digits.strip : (steps : Nat) → Digits → Digits
  | 0, d => d
  | steps + 1, d =>
    if d.digits % 10 = 0 ∧ d.digits ≠ 0 then
      Digits.strip steps ⟨d.digits / 10, d.exponent + 1⟩
    else d

/-- Tries one digit, two digits and so on, `more` lengths at most. -/
def shortestFrom (tie : Tie) (span : Span) (mantissa : Nat) (exponent : Int) :
    (more : Nat) → (place : Int) → Digits
  | 0, _ => ⟨mantissa, 0⟩
  | more + 1, place =>
    match nearestAt? tie span mantissa exponent place with
    | some n => Digits.strip 20 ⟨n, place⟩
    | none => shortestFrom tie span mantissa exponent more (place - 1)

/-- The shortest decimal that rounds to the positive number `mantissa * 2 ^ exponent`. Seventeen
digits are always enough. -/
def shortest (tie : Tie) (mantissa : Nat) (exponent : Int) (narrow : Bool) : Digits :=
  let point := (Ratio.scaled mantissa 2 exponent).decimalPoint
  shortestFrom tie (Span.of mantissa narrow) mantissa exponent 18 (point - 1)

end LazyMachine.Decimal
