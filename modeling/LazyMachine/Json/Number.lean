import LazyMachine.Decimal.Reading
import LazyMachine.Json.Basic

/-!
# Numbers of JSON

A number is an integer if it has neither a point nor an exponent and fits 64 bits, signed if it is
negative; `-0` is none. Any other number is a double. Its leading digits that fit a word are rounded
to a double, and this is multiplied or divided by a power of ten that is itself rounded. Digits of
the whole part that do not fit only move the point, those of the fraction are dropped. Short
decimals are thus read as the nearest double, long ones as a double close by. A number beyond the
finite doubles becomes infinite.
-/

namespace LazyMachine.Json

/-- Appends digits to a number while it fits a word. Gives the number and the
digits that do not fit. -/
def takeDigits : Nat → List Char → Nat × List Char
  | n, [] => (n, [])
  | n, c :: cs =>
    let m := n * 10 + (c.toNat - '0'.toNat)
    if m < Word.bound then takeDigits m cs else (n, c :: cs)

/-- The largest power of ten that is a finite double. -/
def largestPower : Nat := 308

/-- The double nearest to a power of ten. -/
def powerOfTen (n : Nat) : Float :=
  Decimal.roundDouble false ⟨Nat.pow 10 n, 1⟩

/-- The product of a positive double and a power of ten. A power that is no double is divided by in
several steps. -/
def scale (x : Float) (exponent : Int) : Float :=
  if 0 ≤ exponent then
    if exponent ≤ largestPower then x * powerOfTen exponent.toNat
    else if x == 0 then x
    else 1.0 / 0.0
  else if -(largestPower : Int) ≤ exponent then x / powerOfTen (-exponent).toNat
  else if x == 0 then x
  else scale (x / powerOfTen largestPower) (exponent + largestPower)
termination_by (-exponent).toNat
decreasing_by
  simp only [largestPower] at *
  omega

/-- The number `digits * 10 ^ exponent` with a sign as a double. -/
def floatOf (negative : Bool) (digits : Nat) (exponent : Int) : Json :=
  let x := scale (Decimal.roundDouble false ⟨digits, 1⟩) exponent
  .float (if negative then -x else x)

/-- A number written as an integer of one word. -/
def integerOf (negative : Bool) (digits : Nat) : Json :=
  let n : Int := if negative then -(digits : Int) else digits
  if negative ∧ (digits = 0 ∨ !Word.fits 64 n) then floatOf true digits 0 else .int n

/-- The exponent, if its mark comes next, and what follows. -/
def takeExponent? (cs : List Char) : Option (Option Int × List Char) :=
  let digits (cs : List Char) : Option (Nat × List Char) :=
    (Text.readDigits? (cs.takeWhile Char.isDigit)).map (·, cs.dropWhile Char.isDigit)
  match cs with
  | c :: rest =>
    if c = 'e' ∨ c = 'E' then
      match rest with
      | '-' :: rest => (digits rest).map fun (n, rest) => (some (-(n : Int)), rest)
      | '+' :: rest => (digits rest).map fun (n, rest) => (some (n : Int), rest)
      | rest => (digits rest).map fun (n, rest) => (some (n : Int), rest)
    else some (none, cs)
  | [] => some (none, [])

/-- The digits behind a point, if one comes next, and what follows. -/
def takeFraction? : List Char → Option (List Char × List Char)
  | '.' :: rest =>
    let digits := rest.takeWhile Char.isDigit
    if digits.isEmpty then none else some (digits, rest.dropWhile Char.isDigit)
  | rest => some ([], rest)

/-- A number without its sign, and what follows. The whole part has no leading zeros. -/
def readNumber? (negative : Bool) (cs : List Char) : Option (Json × List Char) := do
  let whole := cs.takeWhile Char.isDigit
  if whole.isEmpty ∨ (1 < whole.length ∧ whole.head? = some '0') then none
  let (fraction, rest) ← takeFraction? (cs.dropWhile Char.isDigit)
  let (exponent, rest) ← takeExponent? rest
  let (digits, surplus) := takeDigits 0 whole
  if fraction.isEmpty ∧ exponent.isNone ∧ surplus.isEmpty then
    return (integerOf negative digits, rest)
  let (digits, dropped) := takeDigits digits fraction
  let moved : Int := (surplus.length + dropped.length : Nat) - fraction.length
  return (floatOf negative digits (exponent.getD 0 + moved), rest)

end LazyMachine.Json
