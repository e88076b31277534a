import LazyMachine.Decimal.Shortest
import LazyMachine.Text.Numeral

/-!
# Reading decimals

A decimal numeral is an optional sign and one of `inf`, `infinity` and `nan` in any case, or digits
with an optional point and an optional exponent, at least one digit standing before the exponent.
It is rounded to the nearest number of the format.
-/

namespace LazyMachine.Decimal

/-- A decimal numeral. -/
inductive Numeral where
  /-- Not a number. -/
  | nan
  /-- An infinity. -/
  | infinite (negative : Bool)
  /-- The number `digits * 10 ^ exponent`. -/
  | finite (negative : Bool) (digits : Nat) (exponent : Int)
deriving DecidableEq, Repr

/-- The exponent after the mark, `0` if nothing is left. -/
def readExponent? : List Char → Option Int
  | [] => some 0
  | c :: cs =>
    if c = 'e' ∨ c = 'E' then
      match cs with
      | '-' :: ds => (Text.readDigits? ds).map fun n => -(n : Int)
      | '+' :: ds => (Text.readDigits? ds).map Int.ofNat
      | ds => (Text.readDigits? ds).map Int.ofNat
    else none

/-- A numeral without its sign. -/
def readUnsigned? (negative : Bool) (cs : List Char) : Option Numeral :=
  let lower := cs.map Char.toLower
  if lower = "inf".toList ∨ lower = "infinity".toList then some (.infinite negative)
  else if lower = "nan".toList then some .nan
  else
    let whole := cs.takeWhile Char.isDigit
    let rest := cs.dropWhile Char.isDigit
    let (fraction, rest) := match rest with
      | '.' :: ds => (ds.takeWhile Char.isDigit, ds.dropWhile Char.isDigit)
      | _ => ([], rest)
    match Text.readDigits? (whole ++ fraction), readExponent? rest with
    | some digits, some exponent => some (.finite negative digits (exponent - fraction.length))
    | _, _ => none

/-- Reads a numeral. -/
def Numeral.read? (text : String) : Option Numeral :=
  match text.toList with
  | '-' :: cs => readUnsigned? true cs
  | '+' :: cs => readUnsigned? false cs
  | cs => readUnsigned? false cs

/-- The bits of the number of width `w` nearest to `digits * 10 ^ exponent`. Magnitudes beyond
`10 ^ 400` and below `10 ^ -400` lie outside both formats. -/
def roundDecimal (w : Width) (negative : Bool) (digits : Nat) (exponent : Int) : Nat :=
  let point := decimalLength digits + exponent
  let ratio : Ratio :=
    if digits = 0 ∨ point < -400 then ⟨0, 1⟩
    else if 400 < point then ⟨Nat.pow 10 400, 1⟩
    else .scaled digits 10 exponent
  round w negative ratio

/-- The bits of the number of width `w` that a numeral stands for. -/
def Numeral.toBits (w : Width) : Numeral → Nat
  | .nan => w.infinity + Word.count (w.fraction - 1)
  | .infinite negative => w.infinity + (if negative then w.signBit else 0)
  | .finite negative digits exponent => roundDecimal w negative digits exponent

/-- Reads a 64-bit number. -/
def readDouble? (text : String) : Option Float :=
  (Numeral.read? text).map fun n => Float.ofBits (n.toBits .double).toUInt64

/-- Reads a 32-bit number. -/
def readSingle? (text : String) : Option Float32 :=
  (Numeral.read? text).map fun n => Float32.ofBits (n.toBits .single).toUInt32

end LazyMachine.Decimal
