import LazyMachine.Word

/-!
# Numerals

Writing natural numbers in a radix, and reading decimal numerals that must fit a range.
-/

namespace LazyMachine.Text

/-- The value of a decimal digit. -/
def digitValue? (c : Char) : Option Nat :=
  if '0' ≤ c ∧ c ≤ '9' then some (c.toNat - '0'.toNat) else none

/-- Reads a non-empty run of decimal digits and nothing else. -/
def readDigits? : List Char → Option Nat
  | [] => none
  | cs => cs.foldlM (fun acc c => (digitValue? c).map (acc * 10 + ·)) 0

/-- Reads a decimal natural number below `bound`; a leading plus sign and leading zeros are
accepted. -/
def readNatBelow? (bound : Nat) (text : String) : Option Nat :=
  let digits := match text.toList with
    | '+' :: cs => cs
    | cs => cs
  (readDigits? digits).filter (· < bound)

/-- Reads a decimal natural number of one word. -/
def readWord? : String → Option Nat :=
  readNatBelow? Word.bound

/-- Reads a decimal integer of `width` bits in two's complement; a leading sign and leading zeros
are accepted. -/
def readIntWithin? (width : Nat) (text : String) : Option Int :=
  let signed : Option Int := match text.toList with
    | '+' :: cs => (readDigits? cs).map Int.ofNat
    | '-' :: cs => (readDigits? cs).map fun n => -(n : Int)
    | cs => (readDigits? cs).map Int.ofNat
  signed.filter (Word.fits width)

/-- Digits of `n` in `radix`, most significant first, in lower case. -/
def numeral (radix n : Nat) : String :=
  String.ofList (Nat.toDigits radix n)

end LazyMachine.Text
