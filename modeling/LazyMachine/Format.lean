import LazyMachine.Text.Numeral

/-!
# Format options

How values are shown: the form of floating-point numbers, the radix of integers, whether a string
or character at the top is quoted, and how many elements of a list are shown. A format spec is the
short text by which a user chooses them.
-/

namespace LazyMachine

/-- The form of floating-point numbers. -/
inductive FloatStyle where
  /-- The fewest digits that read back. -/
  | shortest
  /-- A fixed number of decimals. -/
  | fixed (places : Nat)
  /-- One digit, a fixed number of decimals and a power of ten. -/
  | exponent (places : Nat)
deriving DecidableEq, Repr, Inhabited

/-- Whether the host writes as many digits as the style asks for. It counts them in 16 bits, in the
exponent form together with the one before the point. -/
def FloatStyle.fits : FloatStyle → Bool
  | .shortest => true
  | .fixed places => places < Word.count 16
  | .exponent places => places + 1 < Word.count 16

/-- The radix of integers. -/
inductive Radix where
  | decimal
  | lowerHex
  | upperHex
  | binary
deriving DecidableEq, Repr, Inhabited

/-- How values are shown. -/
structure Format where
  /-- The form of floating-point numbers. -/
  style : FloatStyle := .shortest
  /-- The radix of integers. -/
  radix : Radix := .decimal
  /-- Whether a string or character at the top is quoted; nested ones always are. -/
  quoteStrings : Bool := false
  /-- The number of elements after which a list is cut off. -/
  maxItems : Option Nat := none
deriving DecidableEq, Repr, Inhabited

namespace Format

/-- The precision written after the letter of a spec, a natural number of one word. -/
def precision? (default : Nat) (digits : List Char) : Option Nat :=
  if digits.isEmpty then some default
  else Text.readWord? (String.ofList digits)

/-- Reads a format spec: nothing, `f` or `e` with an optional precision, `x`, `X`, `b` or `q`. -/
def ofSpec? (spec : String) : Option Format :=
  match spec.toList with
  | [] => some {}
  | c :: digits =>
    if c = 'f' ∨ c = 'F' then (precision? 2 digits).map fun n => { style := .fixed n }
    else if c = 'e' ∨ c = 'E' then (precision? 6 digits).map fun n => { style := .exponent n }
    else if digits.isEmpty then
      match c with
      | 'x' => some { radix := .lowerHex }
      | 'X' => some { radix := .upperHex }
      | 'b' => some { radix := .binary }
      | 'q' => some { quoteStrings := true }
      | _ => none
    else none

/-- The spec of the style, the radix and the quoting. -/
def spec (f : Format) : String :=
  let style := match f.style with
    | .shortest => ""
    | .fixed n => "f" ++ toString n
    | .exponent n => "e" ++ toString n
  let radix := match f.radix with
    | .decimal => ""
    | .lowerHex => "x"
    | .upperHex => "X"
    | .binary => "b"
  style ++ radix ++ if f.quoteStrings then "q" else ""

end Format

end LazyMachine
