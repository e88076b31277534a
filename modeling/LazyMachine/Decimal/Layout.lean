import LazyMachine.Decimal.Shortest

/-!
# Writing decimals

How digits are laid out: positionally with a point, or as one digit, a point and an exponent.
A `Layout` holds the choices of one output; `fixed` and `scientific` write the exact value of a
number rounded to a given count of decimals, a half going to the even neighbour.
-/

namespace LazyMachine.Decimal

/-- How the shortest digits of a number are written. -/
structure Layout where
  /-- The least position of the point that is written positionally, `0` standing before the first
  digit. -/
  leastPoint : Int
  /-- The greatest position of the point that is written positionally. -/
  greatestPoint : Int
  /-- What is written before an exponent that is not negative. -/
  plus : String
  /-- Which of two equally near decimals is taken. -/
  tie : Tie
  /-- What is written for a number that is not one. -/
  nan : String
  /-- What is written for positive infinity. -/
  infinity : String

/-- A minus sign for negative numbers. -/
def sign (negative : Bool) : String :=
  if negative then "-" else ""

/-- `count` zeros. -/
def zeros (count : Nat) : String :=
  String.ofList (List.replicate count '0')

/-- Digits with the point at `point`, and at least one digit on either side of it. -/
def positional (digits : String) (point : Int) : String :=
  let length : Int := digits.length
  if point ≤ 0 then "0." ++ zeros (-point).toNat ++ digits
  else if length ≤ point then digits ++ zeros (point - length).toNat ++ ".0"
  else
    String.ofList (digits.toList.take point.toNat) ++ "." ++
      String.ofList (digits.toList.drop point.toNat)

/-- Digits as one digit, a point if more follow, and the power of ten of the first one, with `plus`
before it if it is not negative. -/
def withExponent (plus digits : String) (exponent : Int) : String :=
  let first := String.ofList (digits.toList.take 1)
  let rest := digits.toList.drop 1
  let fraction := if rest.isEmpty then "" else "." ++ String.ofList rest
  first ++ fraction ++ "e" ++ (if 0 ≤ exponent then plus else "") ++ toString exponent

/-- Writes the shortest digits of a number. -/
def Layout.write (l : Layout) : Number → String
  | .nan => l.nan
  | .infinite negative => sign negative ++ l.infinity
  | .finite negative mantissa exponent narrow =>
    if mantissa = 0 then sign negative ++ "0.0"
    else
      let d := shortest l.tie mantissa exponent narrow
      let digits := toString d.digits
      let point := digits.length + d.exponent
      sign negative ++
        if l.leastPoint ≤ point ∧ point ≤ l.greatestPoint then positional digits point
        else withExponent l.plus digits (point - 1)

/-- A natural number with the last `places` digits behind a point. -/
def withPlaces (n places : Nat) : String :=
  if places = 0 then toString n
  else
    let digits := (toString n).toList
    let padded := List.replicate (places + 1 - digits.length) '0' ++ digits
    let whole := padded.length - places
    String.ofList (padded.take whole) ++ "." ++ String.ofList (padded.drop whole)

/-- The exact value rounded to `places` decimals. -/
def fixed (negative : Bool) (mantissa : Nat) (exponent : Int) (places : Nat) : String :=
  let n := ((Ratio.scaled mantissa 2 exponent).scale 10 places).roundEven
  sign negative ++ withPlaces n places

/-- The exact value as one digit with `places` decimals and a power of ten. -/
def scientific (negative : Bool) (mantissa : Nat) (exponent : Int) (places : Nat) : String :=
  if mantissa = 0 then sign negative ++ withPlaces 0 places ++ "e0"
  else
    let value := Ratio.scaled mantissa 2 exponent
    let point := value.decimalPoint
    let n := (value.scale 10 (places + 1 - point)).roundEven
    let (n, power) :=
      if n = Nat.pow 10 (places + 1) then (Nat.pow 10 places, point) else (n, point - 1)
    sign negative ++ withPlaces n places ++ "e" ++ toString power

end LazyMachine.Decimal
