import LazyMachine.Decimal.Layout
import LazyMachine.Text.Split

/-!
# JSON values

A JSON value keeps integers and floating-point numbers apart and the fields of an object in the
order in which they are written. `canonical` puts the fields in order of their names, the last of
several fields of one name winning, and `compact` writes a value without blanks.
-/

namespace LazyMachine

/-- A JSON value. -/
inductive Json where
  /-- The value `null`. -/
  | null
  /-- A truth value. -/
  | bool (b : Bool)
  /-- A number written as an integer. -/
  | int (n : Int)
  /-- Any other number. -/
  | float (x : Float)
  /-- A string. -/
  | str (text : String)
  /-- An array. -/
  | arr (items : List Json)
  /-- An object. -/
  | obj (fields : List (String × Json))
deriving Inhabited

namespace Json

/-- Doubles are written positionally from `0.00001` up to below `1e16`; a larger one has a signed
exponent. -/
def doubleLayout : Decimal.Layout where
  leastPoint := -4
  greatestPoint := 16
  plus := "+"
  tie := .toEven
  nan := "null"
  infinity := "null"

/-- Singles are written positionally from `0.000001` up to below `1e13`. -/
def singleLayout : Decimal.Layout :=
  { doubleLayout with leastPoint := -5, greatestPoint := 13 }

/-- A double; infinities and NaN have no form of their own and are `null`. -/
def writeDouble (x : Float) : String :=
  match Decimal.Number.ofDouble x with
  | .infinite _ => "null"
  | number => doubleLayout.write number

/-- A single; infinities and NaN have no form of their own and are `null`. -/
def writeSingle (x : Float32) : String :=
  match Decimal.Number.ofSingle x with
  | .infinite _ => "null"
  | number => singleLayout.write number

/-- The characters that stand for `c` inside a string. -/
def escape (c : Char) : List Char :=
  if c = '"' ∨ c = '\\' then ['\\', c]
  else if c = '\n' then ['\\', 'n']
  else if c = '\r' then ['\\', 'r']
  else if c = '\t' then ['\\', 't']
  else if c = '\x08' then ['\\', 'b']
  else if c = '\x0c' then ['\\', 'f']
  else if c.toNat < 0x20 then
    ['\\', 'u', '0', '0', Nat.digitChar (c.toNat / 16), Nat.digitChar (c.toNat % 16)]
  else [c]

/-- A string between quotes. -/
def writeString (text : String) : String :=
  String.ofList ('"' :: text.toList.flatMap escape ++ ['"'])

/-- The text of an array. -/
def array (items : List String) : String :=
  Text.enclose "[" "]" "," items

/-- The text of an object. -/
def object (fields : List String) : String :=
  Text.enclose "\x7b" "\x7d" "," fields

mutual

/-- Writes a value without blanks. -/
def compact : Json → String
  | .null => "null"
  | .bool b => if b then "true" else "false"
  | .int n => toString n
  | .float x => writeDouble x
  | .str text => writeString text
  | .arr items => array (compactItems items)
  | .obj fields => object (compactFields fields)

/-- The elements of an array. -/
def compactItems : List Json → List String
  | [] => []
  | item :: items => compact item :: compactItems items

/-- The fields of an object. -/
def compactFields : List (String × Json) → List String
  | [] => []
  | (name, value) :: fields =>
    (writeString name ++ ":" ++ compact value) :: compactFields fields

end

/-- Adds a field to fields in order of their names, replacing one of the same name. -/
def insertField (name : String) (value : Json) : List (String × Json) → List (String × Json)
  | [] => [(name, value)]
  | (other, old) :: fields =>
    if name < other then (name, value) :: (other, old) :: fields
    else if name = other then (name, value) :: fields
    else (other, old) :: insertField name value fields

mutual

/-- The value with the fields of every object in order of their names, the last of several fields
of one name winning. -/
def canonical : Json → Json
  | .arr items => .arr (canonicalItems items)
  | .obj fields => .obj (canonicalFields fields [])
  | value => value

/-- The elements of an array, each made canonical. -/
def canonicalItems : List Json → List Json
  | [] => []
  | item :: items => canonical item :: canonicalItems items

/-- Inserts each field, made canonical, into the fields gathered so far. -/
def canonicalFields : List (String × Json) → List (String × Json) → List (String × Json)
  | [], gathered => gathered
  | (name, value) :: fields, gathered =>
    canonicalFields fields (insertField name (canonical value) gathered)

end

/-- The first field of a name. -/
def field? (value : Json) (name : String) : Option Json :=
  match value with
  | .obj fields => (fields.find? (·.1 = name)).map (·.2)
  | _ => none

end Json

end LazyMachine
