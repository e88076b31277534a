import LazyMachine.Decimal.Reading
import LazyMachine.Json.Basic

/-!
# Documents

The common form of settings and programs, whichever notation they are written in, and the readers
for its parts. A plain scalar, which some notations have, is a text where a text is wanted and
otherwise what it looks like. A structure is written as a mapping, in which unknown fields are
ignored and known ones may not repeat, or as the sequence of its fields.
-/

namespace LazyMachine

/-- A document. -/
inductive Document where
  | null
  | bool (b : Bool)
  | integer (n : Int)
  | float (x : Float)
  /-- A number beyond all that are read, which may only be ignored. -/
  | excess
  /-- A text that is nothing else. -/
  | text (s : String)
  /-- A scalar without quotes. -/
  | plain (s : String)
  /-- An empty collection in a notation that has no other way to write nothing. -/
  | void
  | sequence (items : List Document)
  | mapping (fields : List (Document × Document))
deriving Inhabited

namespace Document

mutual

/-- A JSON value as a document. -/
def ofJson : Json → Document
  | .null => .null
  | .bool b => .bool b
  | .int n => .integer n
  | .float x => if x.isFinite then .float x else .excess
  | .str s => .text s
  | .arr items => .sequence (ofItems items)
  | .obj fields => .mapping (ofFields fields)

/-- The elements of a JSON array as documents. -/
def ofItems : List Json → List Document
  | [] => []
  | item :: items => ofJson item :: ofItems items

/-- The fields of a JSON object as documents. -/
def ofFields : List (String × Json) → List (Document × Document)
  | [] => []
  | (name, value) :: fields => (.text name, ofJson value) :: ofFields fields

end

/-- Digits of a radix that is a power of two, at least one of them. -/
def readRadix? (radix : Nat) (cs : List Char) : Option Nat :=
  if cs.isEmpty then none
  else cs.foldlM (fun acc c =>
    let digit :=
      if '0' ≤ c ∧ c ≤ '9' then c.toNat - 48
      else if 'a' ≤ c ∧ c ≤ 'f' then c.toNat - 87
      else if 'A' ≤ c ∧ c ≤ 'F' then c.toNat - 55
      else radix
    if digit < radix then some (acc * radix + digit) else none) 0

/-- The letters that name a radix behind a zero. -/
def radices : List (Char × Nat) :=
  [('x', 16), ('o', 8), ('b', 2)]

/-- A natural number of one word behind the letter of its radix, with or without a plus sign. -/
def unsignedRadix? (letter : Char) (digits : List Char) : Option Int := do
  let digits := if digits.head? = some '+' then digits.tail else digits
  let n ← readRadix? (← radices.lookup letter) digits
  if n < Word.bound then some n else none

/-- The integer of one word that a plain scalar with a radix looks like. -/
def plainRadix? : List Char → Option Int
  | '-' :: '0' :: letter :: digits => do
    let n ← readRadix? (← radices.lookup letter) digits
    if n ≤ Word.count 63 then some (-n) else none
  | '+' :: '0' :: letter :: digits => unsignedRadix? letter digits
  | '0' :: letter :: digits => unsignedRadix? letter digits
  | _ => none

/-- The decimal integer that a plain scalar looks like, within two words. -/
def plainDecimal? : List Char → Option Int
  | '-' :: digits =>
    (Text.readDigits? digits).bind fun n => if n ≤ Word.count 127 then some (-n) else none
  | cs =>
    let digits := if cs.head? = some '+' then cs.tail else cs
    (Text.readDigits? digits).bind fun n => if n < Word.count 128 then some n else none

/-- Whether a text is digits behind a leading zero. -/
def isZeroPadded (s : String) : Bool :=
  match s.toList.dropWhile (fun c => c = '+' || c = '-') with
  | '0' :: d :: ds => (d :: ds).all Char.isDigit
  | _ => false

/-- The spellings of infinity. -/
def infinities : List String :=
  [".inf", ".Inf", ".INF"]

/-- The floating-point number that a plain scalar looks like. Infinity may have any number of plus
signs. -/
def plainFloat? (s : String) : Option Float :=
  if String.ofList (s.toList.dropWhile (· = '+')) ∈ infinities then some (1.0 / 0.0)
  else if s ∈ infinities.map ("-" ++ ·) then some (-1.0 / 0.0)
  else if s ∈ [".nan", ".NaN", ".NAN"] then some (0.0 / 0.0)
  else (Decimal.readDouble? s).filter Float.isFinite

/-- What a plain scalar looks like. Digits behind a leading zero are a text. -/
def ofPlain (s : String) : Document :=
  if s = "~" ∨ s = "null" then .null
  else if s = "true" then .bool true
  else if s = "false" then .bool false
  else
    match plainRadix? s.toList with
    | some n => .integer n
    | none =>
      if isZeroPadded s then .text s
      else
        match plainDecimal? s.toList with
        | some n => .integer n
        | none =>
          match plainFloat? s with
          | some x => .float x
          | none => .text s

/-- The document with a plain scalar taken for what it looks like. -/
def resolved : Document → Document
  | .plain s => ofPlain s
  | d => d

/-- Nothing. -/
def null? (d : Document) : Option Unit :=
  match d.resolved with
  | .null => some ()
  | _ => none

/-- A truth value. -/
def bool? (d : Document) : Option Bool :=
  match d.resolved with
  | .bool b => some b
  | _ => none

/-- An integer. -/
def integer? (d : Document) : Option Int :=
  match d.resolved with
  | .integer n => some n
  | _ => none

/-- A natural number below a bound. -/
def natBelow? (bound : Nat) (d : Document) : Option Nat :=
  d.integer?.bind fun n => if 0 ≤ n ∧ n < bound then some n.toNat else none

/-- A natural number of one word. -/
def word? : Document → Option Nat :=
  natBelow? Word.bound

/-- An integer of `width` bits. -/
def intWithin? (width : Nat) (d : Document) : Option Int :=
  d.integer?.filter (Word.fits width)

/-- Whether an integer is one of a word, signed or not. -/
def isWord (n : Int) : Bool :=
  -(Word.count 63 : Int) ≤ n && n < Word.bound

/-- A 64-bit floating-point number; integers of one word count as such. -/
def double? (d : Document) : Option Float :=
  match d.resolved with
  | .float x => some x
  | .integer n => if isWord n then some (Decimal.roundDouble (n < 0) ⟨n.natAbs, 1⟩) else none
  | _ => none

/-- A 32-bit floating-point number; integers of one word count as such. -/
def single? (d : Document) : Option Float32 :=
  match d.resolved with
  | .float x => some x.toFloat32
  | .integer n => if isWord n then some (Decimal.roundSingle (n < 0) ⟨n.natAbs, 1⟩) else none
  | _ => none

/-- A text. -/
def text? : Document → Option String
  | .text s => some s
  | .plain s => some s
  | _ => none

/-- A character. -/
def char? (d : Document) : Option Char :=
  match d.text?.map String.toList with
  | some [c] => some c
  | _ => none

/-- A sequence. -/
def sequence? : Document → Option (List Document)
  | .sequence items => some items
  | _ => none

/-- Something that may be left out by writing nothing. -/
def optional? {α : Type} (read : Document → Option α) (d : Document) : Option (Option α) :=
  match d.null? with
  | some () => some none
  | none => (read d).map some

/-- An alternative: its keyword and what it holds. -/
def alternative? : Document → Option (String × Option Document)
  | .text s => some (s, none)
  | .plain s => some (s, none)
  | .mapping [(key, d)] => key.text?.map (·, some d)
  | _ => none

/-- What an alternative holds that has no content. -/
def nothing? : Document → Option Unit
  | .void => some ()
  | d => d.null?

/-- The keyword of an alternative that holds nothing. -/
def keyword? (d : Document) : Option String :=
  match d.alternative? with
  | some (name, none) => some name
  | some (name, some content) => content.nothing?.map fun _ => name
  | none => none

/-- A field whose key is a text. -/
def named? (field : Document × Document) : Option (String × Document) :=
  field.1.text?.map (·, field.2)

/-- The field of a name in a mapping; it may be missing, but not repeat. -/
def fieldOf? (fields : List (String × Document)) (name : String) : Option (Option Document) :=
  match fields.filter (·.1 = name) with
  | [] => some none
  | [(_, d)] => some (some d)
  | _ => none

/-- The fields of a structure, in the order of `names`. -/
def fields? (names : List String) : Document → Option (List (Option Document))
  | .mapping fields =>
    (fields.mapM named?).bind fun fields => names.mapM (fieldOf? fields)
  | .sequence items =>
    if items.length ≤ names.length then
      some (items.map some ++ List.replicate (names.length - items.length) none)
    else none
  | .void => some (names.map fun _ => none)
  | _ => none

/-- A field that must be there. -/
def required? {α : Type} (read : Document → Option α) (field : Option Document) : Option α :=
  field.bind read

/-- A field with a default. -/
def withDefault? {α : Type} (default : α) (read : Document → Option α) :
    Option Document → Option α
  | none => some default
  | some d => read d

end Document

end LazyMachine
