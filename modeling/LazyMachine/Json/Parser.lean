import LazyMachine.Json.Number

/-!
# Reading JSON

A text is one value with blanks around it. Strings hold no control characters and no lone
surrogates. `read?` leaves numbers beyond the finite doubles to its caller, `parse?` refuses them.
-/

namespace LazyMachine.Json

/-- The blanks of JSON. -/
def isBlank (c : Char) : Bool :=
  c = ' ' || c = '\n' || c = '\t' || c = '\r'

/-- Drops leading blanks. -/
def skip (cs : List Char) : List Char :=
  cs.dropWhile isBlank

/-- Four hexadecimal digits and what follows them. -/
def readHex4? : List Char → Option (Nat × List Char)
  | a :: b :: c :: d :: rest => do
    let digit (c : Char) : Option Nat :=
      if '0' ≤ c ∧ c ≤ '9' then some (c.toNat - 48)
      else if 'a' ≤ c ∧ c ≤ 'f' then some (c.toNat - 87)
      else if 'A' ≤ c ∧ c ≤ 'F' then some (c.toNat - 55)
      else none
    let n := (((← digit a) * 16 + (← digit b)) * 16 + (← digit c)) * 16 + (← digit d)
    return (n, rest)
  | _ => none

/-- The character of one code unit, or of two that form a surrogate pair, and what follows. -/
def readUnit? (cs : List Char) : Option (Char × List Char) :=
  match readHex4? cs with
  | none => none
  | some (n, rest) =>
    if 0xD800 ≤ n ∧ n < 0xDC00 then
      match rest with
      | '\\' :: 'u' :: rest =>
        match readHex4? rest with
        | some (low, rest) =>
          if 0xDC00 ≤ low ∧ low < 0xE000 then
            some (Char.ofNat (0x10000 + (n - 0xD800) * 0x400 + (low - 0xDC00)), rest)
          else none
        | none => none
      | _ => none
    else if 0xDC00 ≤ n ∧ n < 0xE000 then none
    else some (Char.ofNat n, rest)

/-- The rest of a string after its opening quote; `fuel` bounds its characters. -/
def readString? : (fuel : Nat) → List Char → List Char → Option (String × List Char)
  | 0, _, _ => none
  | _ + 1, _, [] => none
  | fuel + 1, acc, c :: cs =>
    if c = '"' then some (String.ofList acc.reverse, cs)
    else if c = '\\' then
      match cs with
      | '"' :: cs => readString? fuel ('"' :: acc) cs
      | '\\' :: cs => readString? fuel ('\\' :: acc) cs
      | '/' :: cs => readString? fuel ('/' :: acc) cs
      | 'b' :: cs => readString? fuel ('\x08' :: acc) cs
      | 'f' :: cs => readString? fuel ('\x0c' :: acc) cs
      | 'n' :: cs => readString? fuel ('\n' :: acc) cs
      | 'r' :: cs => readString? fuel ('\r' :: acc) cs
      | 't' :: cs => readString? fuel ('\t' :: acc) cs
      | 'u' :: cs =>
        match readUnit? cs with
        | some (c, cs) => readString? fuel (c :: acc) cs
        | none => none
      | _ => none
    else if c.toNat < 0x20 then none
    else readString? fuel (c :: acc) cs

/-- What follows an expected word. -/
def expect? (word : String) (value : Json) (cs : List Char) : Option (Json × List Char) :=
  if word.toList.isPrefixOf cs then some (value, cs.drop word.length) else none

mutual

/-- One value and what follows; `fuel` bounds the steps. -/
def readValue? : (fuel : Nat) → List Char → Option (Json × List Char)
  | 0, _ => none
  | fuel + 1, cs =>
    match skip cs with
    | '"' :: cs => (readString? (cs.length + 1) [] cs).map fun (s, rest) => (.str s, rest)
    | '[' :: cs =>
      match skip cs with
      | ']' :: rest => some (.arr [], rest)
      | cs => (readItems? fuel cs).map fun (items, rest) => (.arr items, rest)
    | '\x7b' :: cs =>
      match skip cs with
      | '\x7d' :: rest => some (.obj [], rest)
      | cs => (readFields? fuel cs).map fun (fields, rest) => (.obj fields, rest)
    | '-' :: cs => readNumber? true cs
    | 'n' :: cs => expect? "null" .null ('n' :: cs)
    | 't' :: cs => expect? "true" (.bool true) ('t' :: cs)
    | 'f' :: cs => expect? "false" (.bool false) ('f' :: cs)
    | cs => readNumber? false cs

/-- The elements of an array up to its closing bracket. -/
def readItems? : (fuel : Nat) → List Char → Option (List Json × List Char)
  | 0, _ => none
  | fuel + 1, cs =>
    match readValue? fuel cs with
    | none => none
    | some (item, rest) =>
      match skip rest with
      | ',' :: rest => (readItems? fuel rest).map fun (items, rest) => (item :: items, rest)
      | ']' :: rest => some ([item], rest)
      | _ => none

/-- The fields of an object up to its closing brace. -/
def readFields? : (fuel : Nat) → List Char → Option (List (String × Json) × List Char)
  | 0, _ => none
  | fuel + 1, cs =>
    match skip cs with
    | '"' :: cs =>
      match readString? (cs.length + 1) [] cs with
      | none => none
      | some (name, rest) =>
        match skip rest with
        | ':' :: rest =>
          match readValue? fuel rest with
          | none => none
          | some (value, rest) =>
            match skip rest with
            | ',' :: rest =>
              (readFields? fuel rest).map fun (fields, rest) => ((name, value) :: fields, rest)
            | '\x7d' :: rest => some ([(name, value)], rest)
            | _ => none
        | _ => none
    | _ => none

end

/-- Reads a whole text, in which a number may be infinite. -/
def read? (text : String) : Option Json :=
  let cs := text.toList
  match readValue? (2 * cs.length + 2) cs with
  | some (value, rest) => if (skip rest).isEmpty then some value else none
  | none => none

mutual

/-- Whether all numbers in a value are finite. -/
def isFinite : Json → Bool
  | .float x => x.isFinite
  | .arr items => areFinite items
  | .obj fields => haveFinite fields
  | _ => true

/-- Whether all numbers in some values are finite. -/
def areFinite : List Json → Bool
  | [] => true
  | item :: items => item.isFinite && areFinite items

/-- Whether all numbers in some fields are finite. -/
def haveFinite : List (String × Json) → Bool
  | [] => true
  | (_, value) :: fields => value.isFinite && haveFinite fields

end

/-- Reads a whole text. -/
def parse? (text : String) : Option Json :=
  (read? text).filter isFinite

end LazyMachine.Json
