import LazyMachine.Document.Toml.Table

/-!
# Documents in TOML

Tables, dotted keys, inline tables and arrays, with integers, floating-point numbers, truth values
and basic and literal strings on one line. An inline table may go over several lines.
-/

namespace LazyMachine.Toml

/-- Whether a character may stand in a comment or a string. -/
def isPrintable (c : Char) : Bool :=
  c = '\t' || (0x20 ≤ c.toNat && c.toNat ≠ 0x7F)

/-- Drops blanks on the line. -/
def skipBlanks (cs : List Char) : List Char :=
  cs.dropWhile fun c => c = ' ' || c = '\t'

/-- Drops blanks, line ends and comments, up to a character that belongs to none of them. -/
def skipSpace (comment : Bool) : List Char → List Char
  | [] => []
  | '\n' :: rest => skipSpace false rest
  | '\r' :: '\n' :: rest => skipSpace false rest
  | c :: rest =>
    if comment then (if isPrintable c then skipSpace true rest else c :: rest)
    else if c = ' ' || c = '\t' then skipSpace false rest
    else if c = '#' then skipSpace true rest
    else c :: rest

/-- Whether nothing but a comment is left on the line. -/
def isLineEnd (cs : List Char) : Bool :=
  match skipBlanks cs with
  | [] | '\n' :: _ | '\r' :: '\n' :: _ | '#' :: _ => true
  | _ => false

/-- Whether a character may stand in a bare key. -/
def isBare (c : Char) : Bool :=
  c.isAlphanum || c = '_' || c = '-'

/-- The character behind a backslash and what both stand for. -/
def escapes : List (Char × Char) :=
  [('b', '\x08'), ('t', '\t'), ('n', '\n'), ('f', '\x0c'), ('r', '\r'), ('e', '\x1b'), ('"', '"'),
    ('\\', '\\')]

/-- A basic string behind its opening quote. -/
def basicString? : (fuel : Nat) → List Char → List Char → Option (String × List Char)
  | 0, _, _ => none
  | fuel + 1, acc, cs =>
    match cs with
    | [] => none
    | '"' :: rest => some (String.ofList acc.reverse, rest)
    | '\\' :: c :: rest =>
      match [('x', 2), ('u', 4), ('U', 8)].lookup c with
      | some n =>
        match Document.readRadix? 16 (rest.take n) with
        | some code =>
          if (rest.take n).length = n ∧ code.isValidChar then
            basicString? fuel (Char.ofNat code :: acc) (rest.drop n)
          else none
        | none => none
      | none =>
        match escapes.lookup c with
        | some d => basicString? fuel (d :: acc) rest
        | none => none
    | c :: rest => if isPrintable c then basicString? fuel (c :: acc) rest else none

/-- A literal string behind its opening quote. -/
def literalString? (cs : List Char) : Option (String × List Char) :=
  let body := cs.takeWhile fun c => c ≠ '\x27' && isPrintable c
  match cs.drop body.length with
  | '\x27' :: rest => some (String.ofList body, rest)
  | _ => none

/-- One part of a key. -/
def keyPart? (cs : List Char) : Option (String × List Char) :=
  match cs with
  | '"' :: rest => basicString? (rest.length + 1) [] rest
  | '\x27' :: rest => literalString? rest
  | cs =>
    let name := cs.takeWhile isBare
    if name.isEmpty then none else some (String.ofList name, cs.drop name.length)

/-- A key of one or several parts; `fuel` bounds their number. -/
def key? : (fuel : Nat) → List Char → Option (List String × List Char)
  | 0, _ => none
  | fuel + 1, cs =>
    match keyPart? (skipBlanks cs) with
    | none => none
    | some (name, rest) =>
      match skipBlanks rest with
      | '.' :: rest => (key? fuel rest).map fun (names, rest) => (name :: names, rest)
      | rest => some ([name], rest)

/-- The digits of a number without the underscores, each of which stands between two digits. -/
def withoutUnderscores? (isDigit : Char → Bool) (cs : List Char) : Option (List Char) :=
  let good := (cs.zip (cs.drop 1)).all fun (a, b) =>
    (a ≠ '_' || isDigit b) && (b ≠ '_' || isDigit a)
  if good ∧ cs.head? ≠ some '_' ∧ cs.getLast? ≠ some '_' then some (cs.filter (· ≠ '_')) else none

/-- Whether a point stands before something other than a digit. -/
def hasBadPoint (cs : List Char) : Bool :=
  match cs.dropWhile (· ≠ '.') with
  | _ :: c :: _ => !c.isDigit
  | _ => false

/-- A decimal number behind its sign, which has no leading zeros. -/
def decimal? (negative : Bool) (cs : List Char) : Option Document := do
  let cs ← withoutUnderscores? Char.isDigit cs
  let signed := String.ofList (if negative then '-' :: cs else cs)
  let whole := cs.takeWhile Char.isDigit
  if cs = "inf".toList ∨ cs = "nan".toList then (Decimal.readDouble? signed).map .float
  else if whole.isEmpty ∨ (1 < whole.length ∧ whole.head? = some '0') then none
  else if whole = cs then (Document.plainDecimal? signed.toList).map .integer
  else if cs.getLast?.any Char.isDigit ∧ !hasBadPoint cs then
    (Decimal.readDouble? signed).map .float
  else none

/-- A number. One with a radix has no sign. -/
def number? : List Char → Option Document
  | '-' :: cs => decimal? true cs
  | '+' :: cs => decimal? false cs
  | '0' :: r :: cs =>
    match Document.radices.lookup r with
    | none => decimal? false ('0' :: r :: cs)
    | some radix => do
      let isDigit (c : Char) : Bool := (Document.readRadix? radix [c]).isSome
      let n ← Document.readRadix? radix (← withoutUnderscores? isDigit cs)
      if n < Word.count 128 then some (.integer n) else none
  | cs => decimal? false cs

mutual

/-- A value. -/
def value? : (fuel : Nat) → List Char → Option (Document × List Char)
  | 0, _ => none
  | fuel + 1, cs =>
    match cs with
    | '"' :: rest => (basicString? (rest.length + 1) [] rest).map fun (s, r) => (.text s, r)
    | '\x27' :: rest => (literalString? rest).map fun (s, r) => (.text s, r)
    | '[' :: rest =>
      (items? fuel (skipSpace false rest)).map fun (l, r) =>
        (if l.isEmpty then .void else .sequence l, r)
    | '\x7b' :: rest =>
      (inline? fuel [] (skipSpace false rest)).map fun (fields, r) =>
        (collection (toFields fields), r)
    | cs =>
      let word := cs.takeWhile fun c => c.isAlphanum || c ∈ ['_', '-', '+', '.']
      let rest := cs.drop word.length
      if word = "true".toList then some (.bool true, rest)
      else if word = "false".toList then some (.bool false, rest)
      else (number? word).map (·, rest)

/-- The items of an array up to its end. -/
def items? : (fuel : Nat) → List Char → Option (List Document × List Char)
  | 0, _ => none
  | fuel + 1, cs =>
    match cs with
    | ']' :: rest => some ([], rest)
    | cs =>
      match value? fuel cs with
      | none => none
      | some (item, rest) =>
        match skipSpace false rest with
        | ',' :: rest => (items? fuel (skipSpace false rest)).map fun (l, r) => (item :: l, r)
        | ']' :: rest => some ([item], rest)
        | _ => none

/-- The fields of an inline table up to its end, added to those gathered. -/
def inline? : (fuel : Nat) → Fields → List Char → Option (Fields × List Char)
  | 0, _, _ => none
  | _ + 1, gathered, '\x7d' :: rest => some (gathered, rest)
  | fuel + 1, gathered, cs =>
    match key? (cs.length + 1) cs with
    | some (path, '=' :: rest) =>
      match value? fuel (skipBlanks rest) with
      | none => none
      | some (value, rest) =>
        match gathered.insert? path value, skipSpace false rest with
        | some gathered, ',' :: rest => inline? fuel gathered (skipSpace false rest)
        | some gathered, '\x7d' :: rest => some (gathered, rest)
        | _, _ => none
    | _ => none

end

/-- Reads headings and keys until the text ends; the keys belong to the table under `table`, and
`fuel` bounds their number. -/
def lines? : (fuel : Nat) → Fields → (table : List String) → List Char → Option Fields
  | 0, _, _, _ => none
  | fuel + 1, fields, table, cs =>
    match skipSpace false cs with
    | [] => some fields
    | '[' :: rest =>
      match key? (rest.length + 1) rest with
      | some (path, ']' :: rest) =>
        if isLineEnd rest then
          (fields.openTable? path).bind fun fields => lines? fuel fields path rest
        else none
      | _ => none
    | cs =>
      match key? (cs.length + 1) cs with
      | some (path, '=' :: rest) =>
        match value? (rest.length + 1) (skipBlanks rest) with
        | none => none
        | some (value, rest) =>
          if isLineEnd rest then
            (fields.insertIn? table path value).bind fun fields => lines? fuel fields table rest
          else none
      | _ => none

/-- Reads a text, which may begin with a byte order mark. -/
def parse? (text : String) : Option Document :=
  let cs := match text.toList with
    | '\ufeff' :: cs => cs
    | cs => cs
  (lines? (cs.length + 2) [] [] cs).map fun fields => collection (toFields fields)

end LazyMachine.Toml
