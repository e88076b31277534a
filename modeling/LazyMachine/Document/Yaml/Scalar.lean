import LazyMachine.Document.Basic
import LazyMachine.Document.Yaml.Place

/-!
# Scalars in YAML

Plain and quoted scalars, which may go over several lines. Between two words of a scalar the blanks
around a line end are dropped; one line end then stands for a blank and each further one for itself.
-/

namespace LazyMachine.Yaml

/-- What stands between two words of a scalar. -/
structure Gap where
  /-- The blanks before the first line end, the last first. -/
  blanks : List Char := []
  /-- The number of line ends. -/
  breaks : Nat := 0
  /-- Whether the gap begins with a line end behind a backslash, which stands for nothing. -/
  joined : Bool := false
deriving DecidableEq, Repr, Inhabited

namespace Gap

/-- Whether the gap goes over the end of a line. -/
def crosses (g : Gap) : Bool :=
  g.joined || 0 < g.breaks

/-- Whether nothing stands between the words. -/
def isEmpty (g : Gap) : Bool :=
  g.blanks.isEmpty && !g.crosses

/-- The gap with a blank at its end. -/
def addBlank (g : Gap) (c : Char) : Gap :=
  if g.crosses then g else { g with blanks := c :: g.blanks }

/-- The gap with a line end at its end. -/
def addBreak (g : Gap) : Gap :=
  { g with breaks := g.breaks + 1 }

/-- What the gap stands for, the last character first. -/
def folded (g : Gap) : List Char :=
  if g.joined then List.replicate g.breaks '\n'
  else
    match g.breaks with
    | 0 => g.blanks
    | 1 => [' ']
    | n + 1 => List.replicate n '\n'

end Gap

/-- A scalar that has been read, and how the text goes on. -/
structure Reading where
  /-- The scalar. -/
  scalar : Document
  /-- Whether a line end has been read behind the last word. -/
  crossed : Bool
  /-- The place where the text goes on. -/
  place : Place
  /-- The rest of the text. -/
  rest : List Char

/-- Whether a plain scalar ends before a character: at a colon that ends a key and, in a flow
collection, at a mark of such collections. -/
def endsPlain (flow : Bool) (c : Char) (rest : List Char) : Bool :=
  (c = ':' && (isApart rest || (flow && startsWithFlowMark rest))) || (flow && isFlowMark c)

/-- Whether a column lies in or left of the innermost of some columns. -/
def isOutside (columns : List Nat) (column : Nat) : Bool :=
  columns.head?.any (column ≤ ·)

/-- Reads a plain scalar. `columns` are those of the block collections around it, the innermost
first. Behind a gap a comment, a mark of a document or, in a block, a column outside of the
innermost collection ends the scalar. A tab may not stand in for indentation. -/
def plain? (flow : Bool) (columns : List Nat) (acc : List Char) (gap : Gap) (p : Place) :
    List Char → Option Reading
  | [] => some ⟨.plain (String.ofList acc.reverse), gap.crosses, p, []⟩
  | c :: rest =>
    if isBlank c then
      if gap.crosses && c = '\t' && isOutside columns p.column then none
      else plain? flow columns acc (gap.addBlank c) (p.after c) rest
    else if c = '\r' && rest.head? = some '\n' then
      plain? flow columns acc gap (p.after c) rest
    else if isBreak c then
      plain? flow columns acc gap.addBreak (p.after c) rest
    else if (!gap.isEmpty && (c = '#' || isDocumentMark p (c :: rest) ||
        (!flow && isOutside columns p.column))) || endsPlain flow c rest then
      some ⟨.plain (String.ofList acc.reverse), gap.crosses, p, c :: rest⟩
    else plain? flow columns (c :: (gap.folded ++ acc)) {} (p.after c) rest

/-- The two kinds of quotes. -/
inductive Quote where
  | single
  | double
deriving DecidableEq, Repr

/-- The character that opens and closes a quoted scalar. -/
def Quote.mark : Quote → Char
  | .single => '\x27'
  | .double => '"'

/-- The character behind a backslash and what both stand for. -/
def escapes : List (Char × Char) :=
  [('0', '\x00'), ('a', '\x07'), ('b', '\x08'), ('t', '\t'), ('\t', '\t'), ('n', '\n'),
    ('v', '\x0b'), ('f', '\x0c'), ('r', '\r'), ('e', '\x1b'), (' ', ' '), ('"', '"'),
    ('\x27', '\x27'), ('\\', '\\'), ('N', '\u0085'), ('_', '\u00a0'), ('L', '\u2028'),
    ('P', '\u2029')]

/-- The letters behind a backslash that announce hexadecimal digits, and the number of these. -/
def codeEscapes : List (Char × Nat) :=
  [('x', 2), ('u', 4), ('U', 8)]

/-- What an escape behind its backslash stands for, with the characters that it takes. -/
def escape? : List Char → Option (Char × List Char)
  | [] => none
  | c :: rest =>
    match codeEscapes.lookup c with
    | none => (escapes.lookup c).map (·, [c])
    | some n =>
      match Document.readRadix? 16 (rest.take n) with
      | some code =>
        if (rest.take n).length = n ∧ code.isValidChar then
          some (Char.ofNat code, c :: rest.take n)
        else none
      | none => none

/-- Reads a quoted scalar behind its opening mark. A mark of a document may not stand in it;
`fuel` bounds the characters. -/
def quoted? (q : Quote) : (fuel : Nat) → (acc : List Char) → Gap → Place → List Char →
    Option Reading
  | 0, _, _, _, _ => none
  | _ + 1, _, _, _, [] => none
  | fuel + 1, acc, gap, p, c :: rest =>
    if isDocumentMark p (c :: rest) then none
    else if isBlank c then quoted? q fuel acc (gap.addBlank c) (p.after c) rest
    else if c = '\r' && rest.head? = some '\n' then quoted? q fuel acc gap (p.after c) rest
    else if isBreak c then quoted? q fuel acc gap.addBreak (p.after c) rest
    else
      let acc := gap.folded ++ acc
      if c = q.mark then
        if q = .single && rest.head? = some c then
          quoted? q fuel (c :: acc) {} (p.behind [c, c]) (rest.drop 1)
        else some ⟨.text (String.ofList acc.reverse), false, p.after c, rest⟩
      else if q = .double && c = '\\' then
        match rest with
        | '\r' :: '\n' :: rest =>
          quoted? q fuel acc { joined := true } (p.behind [c, '\r', '\n']) rest
        | x :: rest =>
          if isBreak x then quoted? q fuel acc { joined := true } (p.behind [c, x]) rest
          else
            match escape? (x :: rest) with
            | some (y, taken) =>
              quoted? q fuel (y :: acc) {} (p.behind (c :: taken)) (rest.drop (taken.length - 1))
            | none => none
        | [] => none
      else quoted? q fuel (c :: acc) {} (p.after c) rest

end LazyMachine.Yaml
