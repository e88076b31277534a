/-!
# Places in a text

Where a reader stands in a text, the classes of characters that it tells apart, and the marks that
begin and end a document.
-/

namespace LazyMachine.Yaml

/-- A place in a text. Lines and columns count from zero. -/
structure Place where
  /-- The number of characters before the place. -/
  index : Nat := 0
  /-- The number of line feeds before it. -/
  line : Nat := 0
  /-- The number of characters before it on its line. -/
  column : Nat := 0
deriving DecidableEq, Repr, Inhabited

/-- The place behind a character. Only a line feed begins a line. -/
def Place.after (p : Place) (c : Char) : Place :=
  if c = '\n' then ⟨p.index + 1, p.line + 1, 0⟩ else ⟨p.index + 1, p.line, p.column + 1⟩

/-- The place behind several characters. -/
def Place.behind (p : Place) (cs : List Char) : Place :=
  cs.foldl Place.after p

/-- Whether a character is a blank on a line. -/
def isBlank (c : Char) : Bool :=
  c = ' ' || c = '\t'

/-- Whether a character ends a line. -/
def isBreak (c : Char) : Bool :=
  c = '\n' || c = '\r'

/-- Whether a rest of text is empty or starts with a blank or a line end. -/
def isApart : List Char → Bool
  | [] => true
  | c :: _ => isBlank c || isBreak c

/-- Whether a character belongs to the notation of flow collections. -/
def isFlowMark (c : Char) : Bool :=
  c = ',' || c = '[' || c = ']' || c = '\x7b' || c = '\x7d'

/-- Whether a rest of text starts with a mark of flow collections. -/
def startsWithFlowMark : List Char → Bool
  | [] => false
  | c :: _ => isFlowMark c

/-- Whether a rest of text starts with three of a character that stand by themselves. -/
def startsWithThree (c : Char) : List Char → Bool
  | x :: y :: z :: rest => x = c && y = c && z = c && isApart rest
  | _ => false

/-- Whether a document begins or ends here, which takes a mark at the start of a line. -/
def isDocumentMark (p : Place) (cs : List Char) : Bool :=
  p.column = 0 && (startsWithThree '-' cs || startsWithThree '.' cs)

end LazyMachine.Yaml
