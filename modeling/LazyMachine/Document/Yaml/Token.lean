import LazyMachine.Document.Yaml.Scalar

/-!
# Tokens of YAML

A text is cut into tokens from left to right. A block collection is recognised by the column in
which its entries start: an entry to the right of all open collections opens one, and a token to the
left of an open collection closes it. That a scalar or a flow collection was a key shows only at the
colon behind it, so the tokens of a key and of the mapping that it opens are put in front of it
then. Directives, anchors, aliases, tags and block scalars are refused.
-/

namespace LazyMachine.Yaml

/-- A token. -/
inductive Token where
  /-- The mark before a document. -/
  | documentStart
  /-- The mark behind a document. -/
  | documentEnd
  /-- A block sequence opens. -/
  | blockSequence
  /-- A block mapping opens. -/
  | blockMapping
  /-- A block collection closes. -/
  | blockEnd
  /-- An opening square bracket. -/
  | flowSequence
  /-- A closing square bracket. -/
  | flowSequenceEnd
  /-- An opening brace. -/
  | flowMapping
  /-- A closing brace. -/
  | flowMappingEnd
  /-- The dash before an entry of a block sequence. -/
  | entry
  /-- The comma between entries of a flow collection. -/
  | comma
  /-- A key follows. -/
  | key
  /-- A value follows. -/
  | value
  /-- A scalar. -/
  | scalar (d : Document)
deriving Inhabited

/-- The start of what may turn out to be a key. -/
structure KeyStart where
  /-- Where it is. -/
  place : Place
  /-- The number of tokens before it. -/
  before : Nat
  /-- Whether it must turn out to be one. -/
  required : Bool
deriving DecidableEq, Repr

/-- The number of characters that a key on one line may have. -/
def keyLimit : Nat := 1024

/-- The number of flow collections that may be open at a time. -/
def flowLimit : Nat := 255

/-- Whether a start of a key no longer counts at a place: a key lies on one line. -/
def KeyStart.isStale (k : KeyStart) (p : Place) : Bool :=
  k.place.line < p.line || k.place.index + keyLimit < p.index

/-- What is known in the middle of a text. -/
structure Scanner where
  /-- The rest of the text. -/
  rest : List Char
  /-- Where it starts. -/
  place : Place := {}
  /-- The tokens so far. -/
  tokens : Array Token := #[]
  /-- The columns of the open block collections, the innermost first. -/
  columns : List Nat := []
  /-- Whether a key may start here. -/
  keyAllowed : Bool := true
  /-- The start of a key at the present level, if there is one. -/
  keyStart : Option KeyStart := none
  /-- The same for the levels outside of each open flow collection, the innermost first. -/
  outerKeyStarts : List (Option KeyStart) := []
  /-- Where a quoted scalar has ended last: a colon right there ends a key. -/
  quoteEnd : Nat := 0

namespace Scanner

/-- Whether a flow collection is open. -/
def inFlow (s : Scanner) : Bool :=
  !s.outerKeyStarts.isEmpty

/-- Adds a token. -/
def emit (s : Scanner) (t : Token) : Scanner :=
  { s with tokens := s.tokens.push t }

/-- Moves behind the next `n` characters. -/
def advance (s : Scanner) (n : Nat) : Scanner :=
  { s with rest := s.rest.drop n, place := s.place.behind (s.rest.take n) }

/-- Allows or forbids that a key starts here. -/
def allowKey (s : Scanner) (allowed : Bool) : Scanner :=
  { s with keyAllowed := allowed }

/-- Moves over blanks, line ends and comments to the next token. A line end in a block allows a key,
and where a key may start in a block, a tab is no blank. -/
def skipSpace (flow comment allowed : Bool) (p : Place) :
    List Char → Bool × Place × List Char
  | [] => (allowed, p, [])
  | c :: rest =>
    if isBreak c then skipSpace flow false (allowed || !flow) (p.after c) rest
    else if comment || c = ' ' || (c = '\t' && (flow || !allowed)) then
      skipSpace flow comment allowed (p.after c) rest
    else if c = '#' then skipSpace flow true allowed (p.after c) rest
    else (allowed, p, c :: rest)

/-- Moves to the next token. -/
def toToken (s : Scanner) : Scanner :=
  let (keyAllowed, place, rest) := skipSpace s.inFlow false s.keyAllowed s.place s.rest
  { s with keyAllowed, place, rest }

/-- Forgets the starts of keys that no longer count; none of them may be required. -/
def dropStale? (s : Scanner) : Option Scanner :=
  let isStale (k : Option KeyStart) : Bool := k.any (·.isStale s.place)
  let starts := s.keyStart :: s.outerKeyStarts
  if starts.any fun k => isStale k && k.any (·.required) then none
  else
    let fresh (k : Option KeyStart) : Option KeyStart := if isStale k then none else k
    some { s with keyStart := fresh s.keyStart, outerKeyStarts := s.outerKeyStarts.map fresh }

/-- Forgets the start of a key at the present level, which may not be required. -/
def dropKeyStart? (s : Scanner) : Option Scanner :=
  if s.keyStart.any (·.required) then none else some { s with keyStart := none }

/-- Remembers that a key may start here. In a flow collection one that stands in the column of the
innermost block collection has to be a key. -/
def saveKeyStart? (s : Scanner) : Option Scanner :=
  if s.keyAllowed then
    s.dropKeyStart?.map fun s =>
      let required := s.inFlow && s.columns.head? = some s.place.column
      { s with keyStart := some ⟨s.place, s.tokens.size, required⟩ }
  else some s

/-- Closes the block collections right of a column, or all of them. -/
def closeBlocks (s : Scanner) (column : Option Nat) : Scanner :=
  if s.inFlow then s
  else
    let closed := s.columns.takeWhile fun c => column.all (· < c)
    { s with
      columns := s.columns.drop closed.length
      tokens := s.tokens ++ Array.replicate closed.length Token.blockEnd }

/-- Opens a block collection in a column unless one is open there, with its token in front of
those from number `before` on. -/
def openBlock (s : Scanner) (column before : Nat) (t : Token) : Scanner :=
  if s.inFlow || isOutside s.columns column then s
  else
    { s with columns := column :: s.columns, tokens := s.tokens.insertIdxIfInBounds before t }

/-- Reads a mark before or behind a document. -/
def documentMark? (s : Scanner) (t : Token) : Option Scanner :=
  (s.closeBlocks none).dropKeyStart?.map fun s => ((s.allowKey false).advance 3).emit t

/-- Reads a mark that opens a flow collection. -/
def flowStart? (s : Scanner) (t : Token) : Option Scanner :=
  if s.outerKeyStarts.length < flowLimit then
    s.saveKeyStart?.map fun s =>
      let s := { s with keyStart := none, outerKeyStarts := s.keyStart :: s.outerKeyStarts }
      ((s.allowKey true).advance 1).emit t
  else none

/-- Reads a mark that closes a flow collection. -/
def flowEnd? (s : Scanner) (t : Token) : Option Scanner :=
  s.dropKeyStart?.map fun s =>
    let s := match s.outerKeyStarts with
      | [] => s
      | k :: outer => { s with keyStart := k, outerKeyStarts := outer }
    ((s.allowKey false).advance 1).emit t

/-- Reads the comma of a flow collection. -/
def comma? (s : Scanner) : Option Scanner :=
  s.dropKeyStart?.map fun s => ((s.allowKey true).advance 1).emit .comma

/-- Reads the dash before an entry of a block sequence. -/
def entry? (s : Scanner) : Option Scanner :=
  if s.inFlow || !s.keyAllowed then none
  else
    (s.openBlock s.place.column s.tokens.size .blockSequence).dropKeyStart?.map fun s =>
      ((s.allowKey true).advance 1).emit .entry

/-- Reads a question mark, which announces a key. -/
def key? (s : Scanner) : Option Scanner :=
  if !s.inFlow && !s.keyAllowed then none
  else
    (s.openBlock s.place.column s.tokens.size .blockMapping).dropKeyStart?.map fun s =>
      ((s.allowKey !s.inFlow).advance 1).emit .key

/-- Reads a colon. It makes a key of what started at the present level, or ends a key that was
announced. -/
def value? (s : Scanner) : Option Scanner :=
  match s.keyStart with
  | some k =>
    let s := { s with keyStart := none, tokens := s.tokens.insertIdxIfInBounds k.before .key }
    some ((((s.openBlock k.place.column k.before .blockMapping).allowKey false).advance 1).emit
      .value)
  | none =>
    if !s.inFlow && !s.keyAllowed then none
    else
      let s := s.openBlock s.place.column s.tokens.size .blockMapping
      some (((s.allowKey !s.inFlow).advance 1).emit .value)

/-- Goes on behind a scalar. -/
def accept (s : Scanner) (r : Reading) : Scanner :=
  { s with rest := r.rest, place := r.place, keyAllowed := r.crossed }.emit (.scalar r.scalar)

/-- Reads a quoted scalar. -/
def quoted? (s : Scanner) (q : Quote) : Option Scanner :=
  s.saveKeyStart?.bind fun s =>
    let start := s.advance 1
    (Yaml.quoted? q (start.rest.length + 1) [] {} start.place start.rest).map fun r =>
      { s.accept r with quoteEnd := r.place.index }

/-- Reads a plain scalar. -/
def plain? (s : Scanner) : Option Scanner :=
  s.saveKeyStart?.bind fun s =>
    (Yaml.plain? s.inFlow s.columns [] {} s.place s.rest).map s.accept

/-- Whether a colon ends a key here. -/
def endsKey (s : Scanner) (rest : List Char) : Bool :=
  isApart rest || (s.inFlow && (startsWithFlowMark rest || s.place.index = s.quoteEnd))

/-- Reads the next token, where the text has not ended. -/
def token? (s : Scanner) : Option Scanner :=
  if s.place.column = 0 && startsWithThree '-' s.rest then s.documentMark? .documentStart
  else if s.place.column = 0 && startsWithThree '.' s.rest then s.documentMark? .documentEnd
  else
    match s.rest with
    | [] => none
    | '[' :: _ => s.flowStart? .flowSequence
    | '\x7b' :: _ => s.flowStart? .flowMapping
    | ']' :: _ => s.flowEnd? .flowSequenceEnd
    | '\x7d' :: _ => s.flowEnd? .flowMappingEnd
    | ',' :: _ => s.comma?
    | '-' :: rest => if isApart rest then s.entry? else s.plain?
    | '?' :: rest => if isApart rest then s.key? else s.plain?
    | ':' :: rest => if s.endsKey rest then s.value? else s.plain?
    | '\x27' :: _ => s.quoted? .single
    | '"' :: _ => s.quoted? .double
    | c :: _ =>
      if c ∈ ['*', '&', '!', '%', '@', '\x60'] then none
      else if c ∈ ['|', '>'] && !s.inFlow then none
      else s.plain?

/-- Reads tokens until the text ends; `fuel` bounds their number. -/
def run? : (fuel : Nat) → Scanner → Option (List Token)
  | 0, _ => none
  | fuel + 1, s =>
    s.toToken.dropStale?.bind fun s =>
      match s.rest with
      | [] => (s.closeBlocks none).dropKeyStart?.map (·.tokens.toList)
      | _ => ((s.closeBlocks (some s.place.column)).token?).bind (run? fuel)

end Scanner

/-- The tokens of a text, which ends before the first null character. -/
def tokens? (text : String) : Option (List Token) :=
  let cs := text.toList.takeWhile (· ≠ '\x00')
  Scanner.run? (cs.length + 1) { rest := cs }

end LazyMachine.Yaml
