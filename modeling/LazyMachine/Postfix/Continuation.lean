import LazyMachine.Postfix.Token

/-!
# Sources of several lines

A line that ends inside a literal, or with a backslash outside of one, is continued on the next.
The continued lines are gathered into one source; blanks at the end of each line are dropped.
-/

namespace LazyMachine.Postfix

/-- Whether a text is inside a literal at its end, and inside of which. A literal starts at a quote
anywhere; inside, a backslash hides the character that follows it. -/
def openQuote? : (quote : Option Char) → (escaped : Bool) → List Char → Option Char
  | quote, _, [] => quote
  | none, _, c :: cs =>
    if c = '"' ∨ c = '\'' then openQuote? (some c) false cs else openQuote? none false cs
  | some q, true, _ :: cs => openQuote? (some q) false cs
  | some q, false, c :: cs =>
    if c = '\\' then openQuote? (some q) true cs
    else if c = q then openQuote? none false cs
    else openQuote? (some q) false cs

/-- Whether another line is needed. -/
def needsMore (text : List Char) : Bool :=
  match openQuote? none false text with
  | some _ => true
  | none => (Text.trimEnd text).getLast? = some '\\'

/-- What a line makes of the lines gathered before it. -/
inductive Gathered where
  /-- Another line is needed. -/
  | more (text : List Char)
  /-- The source is complete. -/
  | complete (text : List Char)
deriving DecidableEq, Repr

/-- Adds a line. A backslash at the end that asks for another line is dropped. -/
def gather (text line : List Char) : Gathered :=
  let line := Text.trimEnd line
  if line.getLast? = some '\\' && needsMore (text ++ line) then
    .more (text ++ line.dropLast ++ ['\n'])
  else
    let text := text ++ line ++ ['\n']
    if needsMore text then .more text else .complete text

end LazyMachine.Postfix
