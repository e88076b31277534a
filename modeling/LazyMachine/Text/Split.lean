/-!
# Splitting and joining text

Splitting at the first or at every occurrence of a character, the lines of a text, and texts between
brackets.
-/

namespace LazyMachine.Text

/-- Splits at the first occurrence of a character. -/
def splitOnce? (c : Char) (cs : List Char) : Option (List Char × List Char) :=
  match cs.dropWhile (· ≠ c) with
  | _ :: rest => some (cs.takeWhile (· ≠ c), rest)
  | [] => none

/-- Splits at every occurrence of a character. -/
def splitAll (c : Char) : List Char → List (List Char)
  | [] => [[]]
  | d :: cs =>
    if d = c then [] :: splitAll c cs
    else
      match splitAll c cs with
      | first :: rest => (d :: first) :: rest
      | [] => [[d]]

/-- The lines of a text; what follows the last line end is a line unless it is empty. -/
def linesOf (text : String) : List (List Char) :=
  let lines := splitAll '\n' text.toList
  if lines.getLast? = some [] then lines.dropLast else lines

/-- Texts between brackets, with a separator between each two of them. -/
def enclose (opening closing separator : String) (items : List String) : String :=
  opening ++ String.intercalate separator items ++ closing

/-- Texts between square brackets, separated by commas and blanks. -/
def listed (items : List String) : String :=
  enclose "[" "]" ", " items

/-- Texts between braces, separated by commas and blanks. -/
def braced (items : List String) : String :=
  enclose "\x7b" "\x7d" ", " items

end LazyMachine.Text
