import LazyMachine.Text.Blank

/-!
# Tokens of the postfix language

A source is a sequence of words, strings and characters. Words end at blanks; strings stand between
double quotes and characters between single quotes, with backslash escapes. The scanner reads one
character at a time; `Scan` is what it has read of the token under way.
-/

namespace LazyMachine.Postfix

/-- A token. -/
inductive Token where
  | word (text : String)
  | str (text : String)
  | char (c : Char)
deriving DecidableEq, Repr

/-- The two kinds of literals between quotes. -/
inductive Quote where
  | double
  | single
deriving DecidableEq, Repr

/-- The delimiter of a literal. -/
def Quote.mark : Quote → Char
  | .double => '"'
  | .single => '\''

/-- The literal that a character opens. -/
def Quote.ofMark? (c : Char) : Option Quote :=
  if c = '"' then some .double else if c = '\'' then some .single else none

/-- The name of the literal. -/
def Quote.name : Quote → String
  | .double => "string"
  | .single => "char"

/-- Why a source is refused. -/
inductive Error where
  /-- A literal is not closed. -/
  | unterminated (q : Quote)
  /-- A character literal holds none or several characters. -/
  | charLength (text : String)
  /-- A backslash stands before a character that it does not escape. -/
  | unknownEscape (c : Char)
  /-- The source ends with a backslash inside a literal. -/
  | danglingEscape
  /-- A word means nothing. -/
  | unknownWord (word : String)
  /-- A word needs a count. -/
  | expectedCount (word argument : String)
  /-- There is no kind of this name. -/
  | unknownType (name : String)
  /-- The source holds no token. -/
  | nothing
deriving DecidableEq, Repr

/-- The text of an error. -/
def Error.message : Error → String
  | .unterminated q => "unterminated " ++ q.name ++ " literal"
  | .charLength text => "char literal '" ++ text ++ "' must hold exactly one character"
  | .unknownEscape c => "unknown escape '\\" ++ String.singleton c ++ "'"
  | .danglingEscape => "dangling escape at end of input"
  | .unknownWord word => "unknown word '" ++ word ++ "'"
  | .expectedCount word argument =>
    "`" ++ word ++ "` expects a count, got '" ++ argument ++ "'"
  | .unknownType name => "unknown type '" ++ name ++ "'"
  | .nothing => "nothing to evaluate"

/-- The character behind a backslash. -/
def unescape? (c : Char) : Option Char :=
  match c with
  | 'n' => some '\n'
  | 't' => some '\t'
  | 'r' => some '\r'
  | '0' => some '\x00'
  | c => if c = '\\' ∨ c = '"' ∨ c = '\'' then some c else none

/-- What has been read of the token under way, the last character first. -/
inductive Scan where
  /-- No token is under way. -/
  | between
  /-- A word. -/
  | word (read : List Char)
  /-- A literal. -/
  | literal (q : Quote) (read : List Char)
  /-- A literal after a backslash. -/
  | escaped (q : Quote) (read : List Char)
deriving DecidableEq, Repr

/-- The token of a closed literal. -/
def close (q : Quote) (read : List Char) : Except Error Token :=
  match q, read with
  | .double, read => .ok (.str (String.ofList read.reverse))
  | .single, [c] => .ok (.char c)
  | .single, read => .error (.charLength (String.ofList read.reverse))

/-- Reads the rest of a source. -/
def scan : Scan → List Char → Except Error (List Token)
  | .between, [] => .ok []
  | .between, c :: cs =>
    if Text.isBlank c then scan .between cs
    else
      match Quote.ofMark? c with
      | some q => scan (.literal q []) cs
      | none => scan (.word [c]) cs
  | .word read, [] => .ok [.word (String.ofList read.reverse)]
  | .word read, c :: cs =>
    if Text.isBlank c then
      (scan .between cs).map (.word (String.ofList read.reverse) :: ·)
    else scan (.word (c :: read)) cs
  | .literal q _, [] => .error (.unterminated q)
  | .literal q read, c :: cs =>
    if c = q.mark then
      match close q read with
      | .ok token => (scan .between cs).map (token :: ·)
      | .error e => .error e
    else if c = '\\' then scan (.escaped q read) cs
    else scan (.literal q (c :: read)) cs
  | .escaped _ _, [] => .error .danglingEscape
  | .escaped q read, c :: cs =>
    match unescape? c with
    | some d => scan (.literal q (d :: read)) cs
    | none => .error (.unknownEscape c)

/-- The tokens of a source. -/
def tokenize (source : String) : Except Error (List Token) :=
  scan .between source.toList

end LazyMachine.Postfix
