import LazyMachine.CommandLine.Basic
import LazyMachine.Postfix.Continuation

/-!
# The interactive evaluator

Postfix sources are read line by line and evaluated one after another; a line that starts with a
colon is a command. `advance` answers one line, so that a terminal can be served line by line, and
`run` answers a whole input.
-/

namespace LazyMachine.CommandLine.Repl

/-- The greeting. -/
def greeting : String :=
  "fen repl: postfix expressions, :help for commands\n"

/-- The help. -/
def help : String :=
  "Commands: :quit | :exit | :q, :help\n" ++
  "Words: literals (1, 2L, 1.5, 1.5f, \"s\", 'c', true, ()), " ++
  "operators (+ - * / % rem ** == <> < ++ ::),\n" ++
  "       nil empty list:N rec:a,b tag:Name as:Type dup swap pop " ++
  "len head tail isnil at put show force\n"

/-- The commands that end the evaluator. -/
def quitters : List String :=
  [":quit", ":exit", ":q"]

/-- Evaluates a gathered source; blank ones are passed over. -/
def evaluateSource (level : Nat) (settings : Settings) (text : List Char) : Result :=
  let source := Text.trimEnd text
  if (Text.trim source).isEmpty then {}
  else
    match (compileSource (String.ofList source)).bind (execute level settings false) with
    | .ok text => { stdout := text ++ "\n" }
    | .error e => { stderr := e.line false }

/-- What becomes of the evaluator after a line. -/
inductive Reply where
  /-- It ends. -/
  | quit
  /-- It goes on with the lines gathered, having written something. -/
  | next (text : List Char) (written : Result)
deriving DecidableEq, Repr

/-- A line with every backspace taking back the character before it. -/
def applyBackspaces (line : List Char) : List Char :=
  (line.foldl (fun kept c => if c = '\x08' then kept.tail else c :: kept) []).reverse

/-- Answers a line. Commands are read only where a source starts. -/
def advance (level : Nat) (settings : Settings) (text line : List Char) : Reply :=
  let line := applyBackspaces line
  let command := String.ofList (Text.trimEnd line)
  if text.isEmpty && command.startsWith ":" then
    if command ∈ quitters then .quit
    else if command = ":help" then .next [] { stderr := help }
    else .next [] { stderr := "Unknown command. Type :help for help.\n" }
  else
    match Postfix.gather text line with
    | .more text => .next text {}
    | .complete text => .next [] (evaluateSource level settings text)

/-- What is written at the end of the input. -/
def finish (level : Nat) (settings : Settings) (text : List Char) : Result :=
  let last := evaluateSource level settings text
  { last with stdout := last.stdout ++ "\n" }

/-- Answers lines until a command to quit or the end of the input. -/
def runFrom (level : Nat) (settings : Settings) (text : List Char) : List (List Char) → Result
  | [] => finish level settings text
  | line :: lines =>
    match advance level settings text line with
    | .quit => {}
    | .next text written => (runFrom level settings text lines).after written

/-- Answers a whole input. -/
def run (level : Nat) (settings : Settings) (stdin : String) : Result :=
  (runFrom level settings [] (Text.linesOf stdin)).after { stderr := greeting }

end LazyMachine.CommandLine.Repl
