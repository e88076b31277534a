import LazyMachine.Document.Toml
import LazyMachine.Evaluation
import LazyMachine.Files
import LazyMachine.Postfix.Compile

/-!
# Commands on files and expressions

Loading settings and programs from files, and evaluating them. An error keeps its cause: `message`
gives the error alone and `report` the error with what caused it.
-/

namespace LazyMachine.CommandLine

/-- Why a command failed. -/
inductive Error where
  /-- A file could not be read. -/
  | unreadable (path : String) (cause : ReadError)
  /-- A file holds no settings. -/
  | invalidConfig (path : String)
  /-- A format spec means nothing. -/
  | invalidSpec (spec : String)
  /-- A program file has another extension than those known. -/
  | unsupported (path : String)
  /-- A program could not be loaded. -/
  | load (e : LoadError)
  /-- A postfix source was refused. -/
  | source (e : Postfix.Error)
  /-- The evaluation gave no value. -/
  | host (e : HostError)
  /-- The evaluation was cut off. -/
  | cut
deriving DecidableEq, Repr

/-- The text of an error without its causes. -/
def Error.message : Error → String
  | .unreadable path _ => "Failed to read file: " ++ path
  | .invalidConfig path => "Invalid config file: " ++ path
  | .invalidSpec spec => "Invalid format spec '" ++ spec ++ "'"
  | .unsupported path =>
    "Unsupported program file '" ++ path ++ "': expected .json, .yaml or .yml"
  | .load e => e.message
  | .source e => e.message
  | .host e => e.message
  | .cut => "evaluation cut off"

/-- The text of an error with its causes. -/
def Error.report : Error → String
  | .unreadable path cause => "Failed to read file: " ++ path ++ ": " ++ cause.message
  | e => e.message

/-- The line that reports an error. With `json` a failure of the evaluation is written as JSON. -/
def Error.line (json : Bool) : Error → String
  | .host (.runtime e) =>
    if json then e.toJson.compact ++ "\n" else "Error: " ++ e.display ++ "\n"
  | e => "Error: " ++ e.report ++ "\n"

/-- Reads a file. -/
def readFile (files : Files) (path : String) : Except Error String :=
  (files path).mapError (.unreadable path)

/-- The settings of a file, if one is given, with the overrides of the command line. A format spec
keeps the number of elements to show. -/
def loadSettings (files : Files) (path : Option String) (stepLimit : Option Nat)
    (spec : Option String) : Except Error Settings := do
  let settings ← match path with
    | none => pure {}
    | some path =>
      match (Toml.parse? (← readFile files path)).bind Settings.ofDocument? with
      | some settings => pure settings
      | none => throw (.invalidConfig path)
  let settings := { settings with stepLimit := stepLimit.or settings.stepLimit }
  match spec with
  | none => return settings
  | some spec =>
    match Format.ofSpec? spec with
    | some format =>
      return { settings with format := { format with maxItems := settings.format.maxItems } }
    | none => throw (.invalidSpec spec)

/-- Loads a program file by its extension. -/
def loadProgram (files : Files) (path : String) : Except Error Program := do
  let text ← readFile files path
  match Files.extension? path with
  | some "json" => (Program.ofJsonText text).mapError .load
  | some "yaml" | some "yml" => (Program.ofYamlText text).mapError .load
  | _ => throw (.unsupported path)

/-- Compiles a postfix source. -/
def compileSource (source : String) : Except Error Program :=
  (Postfix.compile source).mapError .source

/-- Runs an evaluation on an empty world. -/
def onEmpty {α : Type} (x : Eval (Answer α)) : Except Error α :=
  match x {} with
  | .ok answer _ => answer.mapError .host
  | .error _ _ => .error .cut

/-- Evaluates a program and renders its result. -/
def execute (level : Nat) (settings : Settings) (json : Bool) (p : Program) :
    Except Error String :=
  onEmpty do
    match (← evaluate level settings p).1 with
    | .error e => return .error e
    | .ok v => if json then renderJson level v else renderText level settings v

/-- What a command wrote and its exit code. -/
structure Result where
  /-- The exit code. -/
  code : Nat := 0
  /-- The standard output. -/
  stdout : String := ""
  /-- The standard error. -/
  stderr : String := ""
deriving DecidableEq, Repr

/-- The result with what was written before it. -/
def Result.after (r earlier : Result) : Result :=
  { r with stdout := earlier.stdout ++ r.stdout, stderr := earlier.stderr ++ r.stderr }

end LazyMachine.CommandLine
