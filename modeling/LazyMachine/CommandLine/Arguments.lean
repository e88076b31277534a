import LazyMachine.Files
import LazyMachine.Text.Numeral

/-!
# Arguments

A subcommand and its argument, with options before or after the subcommand. An option with a value
is written with a blank or an equals sign, and may be given once on either side of the subcommand;
behind it wins. After `--` nothing is an option.
-/

namespace LazyMachine.CommandLine

/-- A subcommand. -/
inductive Command where
  /-- Runs a program file. -/
  | run (path : String)
  /-- Evaluates a postfix source. -/
  | eval (source : String)
  /-- Evaluates sources line by line. -/
  | repl
deriving DecidableEq, Repr

/-- The options. -/
structure Options where
  /-- The file with settings. -/
  config : Option String := none
  /-- The limit on instructions. -/
  stepLimit : Option Nat := none
  /-- The format spec. -/
  format : Option String := none
  /-- Whether results and failures are written as JSON. -/
  json : Bool := false
deriving DecidableEq, Repr

/-- The options of both sides; those of the inner side win. -/
def Options.override (outer inner : Options) : Options where
  config := inner.config.or outer.config
  stepLimit := inner.stepLimit.or outer.stepLimit
  format := inner.format.or outer.format
  json := inner.json || outer.json

/-- What arguments ask for. -/
inductive Request where
  /-- A command. -/
  | command (c : Command) (o : Options)
  /-- The version. -/
  | version
  /-- The overview of commands and options. -/
  | help
deriving DecidableEq, Repr

/-- Why arguments are not read as a command. -/
inductive Refusal where
  /-- They do not follow the usage. -/
  | usage
  /-- They ask for something else. -/
  | instead (r : Request)
deriving DecidableEq, Repr

/-- Sets an option that has a value. -/
def Options.set? (o : Options) (name value : String) : Option Options :=
  match name with
  | "--config" =>
    match o.config, Files.checkPath value with
    | none, .ok path => some { o with config := some path }
    | _, _ => none
  | "--step-limit" =>
    match o.stepLimit, Text.readWord? value with
    | none, some n => some { o with stepLimit := some n }
    | _, _ => none
  | "--format" =>
    match o.format with
    | none => some { o with format := some value }
    | some _ => none
  | _ => none

/-- Whether an argument looks like an option. -/
def isOption (arg : String) : Bool :=
  arg.startsWith "-" && arg ≠ "-"

/-- Splits an option at its equals sign. -/
def splitOption (arg : String) : String × Option String :=
  match Text.splitOnce? '=' arg.toList with
  | some (name, value) => (String.ofList name, some (String.ofList value))
  | none => (arg, none)

/-- Reads options. Gives them, the arguments from the first one on that is no option, and whether
`--` stood before that. The version can be asked for only at the `top`. -/
def readOptions (top : Bool) :
    Options → List String → Except Refusal (Options × List String × Bool)
  | o, [] => .ok (o, [], false)
  | o, arg :: args =>
    if arg = "--" then .ok (o, args, true)
    else if !isOption arg then .ok (o, arg :: args, false)
    else
      match splitOption arg with
      | (name, some value) =>
        match o.set? name value with
        | some o => readOptions top o args
        | none => .error .usage
      | (name, none) =>
        if name = "--json" then
          if o.json then .error .usage else readOptions top { o with json := true } args
        else if name = "--help" ∨ name = "-h" then .error (.instead .help)
        else if top ∧ (name = "--version" ∨ name = "-V") then .error (.instead .version)
        else
          match args with
          | value :: args =>
            match (if isOption value then none else o.set? name value) with
            | some o => readOptions top o args
            | none => .error .usage
          | [] => .error .usage

/-- Reads the arguments behind a subcommand, of which `wanted` are no options. -/
def readArguments : (wanted : Nat) → Options → List String →
    Except Refusal (Options × List String)
  | 0, o, args => do
    match ← readOptions false o args with
    | (o, [], _) => return (o, [])
    | _ => throw .usage
  | wanted + 1, o, args => do
    match ← readOptions false o args with
    | (_, [], _) => throw .usage
    | (o, arg :: args, false) =>
      let (o, rest) ← readArguments wanted o args
      return (o, arg :: rest)
    | (o, args, true) => if args.length = wanted + 1 then return (o, args) else throw .usage

/-- Reads what follows the name of a subcommand. -/
def Command.read (name : String) (args : List String) : Except Refusal (Command × Options) := do
  match name with
  | "run" =>
    match ← readArguments 1 {} args with
    | (o, [path]) =>
      match Files.checkPath path with
      | .ok path => return (.run path, o)
      | .error _ => throw .usage
    | _ => throw .usage
  | "eval" =>
    match ← readArguments 1 {} args with
    | (o, [source]) => return (.eval source, o)
    | _ => throw .usage
  | "repl" => return (.repl, (← readArguments 0 {} args).1)
  | "help" => throw (.instead .help)
  | _ => throw .usage

/-- Reads the arguments. Without a subcommand they ask for the interactive evaluator. -/
def Request.read? (args : List String) : Option Request :=
  let command : Except Refusal Request := do
    match ← readOptions true {} args with
    | (o, [], _) => return .command .repl o
    | (_, _ :: _, true) => throw .usage
    | (outer, name :: args, false) =>
      let (c, inner) ← Command.read name args
      return .command c (outer.override inner)
  match command with
  | .ok r => some r
  | .error (.instead r) => some r
  | .error .usage => none

/-- The files that a request reads. -/
def Request.paths : Request → List String
  | .command (.run path) o => path :: o.config.toList
  | .command _ o => o.config.toList
  | _ => []

end LazyMachine.CommandLine
