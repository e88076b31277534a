import LazyMachine.CommandLine.Arguments
import LazyMachine.CommandLine.Repl

/-!
# The command line

What the program does with its arguments, its files and its input. Bad settings end it with exit
code 2 before anything is evaluated, a failed evaluation with exit code 1.
-/

namespace LazyMachine.CommandLine

/-- The version. -/
def version : String := "fen 0.1.0\n"

/-- The overview of commands and options. -/
def overview : String :=
  "CLI for the Fen runtime core\n\nUsage: fen [OPTIONS] [COMMAND]\n\nCommands:\n" ++
  "  run   Run a serialized program (.json, .yaml or .yml)\n" ++
  "  eval  Evaluate a postfix expression, e.g. `fen eval \"1 2L +\"`\n" ++
  "  repl  Interactive postfix evaluator\n" ++
  "  help  Print this message or the help of the given subcommand(s)\n\nOptions:\n" ++
  "      --config <FILE>   Runtime settings (TOML): force_mode, step_limit, [show]\n" ++
  "      --step-limit <N>  Abort after this many instructions (overrides the config file)\n" ++
  "      --format <SPEC>   Format spec for printed results, e.g. `f2`, `x` or `q`\n" ++
  "      --json            Print results as JSON (forcing lazy parts) and " ++
  "runtime errors as JSON diagnostics\n" ++
  "  -h, --help            Print help\n  -V, --version         Print version\n"

/-- The settings that options ask for. -/
def Options.settings (o : Options) (files : Files) : Except Error Settings :=
  loadSettings files o.config o.stepLimit o.format

/-- The result of a command that ends with a text or an error. -/
def Result.ofOutcome (json : Bool) : Except Error String → Result
  | .ok text => { stdout := text ++ "\n" }
  | .error e => { code := 1, stderr := e.line json }

/-- The result of bad settings. -/
def Result.ofBadSettings (e : Error) : Result :=
  { code := 2, stderr := e.line false }

/-- Performs a command with its settings. -/
def Command.perform (level : Nat) (files : Files) (stdin : String) (settings : Settings)
    (json : Bool) : Command → Result
  | .repl => Repl.run level settings stdin
  | .run path => .ofOutcome json ((loadProgram files path).bind (execute level settings json))
  | .eval source => .ofOutcome json ((compileSource source).bind (execute level settings json))

/-- Performs a request. -/
def Request.perform (level : Nat) (files : Files) (stdin : String) : Request → Result
  | .command c o =>
    match o.settings files with
    | .ok settings => c.perform level files stdin settings o.json
    | .error e => .ofBadSettings e
  | .version => { stdout := CommandLine.version }
  | .help => { stdout := overview }

/-- What the program does with its arguments; `none` if they do not follow the usage. -/
def main? (level : Nat) (files : Files) (stdin : String) (args : List String) : Option Result :=
  (Request.read? args).map (·.perform level files stdin)

end LazyMachine.CommandLine
