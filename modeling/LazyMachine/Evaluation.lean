import LazyMachine.Document.Program
import LazyMachine.Document.Yaml
import LazyMachine.Image
import LazyMachine.Json.Parser
import LazyMachine.Settings

/-!
# Evaluating programs

Loading a program from a text, running it with given settings, and rendering the result.
-/

namespace LazyMachine

/-- Why a program could not be loaded. -/
inductive LoadError where
  /-- The text is no program in JSON. -/
  | json
  /-- The text is no program in YAML. -/
  | yaml
  /-- The program is not valid. -/
  | defect (d : Program.Defect)
deriving DecidableEq, Repr

/-- The text of a load error. -/
def LoadError.message : LoadError → String
  | .json => "failed to parse program JSON"
  | .yaml => "failed to parse program YAML"
  | .defect d => d.message

namespace Program

/-- A program without defects. -/
def checked (p : Program) : Except LoadError Program :=
  match p.defect? with
  | some d => .error (.defect d)
  | none => .ok p

/-- Loads a program from a JSON value. -/
def ofJson (j : Json) : Except LoadError Program :=
  match ofDocument? (.ofJson j) with
  | some p => p.checked
  | none => .error .json

/-- Loads a program from a JSON text. -/
def ofJsonText (text : String) : Except LoadError Program :=
  match Json.read? text with
  | some j => ofJson j
  | none => .error .json

/-- Loads a program from a YAML text. -/
def ofYamlText (text : String) : Except LoadError Program :=
  match (Yaml.parse? text).bind ofDocument? with
  | some p => p.checked
  | none => .error .yaml

end Program

/-- Runs a program on a fresh context and a fresh machine. -/
def evaluate (level : Nat) (s : Settings) (p : Program) : Eval (Answer Value × Machine) := do
  Eval.onContext fun _ => s.context
  s.machine.run level p

/-- Renders a result as text. The machine is done, so what is still lazy is forced at once. -/
def renderText (level : Nat) (s : Settings) (v : Value) : Eval (Answer String) := do
  match ← Eval.isolated { format := s.format } (render (evaluator level) s.format v) with
  | (.ok text, _) => return .ok text
  | (.error i, c) => return .error (c.hostError i)

/-- Renders a result as JSON. -/
def renderJson (level : Nat) (v : Value) : Eval (Answer String) := do
  return (← toJson level v).map Json.compact

end LazyMachine
