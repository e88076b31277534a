import LazyMachine.Engine
import LazyMachine.HostError

/-!
# The host boundary

Entry points for the host: finishing an evaluation, reading a value as a scalar, applying a function
to exactly its arguments, building overload tables and running programs. A `level` bounds every
evaluation, as for `engine`.
-/

namespace LazyMachine

/-- What an entry point tells the host. -/
abbrev Answer (α : Type) := Except HostError α

/-- The error that the host is told for an interrupt on this context. -/
def Context.hostError (c : Context) : Interrupt → HostError
  | .failed =>
    match c.error with
    | some e => .runtime e
    | none => .unrecorded
  | _ => .suspended

/-- Hands an outcome to the host; a recorded failure is taken from the context. -/
def finish {α : Type} : Except Interrupt α → Eval (Answer α)
  | .ok a => return .ok a
  | .error i => do
    let c ← Eval.context
    if i = .failed then Eval.onContext fun c => c.takeError.2
    return .error (c.hostError i)

/-- The outcome of an evaluation on the present context. Only lack of fuel and crashes pass. -/
def outcome {α : Type} (x : Eval α) : Eval (Except Interrupt α) := fun w =>
  match x w with
  | .ok a w => .ok (.ok a) w
  | .error .exhausted w => .error .exhausted w
  | .error .crashed w => .error .crashed w
  | .error i w => .ok (.error i) w

/-- Runs an evaluation on a fresh eager context for the host. -/
def onFresh {α : Type} (x : Eval α) : Eval (Answer α) := do
  match ← Eval.isolated {} x with
  | (.ok a, _) => return .ok a
  | (.error i, c) => return .error (c.hostError i)

/-- Reads a value, forced on a fresh eager context. -/
def readAs {α : Type} (level : Nat) (v : Value) (read : Value → Answer α) :
    Eval (Answer α) := do
  return (← onFresh (engine level (.force v))).bind read

/-- A value of another kind was found. -/
def unexpected {α : Type} (expected : String) (found : Value) : Answer α :=
  .error (.unexpected expected found.typeName)

/-- A value as a 32-bit integer. -/
def asInt (level : Nat) (v : Value) : Eval (Answer Int32) :=
  readAs level v fun
    | .int i => .ok i
    | .long i =>
      if Word.fits 32 i.toInt then .ok i.toInt32
      else .error (.doesNotFit i.toInt)
    | other => unexpected "Int" other

/-- A value as a 64-bit integer. -/
def asLong (level : Nat) (v : Value) : Eval (Answer Int64) :=
  readAs level v fun
    | .int i => .ok i.toInt64
    | .long i => .ok i
    | other => unexpected "Long" other

/-- A value as a 64-bit floating-point number. -/
def asDouble (level : Nat) (v : Value) : Eval (Answer Float) :=
  readAs level v fun v =>
    match v.numeric? with
    | some n => .ok n.toDouble
    | none => unexpected "a number" v

/-- A value as a truth value. -/
def asBool (level : Nat) (v : Value) : Eval (Answer Bool) :=
  readAs level v fun
    | .bool b => .ok b
    | other => unexpected "Bool" other

/-- A value as a character. -/
def asChar (level : Nat) (v : Value) : Eval (Answer Char) :=
  readAs level v fun
    | .char c => .ok c
    | other => unexpected "Char" other

/-- A value as a text. -/
def asText (level : Nat) (v : Value) : Eval (Answer String) :=
  readAs level v fun
    | .str s => .ok s.text
    | other => unexpected "String" other

/-- The elements of a list. -/
def toElements (level : Nat) (v : Value) : Eval (Answer (List Value)) := do
  match ← onFresh (engine level (.force v)) with
  | .ok (.list first) => onFresh (Spine.collect (evaluator level) first)
  | .ok other => return unexpected "List" other
  | .error e => return .error e

/-- Applies a function to exactly the arguments that it still needs. -/
def invokeFunction (level : Nat) (f : Ref .function) (args : List Value) : Eval (Answer Value) := do
  let fn := (← Eval.heap).function f
  if args.length ≠ fn.remaining then
    return .error (.argumentCount fn.name fn.remaining args.length)
  finish (← outcome (applyFunction (engine level) level f args))

/-- Adds a clause to a table. Parameters and target must agree with the table. -/
def OverloadTable.addClause (t : OverloadTable) (h : Heap) (params : List (Option Nat))
    (target : Ref .function) : Answer OverloadTable :=
  let fn := h.function target
  if params.length ≠ t.arity then .error (.clauseParameters t.name params.length t.arity)
  else if fn.remaining ≠ t.arity then .error (.clauseTarget fn.name fn.remaining t.arity)
  else .ok { t with clauses := t.clauses ++ [⟨params, target⟩] }

/-- A function that chooses by the types of its arguments. -/
def Function.ofTable (t : OverloadTable) : Function :=
  ⟨t.name, t.arity, [], .overloaded t⟩

/-- A function over a chunk of a program. -/
def Function.ofChunk? (program : Program) (chunk : Nat) (captures : List Value) : Option Function :=
  (program.chunk? chunk).map fun c => ⟨c.name, c.arity, [], .code program chunk captures⟩

/-- Runs the entry chunk of a program. -/
def Machine.run (level : Nat) (m : Machine) (program : Program) :
    Eval (Answer Value × Machine) := do
  match Frame.enter? program program.entry [] .entry with
  | none => return (.error (.missingEntry program.entry), m)
  | some f =>
    match ← Machine.execute (engine level) level (m.withFrames (f :: m.frames)) with
    | (.done v, m) => return (.ok v, m)
    | (.failed, m) => return (← finish (.error .failed), m)
    | (.aborted a, m) => return (.error (.aborted a), m)

/-- The id of a type name; built-in names come first. -/
def typeIdOf? (name : String) : Option Nat :=
  ((Kind.ofName? name).map Kind.id).or ((ForeignKind.ofName? name).map ForeignKind.id)

/-- The name of a type id. -/
def typeNameOf? (id : Nat) : Option String :=
  ((Kind.ofId? id).map Kind.name).or ((ForeignKind.ofId? id).map ForeignKind.name)

/-- The foreign kind of an id. -/
def foreignKind (id : Nat) : Answer ForeignKind :=
  match ForeignKind.ofId? id with
  | some k => .ok k
  | none => .error (.unregistered id)

/-- Why a name cannot be given to a new foreign kind. -/
def nameConflict? (name : String) : Option HostError :=
  if (Kind.ofName? name).isSome then some (.reservedName name)
  else if (ForeignKind.ofName? name).isSome then some (.registered name)
  else none

end LazyMachine
