import LazyMachine.Machine.Bind

/-!
# Frames

The state of the machine: a stack of frames, the instructions executed so far and an optional limit
on them. Each frame runs one chunk on a value stack of its own.
-/

namespace LazyMachine

/-- Why a run was given up. Handlers do not catch it. -/
inductive Abort where
  /-- The limit on instructions is reached. -/
  | stepLimit (limit : Nat)
  /-- An instruction needs more operands than the stack holds. -/
  | underflow (chunk pc need held : Nat)
  /-- A local is read that was never written. -/
  | undefinedSlot (slot : Nat)
  /-- There is no such chunk. -/
  | missingChunk (chunk : Nat)
  /-- There is nothing to run. -/
  | noFrame
  /-- An operation was suspended but names no pending thunk. -/
  | nothingPending
deriving DecidableEq, Repr

/-- The text of an abort. -/
def Abort.message : Abort → String
  | .stepLimit limit => "step limit of " ++ toString limit ++ " instructions exceeded"
  | .underflow chunk pc need held =>
    "stack underflow in chunk " ++ toString chunk ++ " at " ++ toString pc ++ ": need " ++
      toString need ++ ", have " ++ toString held
  | .undefinedSlot slot => "local slot " ++ toString slot ++ " is not defined"
  | .missingChunk chunk => "chunk " ++ toString chunk ++ " does not exist"
  | .noFrame => "no frame to execute"
  | .nothingPending => "suspended without a pending lazy value"

/-- Where a failure is caught, and how much of the stack is kept. -/
structure Handler where
  /-- The instruction to go on with. -/
  target : Nat
  /-- The height of the stack when the handler was installed. -/
  depth : Nat
deriving DecidableEq, Repr

/-- What becomes of the result of a frame. -/
inductive FrameKind where
  /-- It is the result of the run. -/
  | entry
  /-- It is applied to the arguments that are left. -/
  | call (rest : List Value)
  /-- It is the value of the thunks of a chain, the first of which was asked for. -/
  | thunk (chain : List (Ref .thunk))

/-- A chunk under execution. -/
structure Frame where
  /-- The program of the chunk. -/
  program : Program
  /-- The index of the chunk. -/
  chunk : Nat
  /-- The next instruction. -/
  pc : Nat := 0
  /-- Captures, arguments and stored locals. -/
  locals : Array Value
  /-- The value stack, its top first. -/
  stack : List Value := []
  /-- The handlers, the one installed last first. -/
  handlers : List Handler := []
  /-- What becomes of the result. -/
  kind : FrameKind
  /-- A call with this many arguments has to be applied to the top of the stack before the next
  instruction. -/
  pendingCall : Option Nat := none

namespace Frame

/-- A frame at the start of a chunk, if there is such a chunk. -/
def enter? (program : Program) (chunk : Nat) (locals : List Value) (kind : FrameKind) :
    Option Frame :=
  match program.chunk? chunk with
  | some _ => some { program, chunk, locals := locals.toArray, kind }
  | none => none

/-- The instruction to execute next; none is left at the end of the chunk. -/
def instr? (f : Frame) : Option Instr :=
  (f.program.chunk? f.chunk).bind (·.code[f.pc]?)

/-- The frame with another stack. -/
def withStack (f : Frame) (stack : List Value) : Frame :=
  { f with stack }

/-- Pushes a result, and schedules a call if arguments are left for it. -/
def pushResult (f : Frame) (base : List Value) (v : Value) (rest : List Value) : Frame :=
  if rest.isEmpty then { f with stack := v :: base }
  else { f with stack := rest.reverse ++ v :: base, pendingCall := some rest.length }

/-- The thunks that wait for the result of the frame. -/
def chain (f : Frame) : List (Ref .thunk) :=
  match f.kind with
  | .thunk chain => chain
  | _ => []

/-- Stores a local, adding locals as needed. -/
def store (f : Frame) (slot : Nat) (v : Value) : Array Value :=
  (f.locals ++ Array.replicate (slot + 1 - f.locals.size) Value.unit).setIfInBounds slot v

end Frame

/-- The machine. -/
structure Machine where
  /-- The frames, the top one first. -/
  frames : List Frame := []
  /-- The instructions executed so far. -/
  steps : Nat := 0
  /-- The number of instructions after which a run is given up. -/
  stepLimit : Option Nat := none

/-- Why an instruction was not completed. -/
inductive Stop where
  /-- An operation was interrupted. -/
  | interrupt (i : Interrupt)
  /-- The run is given up. -/
  | abort (a : Abort)
deriving DecidableEq, Repr

/-- A step of the machine. -/
abbrev Step := EStateM Stop World

/-- An evaluation as a step of the machine. -/
def Step.ofEval {α : Type} (x : Eval α) : Step α := fun w =>
  match x w with
  | .ok a w => .ok a w
  | .error i w => .error (.interrupt i) w

/-- Evaluations are steps that do not abort. -/
instance : MonadLift Eval Step := ⟨Step.ofEval⟩

/-- The outcome of a step. Lack of fuel and crashes are no outcome of a step but end the run. -/
def Step.outcome {α : Type} (x : Step α) : Eval (Except Stop α) := fun w =>
  match x w with
  | .ok a w => .ok (.ok a) w
  | .error (.interrupt .exhausted) w => .error .exhausted w
  | .error (.interrupt .crashed) w => .error .crashed w
  | .error s w => .ok (.error s) w

/-- Gives up for lack of operands. -/
def Frame.underflow {α : Type} (f : Frame) (need : Nat) : Step α :=
  throw (.abort (.underflow f.chunk f.pc need f.stack.length))

/-- The topmost `n` values, the top last, and what is below them. -/
def Frame.operands (f : Frame) (n : Nat) : Step (List Value × List Value) :=
  if n ≤ f.stack.length then return ((f.stack.take n).reverse, f.stack.drop n)
  else f.underflow n

end LazyMachine
