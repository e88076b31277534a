import LazyMachine.Kind
import LazyMachine.Operator

/-!
# Programs

A program is a sequence of chunks of stack code, one of which is the entry. An instruction takes
its operands from the top of the stack, the rightmost operand on top. A program is valid if its
entry takes no arguments and every chunk and jump target that its code names exists.
-/

namespace LazyMachine

/-- A constant in the code. -/
inductive Literal where
  | unit
  | int (i : Int32)
  | long (i : Int64)
  | single (x : Float32)
  | double (x : Float)
  | bool (b : Bool)
  | char (c : Char)
  | str (text : String)

/-- An instruction. -/
inductive Instr where
  /-- Pushes a constant. -/
  | push (literal : Literal)
  /-- Pushes a local; the locals are the captures followed by the arguments. -/
  | load (slot : Nat)
  /-- Pops into a local, adding locals as needed. -/
  | store (slot : Nat)
  | pop
  | dup
  | swap
  | binary (op : BinaryOp)
  | unary (op : UnaryOp)
  /-- Container and key, replaced by the entry. -/
  | index
  /-- Container, key and item, replaced by the updated container. -/
  | setIndex
  | length
  | head
  | tail
  | isNil
  /-- Head and tail, replaced by the list; neither is forced. -/
  | cons
  /-- A sequence, replaced by the empty one of its kind. -/
  | empty
  | makeList (count : Nat)
  | makeRecord (names : List String)
  | makeVariant (tag : String)
  | tag
  | untag
  /-- A value, replaced by its text. -/
  | render
  | convert (kind : Kind)
  /-- A thunk over a chunk that captures the topmost values. -/
  | delay (chunk captures : Nat)
  /-- A function over a chunk that captures the topmost values. -/
  | closure (chunk captures : Nat)
  | force
  /-- Callee and arguments, replaced by the result. -/
  | call (count : Nat)
  | jump (target : Nat)
  | jumpIfFalse (target : Nat)
  /-- Installs a handler for failures. -/
  | attempt (target : Nat)
  /-- Removes the handler installed last. -/
  | endAttempt
  | ret

/-- A piece of code with a name and a number of arguments. -/
structure Chunk where
  /-- The name, for diagnostics. -/
  name : String
  /-- The number of arguments. -/
  arity : Nat
  /-- The instructions. -/
  code : Array Instr

/-- A program. -/
structure Program where
  /-- The chunks. -/
  chunks : Array Chunk
  /-- The index of the chunk at which a run starts. -/
  entry : Nat
deriving Inhabited

namespace Program

/-- The chunk of an index. -/
def chunk? (p : Program) (index : Nat) : Option Chunk :=
  p.chunks[index]?

/-- What is wrong with a program. -/
inductive Defect where
  /-- There is no entry chunk. -/
  | missingEntry (entry count : Nat)
  /-- The entry chunk takes arguments. -/
  | entryArity (name : String) (arity : Nat)
  /-- A jump leads out of its chunk. -/
  | jumpTarget (name : String) (pc target : Nat)
  /-- The code names a chunk that does not exist. -/
  | missingChunk (name : String) (pc index : Nat)
deriving DecidableEq, Repr

/-- The text of a defect. -/
def Defect.message : Defect → String
  | .missingEntry entry count =>
    "entry chunk " ++ toString entry ++ " does not exist (" ++ toString count ++ " chunks)"
  | .entryArity name arity =>
    "entry chunk " ++ name ++ " must take no arguments, takes " ++ toString arity
  | .jumpTarget name pc target =>
    name ++ "@" ++ toString pc ++ ": jump target " ++ toString target ++ " is out of range"
  | .missingChunk name pc index =>
    name ++ "@" ++ toString pc ++ ": chunk " ++ toString index ++ " does not exist"

/-- The defect of one instruction, if it has one. A jump may lead just behind the code. -/
def instrDefect? (p : Program) (chunk : Chunk) (pc : Nat) : Instr → Option Defect
  | .jump target | .jumpIfFalse target | .attempt target =>
    if chunk.code.size < target then some (.jumpTarget chunk.name pc target) else none
  | .delay index _ | .closure index _ =>
    if p.chunks.size ≤ index then some (.missingChunk chunk.name pc index) else none
  | _ => none

/-- The first defect in a chunk. -/
def chunkDefect? (p : Program) (chunk : Chunk) : Option Defect :=
  chunk.code.toList.zipIdx.findSome? fun (instr, pc) => p.instrDefect? chunk pc instr

/-- The first defect: that of the entry, then those of the code in order. -/
def defect? (p : Program) : Option Defect :=
  match p.chunk? p.entry with
  | none => some (.missingEntry p.entry p.chunks.size)
  | some entry =>
    if entry.arity ≠ 0 then some (.entryArity entry.name entry.arity)
    else p.chunks.toList.findSome? p.chunkDefect?

/-- A program without defects. -/
def Valid (p : Program) : Prop :=
  p.defect? = none

end Program

end LazyMachine
