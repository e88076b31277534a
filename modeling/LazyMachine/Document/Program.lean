import LazyMachine.Document.Basic
import LazyMachine.Program

/-!
# Programs as documents

The program format: a structure of chunks and an entry, each chunk with a name, an arity and code,
and each instruction an alternative named by its keyword.
-/

namespace LazyMachine

/-- Reads a constant. -/
def Literal.ofDocument? (d : Document) : Option Literal :=
  match d.alternative? with
  | some (name, none) => if name = "unit" then some .unit else none
  | some (name, some d) =>
    match name with
    | "unit" => d.nothing?.map fun _ => .unit
    | "int" => (d.intWithin? 32).map fun i => .int (Int32.ofInt i)
    | "long" => (d.intWithin? 64).map fun i => .long (Int64.ofInt i)
    | "single" => d.single?.map .single
    | "double" => d.double?.map .double
    | "bool" => d.bool?.map .bool
    | "char" => d.char?.map .char
    | "str" => d.text?.map .str
    | _ => none
  | none => none

namespace Instr

/-- The instructions that hold nothing, with their keywords. -/
def simple : List (String × Instr) :=
  [("pop", .pop), ("dup", .dup), ("swap", .swap), ("index", .index), ("set_index", .setIndex),
    ("length", .length), ("head", .head), ("tail", .tail), ("is_nil", .isNil), ("cons", .cons),
    ("nil", .empty), ("tag", .tag), ("untag", .untag), ("show", .render), ("force", .force),
    ("end_try", .endAttempt), ("return", .ret)]

/-- Reads the chunk and the number of captures of a delayed or closed chunk. -/
def capture? (make : Nat → Nat → Instr) (d : Document) : Option Instr :=
  match d.fields? ["chunk", "captures"] with
  | some [chunk, captures] => do
    let chunk ← Document.required? Document.word? chunk
    return make chunk (← Document.required? Document.word? captures)
  | _ => none

/-- Reads an instruction that holds something. -/
def ofContent? (name : String) (d : Document) : Option Instr :=
  match name with
  | "push" => (Literal.ofDocument? d).map .push
  | "load" => d.word?.map .load
  | "store" => d.word?.map .store
  | "binary" => (d.keyword?.bind BinaryOp.ofKeyword?).map .binary
  | "unary" => (d.keyword?.bind UnaryOp.ofKeyword?).map .unary
  | "make_list" => d.word?.map .makeList
  | "make_record" => (d.sequence?.bind fun items => items.mapM Document.text?).map .makeRecord
  | "make_variant" => d.text?.map .makeVariant
  | "convert" => (d.keyword?.bind Kind.ofName?).map .convert
  | "lazy" => capture? .delay d
  | "closure" => capture? .closure d
  | "call" => d.word?.map .call
  | "jump" => d.word?.map .jump
  | "jump_if_false" => d.word?.map .jumpIfFalse
  | "try" => d.word?.map .attempt
  | _ => none

/-- Reads an instruction. -/
def ofDocument? (d : Document) : Option Instr :=
  match d.keyword?.bind fun name => simple.lookup name with
  | some instr => some instr
  | none =>
    match d.alternative? with
    | some (name, some content) => ofContent? name content
    | _ => none

end Instr

/-- Reads a chunk. -/
def Chunk.ofDocument? (d : Document) : Option Chunk :=
  match d.fields? ["name", "arity", "code"] with
  | some [name, arity, code] => do
    let name ← Document.required? Document.text? name
    let arity ← Document.withDefault? 0 (Document.natBelow? (Word.count 16)) arity
    let code ← Document.required? Document.sequence? code
    return ⟨name, arity, (← code.mapM Instr.ofDocument?).toArray⟩
  | _ => none

/-- Reads a program; it need not be valid. -/
def Program.ofDocument? (d : Document) : Option Program :=
  match d.fields? ["chunks", "entry"] with
  | some [chunks, entry] => do
    let chunks ← Document.required? Document.sequence? chunks
    let chunks ← chunks.mapM Chunk.ofDocument?
    let entry ← Document.withDefault? 0 Document.word? entry
    return ⟨chunks.toArray, entry⟩
  | _ => none

namespace Instr

/-- An instruction as JSON, with a form for its constant. -/
def toJson (literal : Literal → Json) (i : Instr) : Json :=
  let single (name : String) (content : Json) : Json := .obj [(name, content)]
  let number (name : String) (n : Nat) : Json := single name (.int n)
  let capture (name : String) (chunk captures : Nat) : Json :=
    single name (.obj [("chunk", .int chunk), ("captures", .int captures)])
  match i with
  | .push l => single "push" (literal l)
  | .load slot => number "load" slot
  | .store slot => number "store" slot
  | .pop => .str "pop"
  | .dup => .str "dup"
  | .swap => .str "swap"
  | .binary op => single "binary" (.str op.keyword)
  | .unary op => single "unary" (.str op.keyword)
  | .index => .str "index"
  | .setIndex => .str "set_index"
  | .length => .str "length"
  | .head => .str "head"
  | .tail => .str "tail"
  | .isNil => .str "is_nil"
  | .cons => .str "cons"
  | .empty => .str "nil"
  | .makeList count => number "make_list" count
  | .makeRecord names => single "make_record" (.arr (names.map .str))
  | .makeVariant name => single "make_variant" (.str name)
  | .tag => .str "tag"
  | .untag => .str "untag"
  | .render => .str "show"
  | .convert kind => single "convert" (.str kind.name)
  | .delay chunk captures => capture "lazy" chunk captures
  | .closure chunk captures => capture "closure" chunk captures
  | .force => .str "force"
  | .call count => number "call" count
  | .jump target => number "jump" target
  | .jumpIfFalse target => number "jump_if_false" target
  | .attempt target => number "try" target
  | .endAttempt => .str "end_try"
  | .ret => .str "return"

end Instr

end LazyMachine
