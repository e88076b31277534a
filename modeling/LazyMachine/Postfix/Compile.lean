import LazyMachine.Decimal.Reading
import LazyMachine.Postfix.Token
import LazyMachine.Program
import LazyMachine.Text.Split

/-!
# Compiling postfix sources

Every token pushes a constant or applies one instruction to the stack; the top of the stack is the
result.
-/

namespace LazyMachine.Postfix

/-- The text without a last character, if it ends with that. -/
def withoutLast? (c : Char) (word : List Char) : Option String :=
  match word.reverse with
  | d :: rest => if d = c then some (String.ofList rest.reverse) else none
  | [] => none

/-- The number that a word stands for. A word that starts with a digit, or with a minus sign and a
digit, is an integer, a large integer with suffix `L`, a single with suffix `f`, or a double if it
holds a point or an exponent mark. Integers that are too large for 32 bits are large ones. -/
def number? (word : String) : Option Literal :=
  let cs := word.toList
  let unsigned := match cs with
    | '-' :: cs => cs
    | cs => cs
  if !(unsigned.head?.any Char.isDigit) then none
  else
    match withoutLast? 'L' cs with
    | some long => (Text.readIntWithin? 64 long).map fun i => .long (Int64.ofInt i)
    | none =>
      match withoutLast? 'f' cs with
      | some single => (Decimal.readSingle? single).map .single
      | none =>
        if cs.any fun c => c = '.' || c = 'e' || c = 'E' then
          (Decimal.readDouble? word).map .double
        else
          match Text.readIntWithin? 32 word with
          | some i => some (.int (Int32.ofInt i))
          | none => (Text.readIntWithin? 64 word).map fun i => .long (Int64.ofInt i)

/-- The words that stand for one instruction. -/
def vocabulary : List (String × Instr) :=
  [("true", .push (.bool true)), ("false", .push (.bool false)), ("()", .push .unit),
    ("nil", .makeList 0), ("empty", .empty), ("dup", .dup), ("swap", .swap), ("pop", .pop),
    ("len", .length), ("head", .head), ("tail", .tail), ("isnil", .isNil), ("at", .index),
    ("put", .setIndex), ("show", .render), ("tagof", .tag), ("untag", .untag), ("force", .force)]

/-- The instruction of a word with an argument behind a colon. -/
def withArgument (word head : String) (argument : List Char) : Except Error Instr :=
  let text := String.ofList argument
  match head with
  | "list" =>
    match Text.readWord? text with
    | some n => .ok (.makeList n)
    | none => .error (.expectedCount word text)
  | "rec" => .ok (.makeRecord ((Text.splitAll ',' argument).map String.ofList))
  | "tag" => .ok (.makeVariant text)
  | "as" =>
    match Kind.ofName? text with
    | some kind => .ok (.convert kind)
    | none => .error (.unknownType text)
  | _ => .error (.unknownWord word)

/-- The instruction of a word: a number, an operator, a word with an argument, or a word of the
vocabulary. -/
def wordInstr (word : String) : Except Error Instr :=
  match number? word, BinaryOp.ofSymbol? word, UnaryOp.ofSymbol? word with
  | some literal, _, _ => .ok (.push literal)
  | none, some op, _ => .ok (.binary op)
  | none, none, some op => .ok (.unary op)
  | none, none, none =>
    match Text.splitOnce? ':' word.toList with
    | some (head, c :: argument) => withArgument word (String.ofList head) (c :: argument)
    | _ =>
      match vocabulary.lookup word with
      | some instr => .ok instr
      | none => .error (.unknownWord word)

/-- The instruction of a token. -/
def Token.instr : Token → Except Error Instr
  | .word text => wordInstr text
  | .str text => .ok (.push (.str text))
  | .char c => .ok (.push (.char c))

/-- The program of a source: one chunk that returns the top of the stack. -/
def compile (source : String) : Except Error Program := do
  let tokens ← tokenize source
  let code ← tokens.mapM Token.instr
  if code.isEmpty then throw .nothing
  return ⟨#[⟨"main", 0, (code ++ [Instr.ret]).toArray⟩], 0⟩

end LazyMachine.Postfix
