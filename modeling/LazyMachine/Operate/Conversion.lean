import LazyMachine.Decimal.Reading
import LazyMachine.Operate.Sequence
import LazyMachine.Text.Blank

/-!
# Conversion and reading

Conversion of a value to another kind, and reading a value of a kind from a text.
-/

namespace LazyMachine

/-- The character of a code point. -/
def charOf? (i : Int) : Option Char :=
  if h : 0 ≤ i ∧ i.toNat.isValidChar then some (Char.ofNatAux i.toNat h.2) else none

/-- The characters of a list of values, each forced; `none` from the first one that is none. -/
def charsOf? (ev : Evaluator) : List Value → Eval (Option (List Char))
  | [] => return some []
  | v :: vs => do
    match ← ev.force v with
    | .char c => return (← charsOf? ev vs).map (c :: ·)
    | _ => return none

/-- The image of a forced scalar in another kind. -/
def convertScalar? (v : Value) (target : Kind) : Option Value :=
  match v, target with
  | .char c, .int => some (.int (Int32.ofNat c.toNat))
  | .char c, .long => some (.long (Int64.ofNat c.toNat))
  | .bool b, .int => some (.int (if b then 1 else 0))
  | .bool b, .long => some (.long (if b then 1 else 0))
  | .int i, .char => (charOf? i.toInt).map .char
  | .long i, .char => (charOf? i.toInt).map .char
  | v, target =>
    match v.numeric?, target.numericClass? with
    | some n, some c => (n.convert? c).map .ofNumeric
    | _, _ => none

/-- Conversion to a kind. Everything converts to a string and to a type descriptor; a list of
characters is joined into a string, and a string splits into a list of characters. -/
def convert [Embedding] (ev : Evaluator) (v : Value) (target : Kind) : Eval Value := do
  let v ← ev.force v
  match v, target with
  | .foreign f, _ => Embedding.convert ev f target
  | _, _ =>
    if v.kind? = some target then return v
    match v, target with
    | .list first, .string =>
      match ← charsOf? ev (← Spine.collect ev first) with
      | some cs => Eval.makeStr (String.ofList cs)
      | none => Eval.makeStr (← render ev {} v)
    | _, .string => Eval.makeStr (← render ev {} v)
    | _, .typeInfo => Eval.typeInfo v
    | .str s, .list => Eval.makeList (s.text.toList.map .char)
    | _, _ =>
      match convertScalar? v target with
      | some w => return w
      | none => Eval.conversionFailed v target.name

/-- Reads a scalar other than a string. Blanks around it are ignored, except around a character. -/
def readScalar? (text : String) (target : Kind) : Option Value :=
  let trimmed := String.ofList (Text.trim text.toList)
  match target with
  | .int => (Text.readIntWithin? 32 trimmed).map fun i => .int (Int32.ofInt i)
  | .long => (Text.readIntWithin? 64 trimmed).map fun i => .long (Int64.ofInt i)
  | .single => (Decimal.readSingle? trimmed).map .single
  | .double => (Decimal.readDouble? trimmed).map .double
  | .bool =>
    if trimmed = "true" then some (.bool true)
    else if trimmed = "false" then some (.bool false)
    else none
  | .char =>
    match text.toList with
    | [c] => some (.char c)
    | _ => none
  | .unit => if trimmed = "()" then some .unit else none
  | _ => none

/-- Reads a value of a kind. -/
def readValue (text : String) (target : Kind) : Eval Value := do
  Eval.ensureLive
  match target with
  | .string => Eval.makeStr text
  | _ =>
    match readScalar? text target with
    | some v => return v
    | none => Eval.fail (.unableRead text target.name)

/-- The descriptor of the type of a value. -/
def typeOf (ev : Evaluator) (v : Value) : Eval Value := do
  Eval.typeInfo (← ev.force v)

/-- The text of a value in the format of a spec. An invalid spec is refused before anything is
forced. -/
def renderAs [Embedding] (ev : Evaluator) (v : Value) (spec : String) : Eval String := do
  match Format.ofSpec? spec with
  | some format => render ev format v
  | none =>
    let v ← Eval.resolve v
    Eval.fail (.invalidFormat spec v.typeName)

end LazyMachine
