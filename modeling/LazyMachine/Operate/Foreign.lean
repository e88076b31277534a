import LazyMachine.Operate.Render

/-!
# Operations of foreign values

A foreign kind decides about the operations on its values, whichever operand they are. Metres add,
subtract and compare with each other and with integers. The values of all other kinds refuse every
operation and equal only themselves.
-/

namespace LazyMachine

/-- The container has no entry at the key. -/
def indexOutOfRange {α : Type} [ForeignText] (ev : Evaluator) (container key : Value) : Eval α := do
  let text ← display ev key
  Eval.fail (.indexOutOfRange container.typeName text key.typeName)

namespace Foreign

/-- The whole metres that a value stands for: metres themselves and integers. -/
def amount? : Value → Option Int64
  | .foreign ⟨_, .meters n⟩ => some n
  | .int i => some i.toInt64
  | .long i => some i
  | _ => none

/-- A binary operation on metres. -/
def metersBinary (op : BinaryOp) (l r : Value) : Eval Value :=
  match op, amount? l, amount? r with
  | .add, some a, some b => Eval.makeForeign (.meters (a + b))
  | .sub, some a, some b => Eval.makeForeign (.meters (a - b))
  | .lt, some a, some b => return .bool (a < b)
  | .cons, _, some b => Eval.makeList [l, .long b]
  | _, _, _ => Eval.invalidOperand op.name l r

/-- A binary operation with this value as an operand. -/
def binary (f : Foreign) (op : BinaryOp) (l r : Value) : Eval Value :=
  match f.data with
  | .meters _ => metersBinary op l r
  | _ => Eval.invalidOperand op.name l r

/-- A unary operation. -/
def unary (f : Foreign) (op : UnaryOp) : Eval Value :=
  match f.data, op with
  | .meters n, .neg => Eval.makeForeign (.meters (-n))
  | .meters n, .not => return .bool (n == 0)
  | _, _ => Eval.invalidUnary op.name (.foreign f)

/-- Equality with another value. -/
def equal (f : Foreign) (other : Value) : Bool :=
  match f.data with
  | .meters n => amount? other == some n
  | _ =>
    match other with
    | .foreign o => o.stamp = f.stamp
    | _ => false

/-- The length. -/
def length (f : Foreign) : Eval Value :=
  match f.data with
  | .meters n => return .long n
  | _ => Eval.invalidUnary "GetLength" (.foreign f)

/-- The entry of a key. -/
def get [ForeignText] (ev : Evaluator) (f : Foreign) (key : Value) : Eval Value :=
  match f.data with
  | .meters n =>
    match key with
    | .str s => if s.text = "n" then return .long n else indexOutOfRange ev (.foreign f) key
    | _ => indexOutOfRange ev (.foreign f) key
  | _ => Eval.invalidOperand "GetValue" (.foreign f) key

/-- Application to arguments. -/
def call (f : Foreign) (args : List Value) : Eval Value :=
  match f.data with
  | .meters _ => Eval.makeList args
  | _ => Eval.invalidUnary "Call" (.foreign f)

/-- Conversion to a built-in kind. -/
def convert (f : Foreign) (target : Kind) : Eval Value :=
  match f.data, target with
  | .meters n, .long => return .long n
  | .meters _, .string => Eval.makeStr (Render.foreign {} f)
  | _, _ => Eval.conversionFailed (.foreign f) target.name

end Foreign

/-- Foreign values are shown as they are. -/
@[reducible]
def ForeignText.standard : ForeignText where
  text _ format f := return Render.foreign format f

/-- The operations of the kinds above, which perform no others. Host code runs request by
request. -/
instance Embedding.standard : Embedding where
  toForeignText := .standard
  binary _ f op l r := f.binary op l r
  unary _ f op := f.unary op
  equal _ f other := return f.equal other
  length _ f := f.length
  get ev f key := @Foreign.get .standard ev f key
  call _ f args := f.call args
  convert _ f target := f.convert target
  run E code := code.run E

/-- In the standard embedding, code runs as it is written. -/
@[simp]
theorem Embedding.run_standard (E : Engine) (code : HostCode) : Embedding.run E code = code.run E :=
  rfl

end LazyMachine
