import LazyMachine.Operate.Equality

/-!
# Arithmetic and comparison of values

The operators that force both operands, and the unary operators.
-/

namespace LazyMachine

/-- An arithmetic operation on forced operands. A zero divisor fails in every class. -/
def arithmetic (op : BinaryOp) (a : Numeric.Arith) (l r : Value) : Eval Value :=
  match l.numeric?, r.numeric? with
  | some x, some y =>
    let pair := x.promote y
    if a.divides && pair.rightIsZero then Eval.fail (.divideByZero op.name l.typeName)
    else return .ofNumeric (pair.arith a)
  | _, _ => Eval.invalidOperand op.name l r

/-- A bitwise operation on forced operands. -/
def bitwise (op : BinaryOp) (b : Numeric.Bitwise) (l r : Value) : Eval Value :=
  match l.numeric?, r.numeric? with
  | some x, some y =>
    match (x.promote y).bitwise? b with
    | some n => return .ofNumeric n
    | none => Eval.invalidOperand op.name l r
  | _, _ => Eval.invalidOperand op.name l r

/-- The order of two forced operands; `none` if they have none because of a NaN. -/
def ordering (op : BinaryOp) (l r : Value) : Eval (Option Ordering) :=
  match l, r with
  | .char a, .char b => return some (compare a b)
  | .str a, .str b => return some (compare a.text b.text)
  | .bool a, .bool b => return some (compare a b)
  | l, r =>
    match l.numeric?, r.numeric? with
    | some x, some y => return (x.promote y).order?
    | _, _ => Eval.invalidOperand op.name l r

/-- A comparison operator. -/
def relation [Embedding] (ev : Evaluator) (op : BinaryOp) (l r : Value) : Eval Value := do
  match op with
  | .eq => return .bool (← equal ev l r)
  | .ne => return .bool !(← equal ev l r)
  | _ =>
    let l ← ev.force l
    let r ← ev.force r
    match l, r with
    | .foreign f, _ => Embedding.binary ev f op l r
    | _, .foreign f => Embedding.binary ev f op l r
    | _, _ =>
      let order ← ordering op l r
      match op.accepts? order with
      | some b => return .bool b
      | none => Eval.invalidOperand op.name l r

/-- The character after or before another one, if there is one. -/
def neighbour? (op : UnaryOp) (c : Char) : Option Char :=
  match op with
  | .succ => if h : (c.val + 1).isValidChar then some ⟨c.val + 1, h⟩ else none
  | _ => if h : c.toNat ≠ 0 ∧ (c.val - 1).isValidChar then some ⟨c.val - 1, h.2⟩ else none

/-- A unary operator. -/
def unary [Embedding] (ev : Evaluator) (op : UnaryOp) (v : Value) : Eval Value := do
  let v ← ev.force v
  match v, op with
  | .foreign f, _ => Embedding.unary ev f op
  | .bool b, .not => return .bool !b
  | .char c, .succ | .char c, .pred =>
    match neighbour? op c with
    | some d => return .char d
    | none => Eval.conversionFailed v "Char"
  | _, _ =>
    match v.numeric?.bind (Numeric.unary? op) with
    | some n => return .ofNumeric n
    | none => Eval.invalidUnary op.name v

end LazyMachine
