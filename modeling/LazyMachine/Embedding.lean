import LazyMachine.HostCode

/-!
# What the host decides

What operations on foreign values do and what code of the host does is up to the host. An
`Embedding` says both. Operations and runs are defined over all of them; programs run in the
standard one (`LazyMachine.Operate.Foreign`).
-/

namespace LazyMachine

/-- How foreign values are shown. -/
class ForeignText where
  /-- The text of a foreign value. -/
  text (ev : Evaluator) (format : Format) (f : Foreign) : Eval String

/-- What operations on foreign values do, and what code of the host does. They may perform further
operations by what they are given, and may use the context as they like. -/
class Embedding extends ForeignText where
  /-- A binary operation with the foreign value as an operand. -/
  binary (ev : Evaluator) (f : Foreign) (op : BinaryOp) (l r : Value) : Eval Value
  /-- A unary operation. -/
  unary (ev : Evaluator) (f : Foreign) (op : UnaryOp) : Eval Value
  /-- Equality with another value. -/
  equal (ev : Evaluator) (f : Foreign) (other : Value) : Eval Bool
  /-- The length. -/
  length (ev : Evaluator) (f : Foreign) : Eval Value
  /-- The entry of a key. -/
  get (ev : Evaluator) (f : Foreign) (key : Value) : Eval Value
  /-- Application to arguments. -/
  call (ev : Evaluator) (f : Foreign) (args : List Value) : Eval Value
  /-- Conversion to a built-in kind. -/
  convert (ev : Evaluator) (f : Foreign) (target : Kind) : Eval Value
  /-- A run of host code. -/
  run (E : Engine) (code : HostCode) : Eval Value

end LazyMachine
