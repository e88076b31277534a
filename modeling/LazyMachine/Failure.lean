import LazyMachine.Json.Basic
import LazyMachine.Text.Quoted

/-!
# Runtime errors

A failed operation is described by the kind of failure, the operation, the type names of the
operands and a message. The constructors below are the failures that the operations report.
-/

namespace LazyMachine

/-- The kind of a runtime failure. -/
inductive ErrorKind where
  /-- The operator is not defined on these kinds. -/
  | invalidOperand
  | divideByZero
  /-- No clause of an overloaded function accepts the types of the arguments. -/
  | noOverload
  | indexOutOfRange
  | invalidIndexType
  | conversionFailed
  /-- A text could not be read as a value of the wanted kind. -/
  | unableRead
  | invalidFormat
  /-- A lazy value was forced while its own evaluation was under way. -/
  | cyclicLazy
  /-- A nested run gave up, or the host reported a failure. -/
  | fault
deriving DecidableEq, Repr

namespace ErrorKind

/-- All kinds of failure. -/
def all : List ErrorKind :=
  [.invalidOperand, .divideByZero, .noOverload, .indexOutOfRange, .invalidIndexType,
    .conversionFailed, .unableRead, .invalidFormat, .cyclicLazy, .fault]

/-- The name of a kind of failure. -/
def name : ErrorKind → String
  | .invalidOperand => "InvalidOperand"
  | .divideByZero => "DivideByZero"
  | .noOverload => "NoOverload"
  | .indexOutOfRange => "IndexOutOfRange"
  | .invalidIndexType => "InvalidIndexType"
  | .conversionFailed => "ConversionFailed"
  | .unableRead => "UnableRead"
  | .invalidFormat => "InvalidFormat"
  | .cyclicLazy => "CyclicLazy"
  | .fault => "Fault"

/-- The kind of failure of a name. -/
def ofName? (name : String) : Option ErrorKind :=
  all.find? (·.name = name)

end ErrorKind

/-- The description of a failed operation. -/
structure RuntimeError where
  /-- The kind of failure. -/
  kind : ErrorKind
  /-- The operation. -/
  op : String
  /-- The type names of the operands. -/
  operands : List String
  /-- What went wrong. -/
  message : String
deriving DecidableEq, Repr

namespace RuntimeError

/-- The description as one line. -/
def display (e : RuntimeError) : String :=
  let operands :=
    if e.operands.isEmpty then "" else "; operands: " ++ String.intercalate ", " e.operands
  e.kind.name ++ ": " ++ e.message ++ " (op " ++ e.op ++ operands ++ ")"

/-- The description as JSON. -/
def toJson (e : RuntimeError) : Json :=
  .obj [("kind", .str e.kind.name), ("op", .str e.op), ("operands", .arr (e.operands.map .str)),
    ("message", .str e.message)]

/-- The operation is not defined on two operands of these types. -/
def invalidOperand (op left right : String) : RuntimeError where
  kind := .invalidOperand
  op := op
  operands := [left, right]
  message := "cannot apply " ++ op ++ " to " ++ left ++ " and " ++ right

/-- The operation is not defined on an operand of this type. -/
def invalidUnary (op type : String) : RuntimeError where
  kind := .invalidOperand
  op := op
  operands := [type]
  message := "cannot apply " ++ op ++ " to " ++ type

/-- The divisor is zero. -/
def divideByZero (op left : String) : RuntimeError where
  kind := .divideByZero
  op := op
  operands := [left]
  message := op ++ " of " ++ left ++ " by zero"

/-- No clause of the function accepts arguments of these types. -/
def noOverload (function : String) (types : List String) : RuntimeError where
  kind := .noOverload
  op := function
  operands := types
  message := "no clause of " ++ function ++ " accepts (" ++ String.intercalate ", " types ++ ")"

/-- The container has no entry at the index, which is given by its text and its type. -/
def indexOutOfRange (container index indexType : String) : RuntimeError where
  kind := .indexOutOfRange
  op := "GetValue"
  operands := [container, indexType]
  message := "index " ++ index ++ " is out of range for " ++ container

/-- The container is not indexed by values of this type. -/
def invalidIndexType (container indexType : String) : RuntimeError where
  kind := .invalidIndexType
  op := "GetValue"
  operands := [container, indexType]
  message := container ++ " cannot be indexed by " ++ indexType

/-- The value has no image of the wanted type. -/
def conversionFailed (type target : String) : RuntimeError where
  kind := .conversionFailed
  op := "Convert"
  operands := [type, target]
  message := "cannot convert " ++ type ++ " to " ++ target

/-- The text is no value of the wanted type. -/
def unableRead (text target : String) : RuntimeError where
  kind := .unableRead
  op := "Read"
  operands := ["String", target]
  message := "unable to read " ++ Text.quote text ++ " as " ++ target

/-- The format does not apply to values of this type. -/
def invalidFormat (spec type : String) : RuntimeError where
  kind := .invalidFormat
  op := "Show"
  operands := [type]
  message := "invalid format " ++ Text.quote spec ++ " for " ++ type

/-- A lazy value was forced while its own evaluation was under way. -/
def cyclicLazy : RuntimeError where
  kind := .cyclicLazy
  op := "Force"
  operands := ["Lazy"]
  message := "lazy value depends on itself"

/-- A failure reported by the host or by a nested run. -/
def fault (op message : String) : RuntimeError where
  kind := .fault
  op := op
  operands := []
  message := message

end RuntimeError

end LazyMachine
