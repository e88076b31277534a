/-!
# Operators

The binary and unary operators. Each has a name for diagnostics, a symbol of the postfix language
and a keyword of the program format.
-/

namespace LazyMachine

/-- A binary operator. -/
inductive BinaryOp where
  | add
  | sub
  | mul
  | div
  /-- Remainder with the sign of the dividend. -/
  | rem
  /-- Modulus with the sign of the divisor. -/
  | mod
  | pow
  | bitAnd
  | bitOr
  | bitXor
  | shl
  | shr
  | eq
  | ne
  | gt
  | lt
  | ge
  | le
  | concat
  | cons
deriving DecidableEq, Repr

/-- A unary operator. -/
inductive UnaryOp where
  | neg
  | not
  | bitNot
  | succ
  | pred
deriving DecidableEq, Repr

namespace BinaryOp

/-- All binary operators. -/
def all : List BinaryOp :=
  [.add, .sub, .mul, .div, .rem, .mod, .pow, .bitAnd, .bitOr, .bitXor, .shl, .shr, .eq, .ne, .gt,
    .lt, .ge, .le, .concat, .cons]

/-- The name used in diagnostics. -/
def name : BinaryOp → String
  | .add => "Add"
  | .sub => "Subtract"
  | .mul => "Multiply"
  | .div => "Divide"
  | .rem => "Remainder"
  | .mod => "Modulus"
  | .pow => "Power"
  | .bitAnd => "BitwiseAnd"
  | .bitOr => "BitwiseOr"
  | .bitXor => "BitwiseXor"
  | .shl => "ShiftLeft"
  | .shr => "ShiftRight"
  | .eq => "Equal"
  | .ne => "NotEqual"
  | .gt => "Greater"
  | .lt => "Lesser"
  | .ge => "GreaterEqual"
  | .le => "LesserEqual"
  | .concat => "Concatenate"
  | .cons => "Cons"

/-- The symbol in the postfix language. -/
def symbol : BinaryOp → String
  | .add => "+"
  | .sub => "-"
  | .mul => "*"
  | .div => "/"
  | .rem => "rem"
  | .mod => "%"
  | .pow => "**"
  | .bitAnd => "&&&"
  | .bitOr => "|||"
  | .bitXor => "^^^"
  | .shl => "<<<"
  | .shr => ">>>"
  | .eq => "=="
  | .ne => "<>"
  | .gt => ">"
  | .lt => "<"
  | .ge => ">="
  | .le => "<="
  | .concat => "++"
  | .cons => "::"

/-- The keyword in the program format. -/
def keyword : BinaryOp → String
  | .add => "add"
  | .sub => "sub"
  | .mul => "mul"
  | .div => "div"
  | .rem => "rem"
  | .mod => "mod"
  | .pow => "pow"
  | .bitAnd => "bit_and"
  | .bitOr => "bit_or"
  | .bitXor => "bit_xor"
  | .shl => "shl"
  | .shr => "shr"
  | .eq => "eq"
  | .ne => "ne"
  | .gt => "gt"
  | .lt => "lt"
  | .ge => "ge"
  | .le => "le"
  | .concat => "concat"
  | .cons => "cons"

/-- The operator of a symbol. -/
def ofSymbol? (symbol : String) : Option BinaryOp :=
  all.find? (·.symbol = symbol)

/-- The operator of a keyword. -/
def ofKeyword? (keyword : String) : Option BinaryOp :=
  all.find? (·.keyword = keyword)

end BinaryOp

namespace UnaryOp

/-- All unary operators. -/
def all : List UnaryOp :=
  [.neg, .not, .bitNot, .succ, .pred]

/-- The name used in diagnostics. -/
def name : UnaryOp → String
  | .neg => "Negate"
  | .not => "Not"
  | .bitNot => "BitwiseNot"
  | .succ => "Successor"
  | .pred => "Predecessor"

/-- The symbol in the postfix language. -/
def symbol : UnaryOp → String
  | .neg => "neg"
  | .not => "not"
  | .bitNot => "~~~"
  | .succ => "succ"
  | .pred => "pred"

/-- The keyword in the program format. -/
def keyword : UnaryOp → String
  | .neg => "neg"
  | .not => "not"
  | .bitNot => "bit_not"
  | .succ => "succ"
  | .pred => "pred"

/-- The operator of a symbol. -/
def ofSymbol? (symbol : String) : Option UnaryOp :=
  all.find? (·.symbol = symbol)

/-- The operator of a keyword. -/
def ofKeyword? (keyword : String) : Option UnaryOp :=
  all.find? (·.keyword = keyword)

end UnaryOp

end LazyMachine
