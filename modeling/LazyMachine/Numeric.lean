import LazyMachine.Decimal.Binary
import LazyMachine.Kind
import LazyMachine.Operator

/-!
# Arithmetic of the numeric tower

Two numbers are widened to the higher of their classes and computed there. Integers wrap around
in two's complement; quotients are cut off toward zero, the remainder has the sign of the dividend
and the modulus that of the divisor.
-/

namespace LazyMachine

/-- A number of the tower. -/
inductive Numeric where
  | int (i : Int32)
  | long (i : Int64)
  | single (x : Float32)
  | double (x : Float)

namespace Numeric

/-- The class of a number. -/
def numericClass : Numeric → NumericClass
  | .int _ => .int
  | .long _ => .long
  | .single _ => .single
  | .double _ => .double

/-- The nearest 32-bit floating-point number. -/
def toSingle : Numeric → Float32
  | .int i => i.toFloat32
  | .long i => i.toFloat32
  | .single x => x
  | .double x => x.toFloat32

/-- The nearest 64-bit floating-point number. -/
def toDouble : Numeric → Float
  | .int i => i.toFloat
  | .long i => i.toFloat
  | .single x => x.toFloat
  | .double x => x

/-- Two numbers of one class. -/
inductive Pair where
  | int (x y : Int32)
  | long (x y : Int64)
  | single (x y : Float32)
  | double (x y : Float)

/-- Widens both numbers to the higher of their classes. -/
def promote : Numeric → Numeric → Pair
  | .int x, .int y => .int x y
  | .int x, .long y => .long x.toInt64 y
  | .long x, .int y => .long x y.toInt64
  | .long x, .long y => .long x y
  | .double x, r => .double x r.toDouble
  | l, .double y => .double l.toDouble y
  | .single x, r => .single x r.toSingle
  | l, .single y => .single l.toSingle y

/-- The arithmetic operations. -/
inductive Arith where
  | add
  | sub
  | mul
  | div
  | rem
  | mod
  | pow
deriving DecidableEq, Repr

/-- Whether the operation divides by its right operand. -/
def Arith.divides : Arith → Bool
  | .div | .rem | .mod => true
  | _ => false

/-- Power by repeated squaring. -/
def power {α : Type} [Mul α] (one x : α) (n : Nat) : α :=
  if n = 0 then one
  else
    let root := power one (x * x) (n / 2)
    if n % 2 = 1 then x * root else root
termination_by n

/-- The largest exponent of an integer power; a larger one counts as this. -/
def largestExponent : Nat := Word.count 32 - 1

/-- Power of 32-bit integers. A negative exponent gives the reciprocal, cut off toward zero. -/
def powInt (x y : Int32) : Int32 :=
  if y < 0 then (Float.pow x.toFloat y.toFloat).toInt32 else power 1 x y.toInt.toNat

/-- Power of 64-bit integers. A negative exponent gives the reciprocal, cut off toward zero. -/
def powLong (x y : Int64) : Int64 :=
  if y < 0 then (Float.pow x.toFloat y.toFloat).toInt64
  else power 1 x (min y.toInt.toNat largestExponent)

/-- Adds the divisor to a remainder of the other sign. -/
def floored {α : Type} [Add α] (remainder divisor : α) (signsDiffer isZero : Bool) : α :=
  if signsDiffer && !isZero then remainder + divisor else remainder

/-- Whether two integers have opposite signs. -/
def oppositeInt (x y : Int32) : Bool :=
  (x < 0 && 0 < y) || (0 < x && y < 0)

/-- Whether two integers have opposite signs. -/
def oppositeLong (x y : Int64) : Bool :=
  (x < 0 && 0 < y) || (0 < x && y < 0)

/-- Whether two floating-point numbers have opposite signs. -/
def oppositeSingle (x y : Float32) : Bool :=
  (x < 0 && 0 < y) || (0 < x && y < 0)

/-- Whether two floating-point numbers have opposite signs. -/
def oppositeDouble (x y : Float) : Bool :=
  (x < 0 && 0 < y) || (0 < x && y < 0)

/-- Arithmetic of 32-bit integers. -/
def arithInt (op : Arith) (x y : Int32) : Int32 :=
  match op with
  | .add => x + y
  | .sub => x - y
  | .mul => x * y
  | .div => x / y
  | .rem => x % y
  | .mod => floored (x % y) y (oppositeInt x y) (x % y == 0)
  | .pow => powInt x y

/-- Arithmetic of 64-bit integers. -/
def arithLong (op : Arith) (x y : Int64) : Int64 :=
  match op with
  | .add => x + y
  | .sub => x - y
  | .mul => x * y
  | .div => x / y
  | .rem => x % y
  | .mod => floored (x % y) y (oppositeLong x y) (x % y == 0)
  | .pow => powLong x y

/-- Arithmetic of 32-bit floating-point numbers. -/
def arithSingle (op : Arith) (x y : Float32) : Float32 :=
  match op with
  | .add => x + y
  | .sub => x - y
  | .mul => x * y
  | .div => x / y
  | .rem => Decimal.remainderSingle x y
  | .mod =>
    let r := Decimal.remainderSingle x y
    floored r y (oppositeSingle x y) (r == 0)
  | .pow => Float32.pow x y

/-- Arithmetic of 64-bit floating-point numbers. -/
def arithDouble (op : Arith) (x y : Float) : Float :=
  match op with
  | .add => x + y
  | .sub => x - y
  | .mul => x * y
  | .div => x / y
  | .rem => Decimal.remainderDouble x y
  | .mod =>
    let r := Decimal.remainderDouble x y
    floored r y (oppositeDouble x y) (r == 0)
  | .pow => Float.pow x y

/-- Whether the right number of a pair is zero. -/
def Pair.rightIsZero : Pair → Bool
  | .int _ y => y == 0
  | .long _ y => y == 0
  | .single _ y => y == 0
  | .double _ y => y == 0

/-- Computes in the class of the pair. -/
def Pair.arith (op : Arith) : Pair → Numeric
  | .int x y => .int (arithInt op x y)
  | .long x y => .long (arithLong op x y)
  | .single x y => .single (arithSingle op x y)
  | .double x y => .double (arithDouble op x y)

/-- The bitwise operations. -/
inductive Bitwise where
  | and
  | or
  | xor
  | shl
  | shr
deriving DecidableEq, Repr

/-- Bitwise operation on 32-bit integers; a shift takes its count modulo the width. -/
def bitwiseInt (op : Bitwise) (x y : Int32) : Int32 :=
  match op with
  | .and => x &&& y
  | .or => x ||| y
  | .xor => x ^^^ y
  | .shl => x <<< y
  | .shr => x >>> y

/-- Bitwise operation on 64-bit integers; a shift takes its count modulo the width. -/
def bitwiseLong (op : Bitwise) (x y : Int64) : Int64 :=
  match op with
  | .and => x &&& y
  | .or => x ||| y
  | .xor => x ^^^ y
  | .shl => x <<< y
  | .shr => x >>> y

/-- Bitwise operation in the class of the pair, which must be integral. -/
def Pair.bitwise? (op : Bitwise) : Pair → Option Numeric
  | .int x y => some (.int (bitwiseInt op x y))
  | .long x y => some (.long (bitwiseLong op x y))
  | _ => none

/-- The order of two floating-point numbers given by their comparisons; NaN has none. -/
def orderOf (less equal greater : Bool) : Option Ordering :=
  if less then some .lt else if equal then some .eq else if greater then some .gt else none

/-- The order of a pair; NaN has none. -/
def Pair.order? : Pair → Option Ordering
  | .int x y => some (compare x.toInt y.toInt)
  | .long x y => some (compare x.toInt y.toInt)
  | .single x y => orderOf (x < y) (x == y) (y < x)
  | .double x y => orderOf (x < y) (x == y) (y < x)

/-- Unary operation on a number, where it is defined. -/
def unary? (op : UnaryOp) (n : Numeric) : Option Numeric :=
  match op, n with
  | .neg, .int i => some (.int (-i))
  | .neg, .long i => some (.long (-i))
  | .neg, .single x => some (.single (-x))
  | .neg, .double x => some (.double (-x))
  | .succ, .int i => some (.int (i + 1))
  | .succ, .long i => some (.long (i + 1))
  | .succ, .single x => some (.single (x + 1))
  | .succ, .double x => some (.double (x + 1))
  | .pred, .int i => some (.int (i - 1))
  | .pred, .long i => some (.long (i - 1))
  | .pred, .single x => some (.single (x - 1))
  | .pred, .double x => some (.double (x - 1))
  | .bitNot, .int i => some (.int (~~~i))
  | .bitNot, .long i => some (.long (~~~i))
  | _, _ => none

/-- Cuts off the decimals of a double; `none` for NaN and outside `width` bits. -/
def truncate? (x : Float) (width : Nat) : Option Int :=
  match Decimal.Number.ofDouble x with
  | .finite negative mantissa exponent _ =>
    let r := Decimal.Ratio.scaled mantissa 2 exponent
    let magnitude : Int := r.num / r.den
    let n := if negative then -magnitude else magnitude
    if Word.fits width n then some n else none
  | _ => none

/-- The integer part of a number of the tower, if it fits `width` bits. -/
def toInt? (n : Numeric) (width : Nat) : Option Int :=
  match n with
  | .int i => some i.toInt
  | .long i => if Word.fits width i.toInt then some i.toInt else none
  | .single x => truncate? x.toFloat width
  | .double x => truncate? x width

/-- The number in another class; integers must fit, decimals are cut off. -/
def convert? (n : Numeric) : NumericClass → Option Numeric
  | .int => (n.toInt? 32).map fun i => .int (Int32.ofInt i)
  | .long => (n.toInt? 64).map fun i => .long (Int64.ofInt i)
  | .single => some (.single n.toSingle)
  | .double => some (.double n.toDouble)

end Numeric

namespace BinaryOp

/-- The arithmetic operation of an operator. -/
def arith? : BinaryOp → Option Numeric.Arith
  | .add => some .add
  | .sub => some .sub
  | .mul => some .mul
  | .div => some .div
  | .rem => some .rem
  | .mod => some .mod
  | .pow => some .pow
  | _ => none

/-- The bitwise operation of an operator. -/
def bitwise? : BinaryOp → Option Numeric.Bitwise
  | .bitAnd => some .and
  | .bitOr => some .or
  | .bitXor => some .xor
  | .shl => some .shl
  | .shr => some .shr
  | _ => none

/-- Whether an order satisfies a comparison operator; `none` for the other operators. -/
def accepts? (op : BinaryOp) (order : Option Ordering) : Option Bool :=
  match op with
  | .gt => some (order == some .gt)
  | .lt => some (order == some .lt)
  | .ge => some (order == some .gt || order == some .eq)
  | .le => some (order == some .lt || order == some .eq)
  | _ => none

end BinaryOp

end LazyMachine
