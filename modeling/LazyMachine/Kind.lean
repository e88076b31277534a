/-!
# Kinds of values

The built-in kinds with their numeric ids and names, and the numeric tower
`Int < Long < Single < Double` in which operands of different classes meet.
-/

namespace LazyMachine

/-- A built-in kind of value. -/
inductive Kind where
  | unit
  | int
  | long
  | single
  | double
  | bool
  | char
  | string
  | list
  | record
  | variant
  | lazy
  | function
  | module
  | typeInfo
deriving DecidableEq, Repr, Inhabited

namespace Kind

/-- All built-in kinds in order of their ids. -/
def all : List Kind :=
  [.unit, .int, .long, .single, .double, .bool, .char, .string, .list, .record, .variant, .lazy,
    .function, .module, .typeInfo]

/-- The numeric id. -/
def id : Kind → Nat
  | .unit => 0
  | .int => 1
  | .long => 2
  | .single => 3
  | .double => 4
  | .bool => 5
  | .char => 6
  | .string => 7
  | .list => 8
  | .record => 9
  | .variant => 10
  | .lazy => 11
  | .function => 12
  | .module => 13
  | .typeInfo => 14

/-- The name. -/
def name : Kind → String
  | .unit => "Unit"
  | .int => "Int"
  | .long => "Long"
  | .single => "Single"
  | .double => "Double"
  | .bool => "Bool"
  | .char => "Char"
  | .string => "String"
  | .list => "List"
  | .record => "Record"
  | .variant => "Variant"
  | .lazy => "Lazy"
  | .function => "Function"
  | .module => "Module"
  | .typeInfo => "TypeInfo"

/-- The kind of an id. -/
def ofId? (id : Nat) : Option Kind :=
  all[id]?

/-- The kind of a name. -/
def ofName? (name : String) : Option Kind :=
  all.find? (·.name = name)

/-- Kinds whose values need no heap object of their own. -/
def isInline : Kind → Bool
  | .unit | .int | .single | .char | .bool => true
  | _ => false

/-- An id leads back to its kind. -/
theorem ofId?_id (k : Kind) : ofId? k.id = some k := by
  cases k <;> rfl

end Kind

/-- A class of the numeric tower. -/
inductive NumericClass where
  | int
  | long
  | single
  | double
deriving DecidableEq, Repr

namespace NumericClass

/-- The position in the tower. -/
def rank : NumericClass → Nat
  | .int => 0
  | .long => 1
  | .single => 2
  | .double => 3

/-- The class in which two operands are computed: the higher one. -/
def join (l r : NumericClass) : NumericClass :=
  if l.rank < r.rank then r else l

/-- The kind of the numbers of a class. -/
def kind : NumericClass → Kind
  | .int => .int
  | .long => .long
  | .single => .single
  | .double => .double

/-- Whether the numbers of a class are integers. -/
def isIntegral : NumericClass → Bool
  | .int | .long => true
  | _ => false

end NumericClass

/-- The class of a numeric kind. -/
def Kind.numericClass? : Kind → Option NumericClass
  | .int => some .int
  | .long => some .long
  | .single => some .single
  | .double => some .double
  | _ => none

end LazyMachine
