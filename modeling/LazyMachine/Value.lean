import LazyMachine.Numeric
import LazyMachine.Program

/-!
# Values

A value is either a scalar or refers to an object of the heap, so that copying one never copies
structure. Every string, type descriptor and foreign value carries the stamp it was made with,
which tells apart equal ones that were made separately.
-/

namespace LazyMachine

/-- The kinds of objects on the heap. -/
inductive NodeKind where
  | cell
  | record
  | variant
  | thunk
  | function
  | module
deriving DecidableEq, Repr

/-- A reference to an object of one kind. -/
structure Ref (kind : NodeKind) where
  /-- The position among the objects of its kind. -/
  index : Nat
deriving DecidableEq, Repr, Inhabited

/-- A string with its identity. -/
structure Str where
  /-- The stamp it was made with. -/
  stamp : Nat
  /-- The characters. -/
  text : String
deriving DecidableEq, Repr, Inhabited

/-- A type descriptor. -/
structure TypeInfo where
  /-- The stamp it was made with. -/
  stamp : Nat
  /-- The id of the type. -/
  id : Nat
  /-- The name of the type. -/
  name : String
deriving DecidableEq, Repr, Inhabited

/-- The kinds of values that the host adds. -/
inductive ForeignKind where
  /-- Values without any operation of their own. -/
  | sealed
  /-- Lengths in whole metres. -/
  | meters
  /-- Any other kind, by its id and name. -/
  | other (id : Nat) (name : String)
deriving DecidableEq, Repr

namespace ForeignKind

/-- The kinds that the standard host adds. -/
def all : List ForeignKind :=
  [.sealed, .meters]

/-- The id; ids of foreign kinds start at 64. -/
def id : ForeignKind → Nat
  | .sealed => 64
  | .meters => 65
  | .other id _ => id

/-- The name. -/
def name : ForeignKind → String
  | .sealed => "Opaque"
  | .meters => "Meters"
  | .other _ name => name

/-- The kind of an id. -/
def ofId? (id : Nat) : Option ForeignKind :=
  all.find? (·.id = id)

/-- The kind of a name. -/
def ofName? (name : String) : Option ForeignKind :=
  all.find? (·.name = name)

end ForeignKind

/-- What a foreign value holds. -/
inductive ForeignData where
  | sealed
  | meters (amount : Int64)
  /-- A value of another kind; what the number stands for is known to the host alone. -/
  | other (id : Nat) (name : String) (content : Nat)
deriving DecidableEq

/-- A foreign value. -/
structure Foreign where
  /-- The stamp it was made with. -/
  stamp : Nat
  /-- What it holds. -/
  data : ForeignData
deriving DecidableEq

/-- The kind of a foreign value. -/
def Foreign.kind (f : Foreign) : ForeignKind :=
  match f.data with
  | .sealed => .sealed
  | .meters _ => .meters
  | .other id name _ => .other id name

/-- A value. -/
inductive Value where
  | unit
  | int (i : Int32)
  | long (i : Int64)
  | single (x : Float32)
  | double (x : Float)
  | bool (b : Bool)
  | char (c : Char)
  | str (s : Str)
  /-- A list is empty or starts with a cell. -/
  | list (first : Option (Ref .cell))
  | record (r : Ref .record)
  | variant (v : Ref .variant)
  | lazy (t : Ref .thunk)
  | function (f : Ref .function)
  | module (m : Ref .module)
  | typeInfo (t : TypeInfo)
  | foreign (f : Foreign)
deriving Inhabited

/-- What tells two objects apart. -/
inductive Address where
  /-- The place on the heap. -/
  | node (kind : NodeKind) (index : Nat)
  /-- The stamp. -/
  | stamp (n : Nat)
deriving DecidableEq, Repr

namespace Value

/-- The built-in kind; a foreign value has none. -/
def kind? : Value → Option Kind
  | .unit => some .unit
  | .int _ => some .int
  | .long _ => some .long
  | .single _ => some .single
  | .double _ => some .double
  | .bool _ => some .bool
  | .char _ => some .char
  | .str _ => some .string
  | .list _ => some .list
  | .record _ => some .record
  | .variant _ => some .variant
  | .lazy _ => some .lazy
  | .function _ => some .function
  | .module _ => some .module
  | .typeInfo _ => some .typeInfo
  | .foreign _ => none

/-- The id of the type. -/
def typeId : Value → Nat
  | .foreign f => f.kind.id
  | v => (v.kind?.getD .unit).id

/-- The name of the type. -/
def typeName : Value → String
  | .foreign f => f.kind.name
  | v => (v.kind?.getD .unit).name

/-- Whether this is the unit value. -/
def isUnit : Value → Bool
  | .unit => true
  | _ => false

/-- Whether this is a lazy value, forced or not. -/
def isLazy : Value → Bool
  | .lazy _ => true
  | _ => false

/-- The number that a value is. -/
def numeric? : Value → Option Numeric
  | .int i => some (.int i)
  | .long i => some (.long i)
  | .single x => some (.single x)
  | .double x => some (.double x)
  | _ => none

/-- A number as a value. -/
def ofNumeric : Numeric → Value
  | .int i => .int i
  | .long i => .long i
  | .single x => .single x
  | .double x => .double x

/-- The identity of the object behind a value; scalars and the empty list have none. -/
def address? : Value → Option Address
  | .str s => some (.stamp s.stamp)
  | .list (some c) => some (.node .cell c.index)
  | .record r => some (.node .record r.index)
  | .variant v => some (.node .variant v.index)
  | .lazy t => some (.node .thunk t.index)
  | .function f => some (.node .function f.index)
  | .module m => some (.node .module m.index)
  | .typeInfo t => some (.stamp t.stamp)
  | .foreign f => some (.stamp f.stamp)
  | _ => none

end Value

end LazyMachine
