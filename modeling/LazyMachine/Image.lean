import LazyMachine.Boundary

/-!
# JSON images

The JSON image of a value, for which every lazy part is forced, and the value of a JSON text. In the
image of a record the first of several fields of one name counts.
-/

namespace LazyMachine

namespace Image

/-- A floating-point number; infinities and NaN have no image. -/
def ofDouble (x : Float) : Json :=
  match Decimal.Number.ofDouble x with
  | .finite _ _ _ _ => .float x
  | _ => .null

mutual

/-- The image of a value. -/
def value (ev : Evaluator) : (fuel : Nat) → Value → Eval Json
  | 0, _ => throw .exhausted
  | fuel + 1, v => do
    let v ← ev.force v
    match v with
    | .unit => return .null
    | .int i => return .int i.toInt
    | .long i => return .int i.toInt
    | .single x => return ofDouble x.toFloat
    | .double x => return ofDouble x
    | .bool b => return .bool b
    | .char c => return .str (String.singleton c)
    | .str s => return .str s.text
    | .list first => return .arr (← items ev fuel (← Spine.collect ev first))
    | .record r => return .obj (← fields ev fuel [] ((← Eval.heap).record r).fields)
    | .variant r =>
      let variant := (← Eval.heap).variant r
      return .obj [("tag", .str variant.tag.text), ("value", ← value ev fuel variant.payload)]
    | _ => Eval.conversionFailed v "Json"

/-- The images of the elements of a list. -/
def items (ev : Evaluator) : (fuel : Nat) → List Value → Eval (List Json)
  | 0, _ => throw .exhausted
  | _ + 1, [] => return []
  | fuel + 1, v :: vs => do
    let image ← value ev fuel v
    return image :: (← items ev fuel vs)

/-- The images of fields whose names are not taken yet, added to those gathered. -/
def fields (ev : Evaluator) :
    (fuel : Nat) → List (String × Json) → List (String × Value) → Eval (List (String × Json))
  | 0, _, _ => throw .exhausted
  | _ + 1, gathered, [] => return gathered
  | fuel + 1, gathered, (name, v) :: rest => do
    if gathered.any (·.1 = name) then fields ev fuel gathered rest
    else
      let image ← value ev fuel v
      fields ev fuel (Json.insertField name image gathered) rest

end

mutual

/-- The value of a JSON value. Integers of 32 bits are small, others of 64 bits are large, and all
other numbers are doubles. -/
def toValue : Json → Eval Value
  | .null => return .unit
  | .bool b => return .bool b
  | .int n =>
    if Word.fits 32 n then return .int (Int32.ofInt n)
    else if Word.fits 64 n then return .long (Int64.ofInt n)
    else return .double (Decimal.roundDouble (n < 0) ⟨n.natAbs, 1⟩)
  | .float x => return .double x
  | .str text => Eval.makeStr text
  | .arr items => do Eval.makeList (← toValues items)
  | .obj fields => do Eval.makeRecord ⟨← toFields fields⟩

/-- The values of the elements of an array. -/
def toValues : List Json → Eval (List Value)
  | [] => return []
  | item :: items => do
    let v ← toValue item
    return v :: (← toValues items)

/-- The values of the fields of an object. -/
def toFields : List (String × Json) → Eval (List (String × Value))
  | [] => return []
  | (name, item) :: fields => do
    let v ← toValue item
    return (name, v) :: (← toFields fields)

end

end Image

/-- The JSON image of a value. -/
def toJson (level : Nat) (v : Value) : Eval (Answer Json) :=
  onFresh (Image.value (evaluator level) level v)

/-- The value of a JSON value, with the fields of its objects in order of their names. -/
def ofJson (j : Json) : Eval Value :=
  Image.toValue j.canonical

end LazyMachine
