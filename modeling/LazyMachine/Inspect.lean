import LazyMachine.Eval

/-!
# Looking at values without evaluating

Host equality, the debugging text and the serialized text of a value. Nothing is forced. All three
walk the heap and end on acyclic data; `none` means that the fuel did not suffice. A walk that comes
to forced thunks whose values go round in a circle does not end, with any fuel.
-/

namespace LazyMachine.Inspect

mutual

/-- Host equality: same kind and same structure, without promotion; pending thunks, functions,
modules and foreign values are equal only to themselves. -/
def same? (h : Heap) : (fuel : Nat) → Value → Value → Option Bool
  | 0, _, _ => none
  | fuel + 1, l, r => do
    match ← h.resolve? l, ← h.resolve? r with
    | .unit, .unit => some true
    | .int a, .int b => some (a == b)
    | .long a, .long b => some (a == b)
    | .single a, .single b => some (a == b)
    | .double a, .double b => some (a == b)
    | .bool a, .bool b => some (a == b)
    | .char a, .char b => some (a == b)
    | .str a, .str b => some (a.text == b.text)
    | .list a, .list b => sameLists? h fuel a b
    | .record a, .record b =>
      if a = b then some true else sameFields? h fuel (h.record a).fields (h.record b).fields
    | .variant a, .variant b =>
      if a = b then some true
      else if (h.variant a).tag.text ≠ (h.variant b).tag.text then some false
      else same? h fuel (h.variant a).payload (h.variant b).payload
    | .lazy a, .lazy b => some (a == b)
    | .function a, .function b => some (a == b)
    | .module a, .module b => some (a == b)
    | .typeInfo a, .typeInfo b => some (a.id == b.id)
    | .foreign a, .foreign b => some (a.stamp == b.stamp)
    | _, _ => some false

/-- Host equality of fields. -/
def sameFields? (h : Heap) :
    (fuel : Nat) → List (String × Value) → List (String × Value) → Option Bool
  | 0, _, _ => none
  | _ + 1, [], [] => some true
  | fuel + 1, (n, v) :: a, (m, w) :: b =>
    if a.length ≠ b.length ∨ n ≠ m then some false
    else
      match same? h fuel v w with
      | some true => sameFields? h fuel a b
      | other => other
  | _ + 1, _, _ => some false

/-- Host equality of lists, as far as they are evaluated. -/
def sameLists? (h : Heap) :
    (fuel : Nat) → Option (Ref .cell) → Option (Ref .cell) → Option Bool
  | 0, _, _ => none
  | _ + 1, none, none => some true
  | fuel + 1, some a, some b =>
    if a = b then some true
    else
      match same? h fuel (h.cell a).head (h.cell b).head with
      | some true => do
        match ← h.resolve? (h.cell a).tail, ← h.resolve? (h.cell b).tail with
        | .list a, .list b => sameLists? h fuel a b
        | a, b => same? h fuel a b
      | other => other
  | _ + 1, _, _ => some false

end

/-- Whether two values are the same: the same object, or equal scalars. -/
def identical? (h : Heap) (fuel : Nat) (l r : Value) : Option Bool :=
  match l.address?, r.address? with
  | none, none => same? h fuel l r
  | a, b => some (a == b)

/-- Debugging texts write numbers positionally from `0.0001` up to below `1e16`. -/
def layout : Decimal.Layout where
  leastPoint := -3
  greatestPoint := 16
  plus := ""
  tie := .up
  nan := "NaN"
  infinity := "inf"

/-- The number of elements of a list in a debugging text. -/
def shownItems : Nat := 16

mutual

/-- The debugging text of a value. -/
def debug? (h : Heap) : (fuel : Nat) → Value → Option String
  | 0, _ => none
  | fuel + 1, v =>
    match v with
    | .unit => some "Unit"
    | .int i => some ("Int(" ++ toString i.toInt ++ ")")
    | .long i => some ("Long(" ++ toString i.toInt ++ ")")
    | .single x => some ("Single(" ++ layout.write (.ofSingle x) ++ ")")
    | .double x => some ("Double(" ++ layout.write (.ofDouble x) ++ ")")
    | .bool b => some (if b then "Bool(true)" else "Bool(false)")
    | .char c => some ("Char(" ++ Text.quoteChar c ++ ")")
    | .str s => some ("Str(" ++ Text.quote s.text ++ ")")
    | .list first => (debugItems? h fuel shownItems first).map Text.listed
    | .record r => (debugFields? h fuel (h.record r).fields).map Text.braced
    | .variant r =>
      let variant := h.variant r
      (debug? h fuel variant.payload).map fun text =>
        "Variant(" ++ variant.tag.text ++ ", " ++ text ++ ")"
    | .lazy t =>
      match h.memo? t with
      | some w => (debug? h fuel w).map fun text => "Lazy(" ++ text ++ ")"
      | none => some "Lazy(<pending>)"
    | .function f =>
      let fn := h.function f
      some ("Function(" ++ fn.name ++ "/" ++ toString fn.arity ++ ")")
    | .module m => some ("Module(" ++ (h.module m).name ++ ")")
    | .typeInfo t => some ("TypeInfo(" ++ t.name ++ ")")
    | .foreign f => some ("Foreign(" ++ f.kind.name ++ ")")

/-- The debugging texts of fields. -/
def debugFields? (h : Heap) : (fuel : Nat) → List (String × Value) → Option (List String)
  | 0, _ => none
  | _ + 1, [] => some []
  | fuel + 1, (name, v) :: rest =>
    match debug? h fuel v, debugFields? h fuel rest with
    | some text, some texts => some ((Text.quote name ++ ": " ++ text) :: texts)
    | _, _ => none

/-- The debugging texts of at most `more` elements of a list, as far as it is evaluated. -/
def debugItems? (h : Heap) : (fuel more : Nat) → Option (Ref .cell) → Option (List String)
  | 0, _, _ => none
  | _ + 1, _, none => some []
  | _ + 1, 0, some _ => some [".."]
  | fuel + 1, more + 1, some c =>
    let rest :=
      match h.resolve? (h.cell c).tail with
      | some (.list next) => debugItems? h fuel more next
      | some _ => some ["<lazy>"]
      | none => none
    match debug? h fuel (h.cell c).head, rest with
    | some text, some texts => some (text :: texts)
    | _, _ => none

end

/-- The debugging text of a thunk. -/
def debugThunk? (h : Heap) (fuel : Nat) (t : Ref .thunk) : Option String :=
  match h.memo? t with
  | some v => (debug? h fuel v).map fun text => "Thunk(" ++ text ++ ")"
  | none => some "Thunk(<pending>)"

mutual

/-- The value as JSON text, fields in order and all of them. Pending parts are marked. -/
def serialize? (h : Heap) : (fuel : Nat) → Value → Option String
  | 0, _ => none
  | fuel + 1, v => do
    let mark (text : String) : Option String := some (Json.writeString text)
    match ← h.resolve? v with
    | .unit => some "null"
    | .int i => some (toString i.toInt)
    | .long i => some (toString i.toInt)
    | .single x => some (Json.writeSingle x)
    | .double x => some (Json.writeDouble x)
    | .bool b => some (if b then "true" else "false")
    | .char c => mark (String.singleton c)
    | .str s => mark s.text
    | .list first => (serializeItems? h fuel first).map Json.array
    | .record r =>
      (serializeFields? h fuel (h.record r).fields).map Json.object
    | .variant r =>
      let variant := h.variant r
      (serialize? h fuel variant.payload).map fun text =>
        Json.object
          ["\"tag\":" ++ Json.writeString variant.tag.text, "\"value\":" ++ text]
    | .lazy _ => mark "<lazy>"
    | .function f => mark ("<function " ++ (h.function f).name ++ ">")
    | .module m => mark ("<module " ++ (h.module m).name ++ ">")
    | .typeInfo t => mark t.name
    | .foreign f => mark ("<" ++ f.kind.name ++ ">")

/-- The fields of a record as JSON text. -/
def serializeFields? (h : Heap) : (fuel : Nat) → List (String × Value) → Option (List String)
  | 0, _ => none
  | _ + 1, [] => some []
  | fuel + 1, (name, v) :: rest =>
    match serialize? h fuel v, serializeFields? h fuel rest with
    | some text, some texts => some ((Json.writeString name ++ ":" ++ text) :: texts)
    | _, _ => none

/-- The elements of a list as JSON text, as far as it is evaluated. -/
def serializeItems? (h : Heap) : (fuel : Nat) → Option (Ref .cell) → Option (List String)
  | 0, _ => none
  | _ + 1, none => some []
  | fuel + 1, some c =>
    let rest :=
      match h.resolve? (h.cell c).tail with
      | some (.list next) => serializeItems? h fuel next
      | some _ => some [Json.writeString "<lazy>"]
      | none => none
    match serialize? h fuel (h.cell c).head, rest with
    | some text, some texts => some (text :: texts)
    | _, _ => none

end

end LazyMachine.Inspect
