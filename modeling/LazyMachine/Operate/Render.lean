import LazyMachine.Embedding
import LazyMachine.Operate.Spine

/-!
# Rendering

The text of a value. Every lazy value that is met is forced. An object that is met inside itself is
written `...`, and so is the rest of a list after the largest number of elements to show.
-/

namespace LazyMachine.Render

/-- Shortest forms of numbers, as in JSON but with unsigned exponents and with names for the special
numbers. -/
def doubleLayout : Decimal.Layout :=
  { Json.doubleLayout with plus := "", nan := "NaN", infinity := "Infinity" }

/-- Shortest forms of 32-bit numbers. -/
def singleLayout : Decimal.Layout :=
  { Json.singleLayout with plus := "", nan := "NaN", infinity := "Infinity" }

/-- An integer of `width` bits in a radix; other radices than ten show its two's complement. -/
def integer (radix : Radix) (width : Nat) (i : Int) : String :=
  let bits := (i % Word.count width).toNat
  match radix with
  | .decimal => toString i
  | .lowerHex => Text.numeral 16 bits
  | .upperHex => String.ofList ((Text.numeral 16 bits).toList.map Char.toUpper)
  | .binary => Text.numeral 2 bits

/-- A floating-point number given exactly and with its shortest form. Only the shortest form
depends on the width. -/
def float (style : FloatStyle) (shortest : String) : Decimal.Number → String
  | .finite negative mantissa exponent _ =>
    match style with
    | .shortest => shortest
    | .fixed places => Decimal.fixed negative mantissa exponent places
    | .exponent places => Decimal.scientific negative mantissa exponent places
  | _ => shortest

/-- A floating-point number as text; it has no other radix than ten. The host gives up if too many
digits are asked for. -/
def floatValue (format : Format) (v : Value) (shortest : String) (number : Decimal.Number) :
    Eval String :=
  if format.radix = .decimal then
    if number.isFinite && !format.style.fits then throw .crashed
    else return float format.style shortest number
  else Eval.fail (.invalidFormat format.spec v.typeName)

/-- A foreign value as text. -/
def foreign (format : Format) (f : Foreign) : String :=
  match f.data with
  | .meters n => toString n.toInt ++ "m" ++ format.spec
  | _ => "<" ++ f.kind.name ++ ">"

/-- Whether a value is a variant with a payload, which needs parentheses inside another one. -/
def needsParentheses? (h : Heap) : Value → Option Bool
  | .variant v => h.hasPayload? (h.variant v)
  | _ => some false

mutual

/-- The text of a value; `seen` holds the objects around it. -/
def value [ForeignText] (ev : Evaluator) (format : Format) :
    (fuel : Nat) → (nested : Bool) → (seen : List Address) → Value → Eval String
  | 0, _, _, _ => throw .exhausted
  | fuel + 1, nested, seen, v => do
    let quoted := nested || format.quoteStrings
    match ← ev.force v with
    | .unit => return "()"
    | .int i => return integer format.radix 32 i.toInt
    | .long i => return integer format.radix 64 i.toInt
    | .single x =>
      floatValue format (.single x) (singleLayout.write (.ofSingle x)) (.ofDouble x.toFloat)
    | .double x => floatValue format (.double x) (doubleLayout.write (.ofDouble x)) (.ofDouble x)
    | .bool b => return if b then "true" else "false"
    | .char c => return if quoted then Text.quoteChar c else String.singleton c
    | .str s => return if quoted then Text.quote s.text else s.text
    | .list first => return Text.listed (← items ev format fuel 0 seen first)
    | .record r =>
      -- what stands inside itself is not shown again
      let address := Address.node .record r.index
      if seen.contains address then return "..."
      let record := (← Eval.heap).record r
      return Text.braced (← fields ev format fuel (address :: seen) record.fields)
    | .variant v =>
      let address := Address.node .variant v.index
      if seen.contains address then return "..."
      let variant := (← Eval.heap).variant v
      let payload ← ev.force variant.payload
      if payload.isUnit then return variant.tag.text
      -- only memos are looked through here, so a pending inner payload counts as one
      let wrap ← Eval.find (needsParentheses? · payload)
      let text ← value ev format fuel true (address :: seen) payload
      return variant.tag.text ++ " " ++ if wrap then "(" ++ text ++ ")" else text
    | .lazy _ => return "<lazy>"
    | .function f =>
      let function := (← Eval.heap).function f
      return "<function " ++ function.name ++ "/" ++ toString function.remaining ++ ">"
    | .module m => return "<module " ++ ((← Eval.heap).module m).name ++ ">"
    | .typeInfo t => return "<type " ++ t.name ++ ">"
    | .foreign f => ForeignText.text ev format f

/-- The texts of the fields of a record. -/
def fields [ForeignText] (ev : Evaluator) (format : Format) :
    (fuel : Nat) → (seen : List Address) → List (String × Value) → Eval (List String)
  | 0, _, _ => throw .exhausted
  | _ + 1, _, [] => return []
  | fuel + 1, seen, (name, v) :: rest => do
    let text ← value ev format fuel true seen v
    return (name ++ " = " ++ text) :: (← fields ev format fuel seen rest)

/-- The texts of the elements of a list; `shown` counts those before. -/
def items [ForeignText] (ev : Evaluator) (format : Format) :
    (fuel : Nat) → (shown : Nat) → (seen : List Address) → Option (Ref .cell) →
      Eval (List String)
  | 0, _, _, _ => throw .exhausted
  | _ + 1, _, _, none => return []
  | fuel + 1, shown, seen, some c => do
    let address := Address.node .cell c.index
    if format.maxItems.any (· ≤ shown) || seen.contains address then return ["..."]
    let text ← value ev format fuel true (address :: seen) ((← Eval.heap).cell c).head
    let rest ← Spine.next ev c
    return text :: (← items ev format fuel (shown + 1) (address :: seen) rest)

end

end Render

/-- The text of a value. -/
def render [ForeignText] (ev : Evaluator) (format : Format) (v : Value) : Eval String := do
  Eval.ensureLive
  Render.value ev format ev.fuel false [] v

/-- The text of a value in the default format, on a context of its own. A failure becomes part of
the text. -/
def display [ForeignText] (ev : Evaluator) (v : Value) : Eval String := do
  match ← Eval.isolated {} (render ev {} v) with
  | (.ok text, _) => return text
  | (.error _, context) =>
    match context.error with
    | some e => return "<error: " ++ e.display ++ ">"
    | none => return "<error>"

end LazyMachine
