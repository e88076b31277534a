import LazyMachine.Operate.Arithmetic

/-!
# Containers and sequences

Lists and strings are sequences; records, modules, lists and strings are indexed. Updates make new
containers and leave the old ones as they are.
-/

namespace LazyMachine

/-- A count as an integer of the smaller class that holds it. -/
def countValue (n : Nat) : Value :=
  if Word.fits 32 n then .int (Int32.ofNat n) else .long (Int64.ofNat n)

/-- An integer key. -/
def ordinal? : Value → Option Int
  | .int i => some i.toInt
  | .long i => some i.toInt
  | _ => none

/-- An integer as a position. -/
def position? (i : Int) : Option Nat :=
  if 0 ≤ i then some i.toNat else none

/-- The key is of a type that does not index the container. -/
def invalidIndexType {α : Type} (container key : Value) : Eval α :=
  Eval.fail (.invalidIndexType container.typeName key.typeName)

/-- The number of elements, characters, fields or exports. -/
def length [Embedding] (ev : Evaluator) (v : Value) : Eval Value := do
  let v ← ev.force v
  match v with
  | .str s => return countValue s.text.length
  | .list first => return countValue (← Spine.length ev first)
  | .record r => return countValue ((← Eval.heap).record r).length
  | .module m => return countValue ((← Eval.heap).module m).exports.length
  | .foreign f => Embedding.length ev f
  | _ => Eval.invalidUnary "GetLength" v

/-- Yields what was found at a key. -/
def foundAt [Embedding] (ev : Evaluator) (container key : Value) : Option Value → Eval Value
  | some v => return v
  | none => indexOutOfRange ev container key

/-- The entry of a container at a key. -/
def getValue [Embedding] (ev : Evaluator) (container key : Value) : Eval Value := do
  let container ← ev.force container
  let key ← ev.force key
  match container with
  | .str s =>
    match ordinal? key with
    | none => invalidIndexType container key
    | some i =>
      foundAt ev container key ((position? i).bind fun i => s.text.toList[i]?.map .char)
  | .list first =>
    match ordinal? key with
    | none => invalidIndexType container key
    | some i =>
      match position? i with
      | some i => foundAt ev container key (← Spine.nth ev i first)
      | none => indexOutOfRange ev container key
  | .record r =>
    let record := (← Eval.heap).record r
    match key with
    | .str s => foundAt ev container key (record.get? s.text)
    | _ =>
      match ordinal? key with
      | some i => foundAt ev container key ((position? i).bind record.at?)
      | none => invalidIndexType container key
  | .module m =>
    match key with
    | .str s => foundAt ev container key (((← Eval.heap).module m).exports.get? s.text)
    | _ => invalidIndexType container key
  | .foreign f => Embedding.get ev f key
  | _ => Eval.invalidOperand "GetValue" container key

/-- The container with the entry at a key replaced. -/
def setValue [Embedding] (ev : Evaluator) (container key item : Value) : Eval Value := do
  let container ← ev.force container
  let key ← ev.force key
  match container with
  | .record r =>
    let record := (← Eval.heap).record r
    let update (i : Option Nat) : Eval Value :=
      match i.bind fun i => record.setAt? i item with
      | some updated => Eval.makeRecord updated
      | none => indexOutOfRange ev container key
    match key with
    | .str s => update (record.position? s.text)
    | _ =>
      match ordinal? key with
      | some i => update (position? i)
      | none => invalidIndexType container key
  | .list first =>
    match ordinal? key with
    | none => invalidIndexType container key
    | some i =>
      match position? i with
      | none => indexOutOfRange ev container key
      | some i =>
        match ← Spine.setNth ev item i first with
        | some updated => return .list (some updated)
        | none => indexOutOfRange ev container key
  | _ => Eval.invalidOperand "SetValue" container key

/-- The first element. -/
def head (ev : Evaluator) (v : Value) : Eval Value := do
  let v ← ev.force v
  match v with
  | .list (some c) => return ((← Eval.heap).cell c).head
  | .str s =>
    match s.text.toList with
    | c :: _ => return .char c
    | [] => Eval.invalidUnary "Head" v
  | _ => Eval.invalidUnary "Head" v

/-- What follows the first element. A lazy tail is not forced. -/
def tail (ev : Evaluator) (v : Value) : Eval Value := do
  let v ← ev.force v
  match v with
  | .list (some c) => return ((← Eval.heap).cell c).tail
  | .str s =>
    match s.text.toList with
    | _ :: cs => Eval.makeStr (String.ofList cs)
    | [] => Eval.invalidUnary "Tail" v
  | _ => Eval.invalidUnary "Tail" v

/-- Whether a sequence is empty. -/
def isNil (ev : Evaluator) (v : Value) : Eval Bool := do
  let v ← ev.force v
  match v with
  | .list first => return first.isNone
  | .str s => return s.text.isEmpty
  | _ => Eval.invalidUnary "IsNil" v

/-- Prepends a head to a tail. Neither is forced, so a lazy tail stays lazy. -/
def cons [Embedding] (ev : Evaluator) (head tail : Value) : Eval Value := do
  Eval.ensureLive
  match ← Eval.resolve tail with
  | .list rest => return .list (some (← Eval.makeCell head (.list rest)))
  | .lazy _ => return .list (some (← Eval.makeCell head tail))
  | .str s =>
    match ← Eval.resolve head with
    | .char c => Eval.makeStr (String.singleton c ++ s.text)
    | other => Eval.invalidOperand "Cons" other tail
  | .foreign f => Embedding.binary ev f .cons head tail
  | other => Eval.invalidOperand "Cons" head other

/-- The empty sequence of the same kind. -/
def nilOf (ev : Evaluator) (v : Value) : Eval Value := do
  let v ← ev.force v
  match v with
  | .list _ => return .list none
  | .str _ => Eval.makeStr ""
  | .record _ => Eval.makeRecord ⟨[]⟩
  | _ => Eval.invalidUnary "Nil" v

/-- Adds an item to a sequence under construction. Lists gather in reverse order and do not force
the item. -/
def generate (ev : Evaluator) (acc item : Value) : Eval Value := do
  let acc ← ev.force acc
  match acc with
  | .list first => return .list (some (← Eval.makeCell item (.list first)))
  | .str s =>
    match ← ev.force item with
    | .char c => Eval.makeStr (s.text.push c)
    | .str t => Eval.makeStr (s.text ++ t.text)
    | other => Eval.invalidOperand "Generate" acc other
  | _ => Eval.invalidOperand "Generate" acc item

/-- Finishes a sequence under construction. -/
def finalize (ev : Evaluator) (acc : Value) : Eval Value := do
  let acc ← ev.force acc
  match acc with
  | .list first => return .list (← Spine.reverse ev first)
  | .str _ => return acc
  | _ => Eval.invalidUnary "GenerateFinalize" acc

/-- The tag of a variant. -/
def tagOf (ev : Evaluator) (v : Value) : Eval Value := do
  match ← ev.force v with
  | .variant r => return .str ((← Eval.heap).variant r).tag
  | other => Eval.invalidUnary "GetTag" other

/-- The payload of a variant. -/
def untag (ev : Evaluator) (v : Value) : Eval Value := do
  match ← ev.force v with
  | .variant r => return ((← Eval.heap).variant r).payload
  | other => Eval.invalidUnary "Untag" other

/-- Concatenation of forced operands. -/
def concat (ev : Evaluator) (l r : Value) : Eval Value := do
  match l, r with
  | .str a, .str b => Eval.makeStr (a.text ++ b.text)
  | .str a, .char b => Eval.makeStr (a.text.push b)
  | .char a, .str b => Eval.makeStr (String.singleton a ++ b.text)
  | .char a, .char b => Eval.makeStr ((String.singleton a).push b)
  | .list _, .list none => return l
  | .list a, .list b => return .list (← Eval.prepend (← Spine.collect ev a) b)
  | .record a, .record b =>
    let h ← Eval.heap
    Eval.makeRecord ((h.record a).append (h.record b))
  | _, _ => Eval.invalidOperand "Concatenate" l r

/-- A binary operator. -/
def binary [Embedding] (ev : Evaluator) (op : BinaryOp) (l r : Value) : Eval Value := do
  Eval.ensureLive
  match op with
  | .cons => cons ev l r
  | .eq | .ne | .gt | .lt | .ge | .le => relation ev op l r
  | _ =>
    let l ← ev.force l
    let r ← ev.force r
    match l, r with
    | .foreign f, _ => Embedding.binary ev f op l r
    | _, .foreign f => Embedding.binary ev f op l r
    | _, _ =>
      match op.arith?, op.bitwise? with
      | some a, _ => arithmetic op a l r
      | none, some b => bitwise op b l r
      | none, none => concat ev l r

end LazyMachine
