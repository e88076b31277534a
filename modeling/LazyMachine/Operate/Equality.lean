import LazyMachine.Operate.Foreign

/-!
# Equality

Numbers are equal if they are so after promotion, structures if their parts are, and values of
unrelated kinds never. Pairs of objects that were met before count as equal, so the comparison ends
on cyclic data.
-/

namespace LazyMachine.Equality

/-- The pairs of objects met so far. -/
abbrev Met := List (Address × Address)

mutual

/-- Compares two values; gives the pairs met afterwards. -/
def value [Embedding] (ev : Evaluator) : (fuel : Nat) → Value → Value → Met → Eval (Bool × Met)
  | 0, _, _, _ => throw .exhausted
  | fuel + 1, l, r, met => do
    let l ← ev.force l
    let r ← ev.force r
    match l, r with
    | .foreign f, r => return (← Embedding.equal ev f r, met)
    | l, .foreign f => return (← Embedding.equal ev f l, met)
    | .unit, .unit => return (true, met)
    | .bool a, .bool b => return (a == b, met)
    | .char a, .char b => return (a == b, met)
    | .str a, .str b => return (a.text == b.text, met)
    | .list a, .list b => lists ev fuel a b met
    | .record a, .record b =>
      let pair := (Address.node .record a.index, Address.node .record b.index)
      -- a pair that is met again is on a cycle, and taken to be equal
      if met.contains pair then return (true, met)
      let h ← Eval.heap
      let a := (h.record a).fields
      let b := (h.record b).fields
      if a.length ≠ b.length then return (false, pair :: met)
      fields ev fuel a b (pair :: met)
    | .variant a, .variant b =>
      let pair := (Address.node .variant a.index, Address.node .variant b.index)
      if met.contains pair then return (true, met)
      let h ← Eval.heap
      let a := h.variant a
      let b := h.variant b
      if a.tag.text ≠ b.tag.text then return (false, pair :: met)
      value ev fuel a.payload b.payload (pair :: met)
    | .function a, .function b => return (a == b, met)
    | .module a, .module b => return (a == b, met)
    | .typeInfo a, .typeInfo b => return (a.id == b.id, met)
    | l, r =>
      match l.numeric?, r.numeric? with
      | some a, some b => return ((a.promote b).order? == some .eq, met)
      | _, _ => return (false, met)

/-- Compares fields in order. -/
def fields [Embedding] (ev : Evaluator) :
    (fuel : Nat) → List (String × Value) → List (String × Value) → Met → Eval (Bool × Met)
  | 0, _, _, _ => throw .exhausted
  | fuel + 1, (n, v) :: a, (m, w) :: b, met => do
    if n ≠ m then return (false, met)
    let (same, met) ← value ev fuel v w met
    if same then fields ev fuel a b met else return (false, met)
  | _ + 1, _, _, met => return (true, met)

/-- Compares lists along their spines. -/
def lists [Embedding] (ev : Evaluator) :
    (fuel : Nat) → Option (Ref .cell) → Option (Ref .cell) → Met → Eval (Bool × Met)
  | 0, _, _, _ => throw .exhausted
  | _ + 1, none, none, met => return (true, met)
  | fuel + 1, some a, some b, met => do
    let pair := (Address.node .cell a.index, Address.node .cell b.index)
    if met.contains pair then return (true, met)
    let h ← Eval.heap
    let (same, met) ← value ev fuel (h.cell a).head (h.cell b).head (pair :: met)
    if !same then return (false, met)
    let a ← Spine.next ev a
    let b ← Spine.next ev b
    lists ev fuel a b met
  | _ + 1, _, _, met => return (false, met)

end

end Equality

/-- Whether two values are equal. -/
def equal [Embedding] (ev : Evaluator) (l r : Value) : Eval Bool := do
  Eval.ensureLive
  return (← Equality.value ev ev.fuel l r []).1

end LazyMachine
