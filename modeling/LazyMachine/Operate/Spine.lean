import LazyMachine.Eval

/-!
# Walking the spine of a list

The tail of a cell is a list or a lazy value that yields one. The walks below force the tails they
pass and never a head.
-/

namespace LazyMachine.Spine

variable (ev : Evaluator)

/-- Forces the tail of a cell, which must yield a list. -/
def next (c : Ref .cell) : Eval (Option (Ref .cell)) := do
  match ← ev.force ((← Eval.heap).cell c).tail with
  | .list rest => return rest
  | other => Eval.invalidUnary "Tail" other

/-- The heads of a list after those gathered so far. -/
def collectFrom : (fuel : Nat) → Option (Ref .cell) → List Value → Eval (List Value)
  | 0, _, _ => throw .exhausted
  | _ + 1, none, gathered => return gathered.reverse
  | fuel + 1, some c, gathered => do
    let head := ((← Eval.heap).cell c).head
    let rest ← next ev c
    collectFrom fuel rest (head :: gathered)

/-- The heads of a list. -/
def collect (list : Option (Ref .cell)) : Eval (List Value) :=
  collectFrom ev ev.fuel list []

/-- The number of cells of a list added to those counted so far. -/
def lengthFrom : (fuel : Nat) → Option (Ref .cell) → (counted : Nat) → Eval Nat
  | 0, _, _ => throw .exhausted
  | _ + 1, none, counted => return counted
  | fuel + 1, some c, counted => do
    let rest ← next ev c
    lengthFrom fuel rest (counted + 1)

/-- The number of cells of a list. -/
def length (list : Option (Ref .cell)) : Eval Nat :=
  lengthFrom ev ev.fuel list 0

/-- The element at a position, forcing only the tails before it. -/
def nth : Nat → Option (Ref .cell) → Eval (Option Value)
  | _, none => return none
  | 0, some c => return some ((← Eval.heap).cell c).head
  | i + 1, some c => do
    let rest ← next ev c
    nth i rest

/-- The list with the element at a position replaced. What follows the position is shared. -/
def setNth (item : Value) : Nat → Option (Ref .cell) → Eval (Option (Ref .cell))
  | _, none => return none
  | 0, some c => do
    let tail := ((← Eval.heap).cell c).tail
    return some (← Eval.makeCell item tail)
  | i + 1, some c => do
    let head := ((← Eval.heap).cell c).head
    let rest ← next ev c
    match ← setNth item i rest with
    | none => return none
    | some updated => return some (← Eval.makeCell head (.list (some updated)))

/-- The elements in reverse order in front of a list. -/
def reverseOnto : (fuel : Nat) → Option (Ref .cell) → Option (Ref .cell) →
    Eval (Option (Ref .cell))
  | 0, _, _ => throw .exhausted
  | _ + 1, none, onto => return onto
  | fuel + 1, some c, onto => do
    let head := ((← Eval.heap).cell c).head
    let onto ← Eval.makeCell head (.list onto)
    let rest ← next ev c
    reverseOnto fuel rest (some onto)

/-- The elements in reverse order. -/
def reverse (list : Option (Ref .cell)) : Eval (Option (Ref .cell)) :=
  reverseOnto ev ev.fuel list none

end LazyMachine.Spine
