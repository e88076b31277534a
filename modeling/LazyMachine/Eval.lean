import LazyMachine.Context

/-!
# Evaluations

An evaluation changes the world, which is the heap, the context, the state of the host and a count
of the instructions executed, and yields a value or an interrupt; an interrupt keeps the changes
made so far.
-/

namespace LazyMachine

/-- What the host keeps between evaluations. -/
structure Host where
  /-- The variables, the latest binding of a name first. -/
  bindings : List (String × Value) := []
  /-- Runs of thunk bodies so far. -/
  runs : Nat := 0
  /-- Runs of function bodies so far. -/
  calls : Nat := 0
  /-- Latches that host code sets once. -/
  latches : Array Bool := #[]
deriving Inhabited

namespace Host

/-- The value of a variable. -/
def valueOf? (h : Host) (name : String) : Option Value :=
  (h.bindings.find? (·.1 = name)).map (·.2)

/-- Binds a variable. -/
def bind (h : Host) (name : String) (v : Value) : Host :=
  { h with bindings := (name, v) :: h.bindings.filter (·.1 ≠ name) }

/-- Counts a run. -/
def count (h : Host) : Tally → Host
  | .runs => { h with runs := h.runs + 1 }
  | .calls => { h with calls := h.calls + 1 }

/-- Sets a latch. -/
def setLatch (h : Host) (i : Nat) : Host :=
  { h with latches := h.latches.setIfInBounds i true }

end Host

/-- Everything that an evaluation can change. -/
structure World where
  /-- The objects. -/
  heap : Heap := {}
  /-- The state of the evaluation. -/
  context : Context := {}
  /-- The state of the host. -/
  host : Host := {}
  /-- The instructions executed so far, on whichever machine. -/
  executed : Nat := 0
deriving Inhabited

/-- A computation that changes the world and may be interrupted. -/
abbrev Eval := EStateM Interrupt World

namespace Eval

variable {α : Type}

/-- The heap as it is now. -/
def heap : Eval Heap :=
  return (← get).heap

/-- The context as it is now. -/
def context : Eval Context :=
  return (← get).context

/-- Changes the heap. -/
def onHeap (f : Heap → α × Heap) : Eval α := fun
  | ⟨heap, context, host, executed⟩ =>
    let (a, heap) := f heap
    .ok a ⟨heap, context, host, executed⟩

/-- Changes the context. -/
def onContext (f : Context → Context) : Eval Unit :=
  modify fun w => { w with context := f w.context }

/-- Changes the state of the host. -/
def onHost (f : Host → Host) : Eval Unit :=
  modify fun w => { w with host := f w.host }

/-- Counts an instruction. -/
def countInstruction : Eval Unit :=
  modify fun w => { w with executed := w.executed + 1 }

/-- Stops unless the context is live. -/
def ensureLive : Eval Unit := do
  match (← context).interrupt? with
  | none => pure ()
  | some i => throw i

/-- Records a failure and stops. -/
def fail (e : RuntimeError) : Eval α := do
  onContext (·.fail e)
  throw .failed

/-- Waits on a thunk and stops. -/
def suspend (t : Ref .thunk) : Eval α := do
  onContext (·.suspend t)
  throw .suspended

/-- The operation is not defined on these two operands. -/
def invalidOperand (op : String) (l r : Value) : Eval α :=
  fail (.invalidOperand op l.typeName r.typeName)

/-- The operation is not defined on this operand. -/
def invalidUnary (op : String) (v : Value) : Eval α :=
  fail (.invalidUnary op v.typeName)

/-- The value has no image of the wanted type. -/
def conversionFailed (v : Value) (target : String) : Eval α :=
  fail (.conversionFailed v.typeName target)

/-- What is found on the heap as it is now. Looking for what is never found does not end. -/
def find (f : Heap → Option α) : Eval α := do
  match f (← heap) with
  | some a => return a
  | none => throw .exhausted

/-- The value behind forced thunks. -/
def resolve (v : Value) : Eval Value :=
  find (·.resolve? v)

/-- A new string. -/
def makeStr (text : String) : Eval Value :=
  onHeap fun h =>
    let (stamp, h) := h.freshStamp
    (.str ⟨stamp, text⟩, h)

/-- A new cell in front of a tail. -/
def makeCell (head tail : Value) : Eval (Ref .cell) :=
  onHeap (·.addCell ⟨head, tail⟩)

/-- New cells in front of a list. -/
def prepend : List Value → Option (Ref .cell) → Eval (Option (Ref .cell))
  | [], rest => pure rest
  | v :: vs, rest => do
    let tail ← prepend vs rest
    return some (← makeCell v (.list tail))

/-- A new list. -/
def makeList (items : List Value) : Eval Value :=
  return .list (← prepend items none)

/-- A new record. -/
def makeRecord (r : Record) : Eval Value :=
  return .record (← onHeap (·.addRecord r))

/-- A new variant. -/
def makeVariant (tag : String) (payload : Value) : Eval Value :=
  onHeap fun h =>
    let (stamp, h) := h.freshStamp
    let (v, h) := h.addVariant ⟨⟨stamp, tag⟩, payload⟩
    (.variant v, h)

/-- A new thunk. -/
def makeThunk (t : Thunk) : Eval Value :=
  return .lazy (← onHeap (·.addThunk t))

/-- A new function. -/
def makeFunction (f : Function) : Eval Value :=
  return .function (← onHeap (·.addFunction f))

/-- A new module. -/
def makeModule (m : Module) : Eval Value :=
  return .module (← onHeap (·.addModule m))

/-- A new descriptor of a type. -/
def makeTypeInfo (id : Nat) (name : String) : Eval Value :=
  onHeap fun h =>
    let (stamp, h) := h.freshStamp
    (.typeInfo ⟨stamp, id, name⟩, h)

/-- A new descriptor of the type of a value. -/
def typeInfo (v : Value) : Eval Value :=
  makeTypeInfo v.typeId v.typeName

/-- A new foreign value. -/
def makeForeign (data : ForeignData) : Eval Value :=
  onHeap fun h =>
    let (stamp, h) := h.freshStamp
    (.foreign ⟨stamp, data⟩, h)

/-- A new latch. -/
def makeLatch : Eval Nat := do
  let index := (← get).host.latches.size
  onHost fun h => { h with latches := h.latches.push false }
  return index

/-- The value of a constant. -/
def literal : Literal → Eval Value
  | .unit => pure .unit
  | .int i => pure (.int i)
  | .long i => pure (.long i)
  | .single x => pure (.single x)
  | .double x => pure (.double x)
  | .bool b => pure (.bool b)
  | .char c => pure (.char c)
  | .str text => makeStr text

/-- Runs an evaluation on a context of its own and goes on with the present one. Only lack of fuel
and crashes pass through. -/
def isolated (own : Context) (x : Eval α) : Eval (Except Interrupt α × Context) := fun
  | ⟨heap, saved, host, executed⟩ =>
    match x ⟨heap, own, host, executed⟩ with
    | .ok a ⟨heap, own, host, executed⟩ => .ok (.ok a, own) ⟨heap, saved, host, executed⟩
    | .error .exhausted ⟨heap, _, host, executed⟩ =>
      .error .exhausted ⟨heap, saved, host, executed⟩
    | .error .crashed ⟨heap, _, host, executed⟩ => .error .crashed ⟨heap, saved, host, executed⟩
    | .error i ⟨heap, own, host, executed⟩ => .ok (.error i, own) ⟨heap, saved, host, executed⟩

end Eval

/-- What operations need from the evaluation of thunks: a way to force a value, and fuel for the
walks along data that may be infinite. -/
structure Evaluator where
  /-- Bounds the steps of a walk. -/
  fuel : Nat
  /-- Forces a lazy value; other values are left as they are. -/
  force : Value → Eval Value
  /-- Performs an operation, as foreign values may ask for. -/
  perform : Operation → Eval Value

end LazyMachine
