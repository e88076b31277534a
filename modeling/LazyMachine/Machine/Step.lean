import LazyMachine.Machine.Frame

/-!
# Instructions

What one instruction does to the frame that executes it. The operands stay on the stack until the
operation has succeeded, so an interrupted instruction can simply be executed again.
-/

namespace LazyMachine

/-- How the machine goes on after an instruction. -/
inductive Flow where
  /-- With the next instruction of the frame. -/
  | next (f : Frame)
  /-- With the frame as it is. -/
  | stay (f : Frame)
  /-- With another instruction of the frame. -/
  | jump (f : Frame) (target : Nat)
  /-- With a new frame above the caller. -/
  | enter (caller callee : Frame)
  /-- The frame is left with a result. -/
  | leave (v : Value)

/-- The increment of a count, which must stay below the bound. -/
def increment (bound n : Nat) : Step Nat :=
  if n + 1 < bound then return n + 1 else throw (.interrupt .crashed)

/-- Binds arguments to a forced value. -/
def bindValue [Embedding] (E : Engine) (fuel : Nat) (callee : Value) (args : List Value) :
    Eval Application :=
  match callee with
  | .function g => bind E fuel g args
  | .foreign g => do return .value (← Embedding.call ⟨fuel, fun v => E (.force v), E⟩ g args) []
  | other => Eval.invalidUnary "Call" other

/-- Takes what binding gave in place of the operands above `base`. Gives the caller and the frame to
enter, if the callee is code. -/
def Frame.receive (f : Frame) (base : List Value) : Application → Step (Frame × Option Frame)
  | .value v rest => return (f.pushResult base v rest, none)
  | .enter program chunk locals rest =>
    match Frame.enter? program chunk locals (.call rest) with
    | some callee => return (f.withStack base, some callee)
    | none => throw (.abort (.missingChunk chunk))

/-- Applies the value below the topmost `count` ones to them. -/
def Frame.apply [Embedding] (E : Engine) (fuel : Nat) (f : Frame) (count : Nat) :
    Step (Frame × Option Frame) := do
  let need ← increment Word.bound count
  let (slots, base) ← f.operands need
  match slots with
  | [] => f.underflow need
  | callee :: args =>
    let callee ← E (.force callee)
    let application ← bindValue E fuel callee args
    f.receive base application

/-- A function over a chunk of the frame's program that captures the topmost values; also gives the
stack below them. -/
def Frame.capture (f : Frame) (chunk captures : Nat) : Step (Ref .function × List Value) := do
  let (values, base) ← f.operands captures
  match f.program.chunk? chunk with
  | some target =>
    let body := Body.code f.program chunk values
    let g ← Eval.onHeap (·.addFunction ⟨target.name, target.arity, [], body⟩)
    return (g, base)
  | none => throw (.abort (.missingChunk chunk))

/-- Replaces the top of the stack by the result of an operation on it. -/
def Frame.onTop (E : Engine) (f : Frame) (o : Value → Operation) : Step Flow :=
  match f.stack with
  | x :: base => do
    let v ← E (o x)
    return .next (f.withStack (v :: base))
  | _ => f.underflow 1

/-- Replaces the two topmost values by the result of an operation on them. -/
def Frame.onTwo (E : Engine) (f : Frame) (o : Value → Value → Operation) : Step Flow :=
  match f.stack with
  | y :: x :: base => do
    let v ← E (o x y)
    return .next (f.withStack (v :: base))
  | _ => f.underflow 2

/-- Executes one instruction. -/
def Frame.step [Embedding] (E : Engine) (fuel : Nat) (f : Frame) : Instr → Step Flow
  | .push literal => do
    let v ← Eval.literal literal
    return .next (f.withStack (v :: f.stack))
  | .load slot =>
    match f.locals[slot]? with
    | some v => return .next (f.withStack (v :: f.stack))
    | none => throw (.abort (.undefinedSlot slot))
  | .store slot =>
    match f.stack with
    | v :: base => do
      -- all locals up to the slot are made at once
      if f.locals.size ≤ slot then
        let _ ← increment Word.arrayBound slot
      return .next { f with stack := base, locals := f.store slot v }
    | [] => f.underflow 1
  | .pop =>
    match f.stack with
    | _ :: base => return .next (f.withStack base)
    | [] => f.underflow 1
  | .dup =>
    match f.stack with
    | v :: base => return .next (f.withStack (v :: v :: base))
    | [] => f.underflow 1
  | .swap =>
    match f.stack with
    | y :: x :: base => return .next (f.withStack (x :: y :: base))
    | _ => f.underflow 2
  | .binary op => f.onTwo E (.binary op)
  | .unary op => f.onTop E (.unary op)
  | .index => f.onTwo E .get
  | .setIndex =>
    match f.stack with
    | item :: key :: x :: base => do
      let v ← E (.set x key item)
      return .next (f.withStack (v :: base))
    | _ => f.underflow 3
  | .length => f.onTop E .length
  | .head => f.onTop E .head
  | .tail => f.onTop E .tail
  | .isNil => f.onTop E .isNil
  | .cons => f.onTwo E (.binary .cons)
  | .empty => f.onTop E .nilOf
  | .makeList count => do
    let (items, base) ← f.operands count
    let v ← Eval.makeList items
    return .next (f.withStack (v :: base))
  | .makeRecord names => do
    let (items, base) ← f.operands names.length
    let v ← Eval.makeRecord ⟨names.zip items⟩
    return .next (f.withStack (v :: base))
  | .makeVariant tag =>
    match f.stack with
    | x :: base => do
      let v ← Eval.makeVariant tag x
      return .next (f.withStack (v :: base))
    | [] => f.underflow 1
  | .tag => f.onTop E .tagOf
  | .untag => f.onTop E .untag
  | .render => do
    let format := (← Eval.context).format
    f.onTop E (.render · format)
  | .convert kind => f.onTop E (.convert · kind)
  | .delay chunk captures => do
    let (g, base) ← f.capture chunk captures
    let v ← Eval.makeThunk (.waiting (.call g))
    return .next (f.withStack (v :: base))
  | .closure chunk captures => do
    let (g, base) ← f.capture chunk captures
    return .next (f.withStack (.function g :: base))
  | .force => f.onTop E .force
  | .call count => do
    match ← f.apply E fuel count with
    | (caller, none) => return .next caller
    -- the caller goes on behind the call when its result comes
    | (caller, some callee) => return .enter { caller with pc := caller.pc + 1 } callee
  | .jump target => return .jump f target
  | .jumpIfFalse target =>
    match f.stack with
    | x :: base => do
      match ← E (.force x) with
      | .bool true => return .next (f.withStack base)
      | .bool false => return .jump (f.withStack base) target
      | other => Eval.invalidUnary "JumpIfFalse" other
    | [] => f.underflow 1
  | .attempt target =>
    -- a failure cuts the stack back to its present height
    return .next { f with handlers := ⟨target, f.stack.length⟩ :: f.handlers }
  | .endAttempt => return .next { f with handlers := f.handlers.tail }
  | .ret => return .leave (f.stack.head?.getD .unit)

/-- Executes the pending call or the next instruction. Behind the end of the chunk the frame is
left with the top of its stack. -/
def Frame.advance [Embedding] (E : Engine) (fuel : Nat) (f : Frame) : Step Flow := do
  match f.pendingCall with
  | some count =>
    match ← Frame.apply E fuel { f with pendingCall := none } count with
    | (caller, none) => return .stay caller
    | (caller, some callee) => return .enter caller callee
  | none =>
    match f.instr? with
    | some instr => f.step E fuel instr
    | none => return .leave (f.stack.head?.getD .unit)

end LazyMachine
