import LazyMachine.Machine.Run
import LazyMachine.Operate.Conversion

/-!
# Evaluation

Application of functions, forcing of thunks and the performance of every operation. What running
code may do is given by an engine of a lower level; `engine` ties the knot, its level bounding how
deep evaluations nest and how long each of them walks.
-/

namespace LazyMachine

/-- The value that an application comes to, and the arguments left for it. -/
def Application.complete [Embedding] (E : Engine) (fuel : Nat) :
    Application → Eval (Value × List Value)
  | .value v rest => return (v, rest)
  | .enter program chunk locals rest => do
    return (← invokeChunk E fuel program chunk locals, rest)

/-- Applies what binding gave to the arguments that are left. -/
def applyFrom [Embedding] (E : Engine) : (fuel : Nat) → Application → Eval Value
  | 0, _ => throw .exhausted
  | fuel + 1, application => do
    let (v, rest) ← application.complete E fuel
    if rest.isEmpty then return v
    let callee ← E (.force v)
    applyFrom E fuel (← bindValue E fuel callee rest)

/-- Applies a function to arguments. -/
def applyFunction [Embedding] (E : Engine) (fuel : Nat) (f : Ref .function) (args : List Value) :
    Eval Value := do
  applyFrom E fuel (← bind E fuel f args)

/-- Runs a thunk's computation to its end. -/
def Deferred.run [Embedding] (E : Engine) (fuel : Nat) : Deferred → Eval Value
  | .native code => withMode .eager (Embedding.run E code)
  | .call f => applyFunction E fuel f []

/-- Evaluates a thunk at once. A pending thunk as its value is evaluated in turn, and every thunk
of the chain takes the final value. -/
def forceNow [Embedding] (E : Engine) : (fuel : Nat) → List (Ref .thunk) → Ref .thunk → Eval Value
  | 0, _, _ => throw .exhausted
  | fuel + 1, waiting, t => do
    match ← releasing waiting (claim t) with
    | .ready v => completeChain waiting v
    | .run d =>
      let chain := waiting ++ [t]
      match ← releasing chain (d.run E fuel) with
      | .lazy next => forceNow E fuel chain next
      | v => completeChain chain v

/-- Forces a thunk as the mode of the context wants it. -/
def forceThunk [Embedding] (E : Engine) (fuel : Nat) (t : Ref .thunk) : Eval Value := do
  match (← Eval.heap).memo? t with
  | some v => return v
  | none =>
    match (← Eval.context).mode with
    | .eager => forceNow E fuel [] t
    | .cooperative => Eval.suspend t

/-- Forces thunks until a value is not lazy. -/
def forceFrom [Embedding] (E : Engine) : (fuel : Nat) → Value → Eval Value
  | 0, _ => throw .exhausted
  | fuel + 1, v =>
    match v with
    | .lazy t => do
      let v ← forceThunk E fuel t
      forceFrom E fuel v
    | v => return v

/-- Forces a lazy value; other values are left as they are. -/
def force [Embedding] (E : Engine) (fuel : Nat) (v : Value) : Eval Value := do
  Eval.ensureLive
  forceFrom E fuel v

/-- Applies a callable value. -/
def call [Embedding] (E : Engine) (fuel : Nat) (callee : Value) (args : List Value) :
    Eval Value := do
  match ← force E fuel callee with
  | .function f => applyFunction E fuel f args
  | .foreign f => Embedding.call ⟨fuel, force E fuel, E⟩ f args
  | other => Eval.invalidUnary "Call" other

/-- Performs an operation. -/
def perform [Embedding] (E : Engine) (fuel : Nat) (o : Operation) : Eval Value := do
  let ev : Evaluator := ⟨fuel, force E fuel, E⟩
  match o with
  | .force x => force E fuel x
  | .binary op l r => binary ev op l r
  | .unary op x => unary ev op x
  | .equal l r => return .bool (← equal ev l r)
  | .notEqual l r => return .bool !(← equal ev l r)
  | .length x => length ev x
  | .get x key => getValue ev x key
  | .set x key item => setValue ev x key item
  | .head x => head ev x
  | .tail x => tail ev x
  | .isNil x => return .bool (← isNil ev x)
  | .nilOf x => nilOf ev x
  | .generate acc item => generate ev acc item
  | .finalize acc => finalize ev acc
  | .tagOf x => tagOf ev x
  | .untag x => untag ev x
  | .render x format => Eval.makeStr (← render ev format x)
  | .renderAs x spec => Eval.makeStr (← renderAs ev x spec)
  | .convert x target => convert ev x target
  | .read text target => readValue text target
  | .typeOf x => typeOf ev x
  | .call callee args => call E fuel callee args

/-- The engine of a level. At level zero nothing can be performed. -/
def engine [Embedding] : Nat → Engine
  | 0 => fun _ => throw .exhausted
  | level + 1 => fun o => perform (engine level) level o

/-- The evaluator of a level. -/
def evaluator [Embedding] (level : Nat) : Evaluator :=
  ⟨level, fun v => engine level (.force v), engine level⟩

end LazyMachine
