import LazyMachine.Embedding

/-!
# Binding arguments

Functions are curried: too few arguments make a partial application, surplus ones are left for the
result. Host bodies run at once; a code body is handed back for the machine to run. What running
code may do with values comes in as an `Engine`.
-/

namespace LazyMachine

/-- What binding arguments to a function gave. -/
inductive Application where
  /-- A value, and the arguments left for it. -/
  | value (v : Value) (rest : List Value)
  /-- A code body to run, and the arguments left for its result. -/
  | enter (program : Program) (chunk : Nat) (locals rest : List Value)

/-- Leaves further arguments for the result. -/
def Application.withRest (surplus : List Value) : Application → Application
  | .value v rest => .value v (rest ++ surplus)
  | .enter program chunk locals rest => .enter program chunk locals (rest ++ surplus)

/-- Whether a clause accepts arguments. -/
def Clause.accepts (c : Clause) (args : List Value) : Bool :=
  (c.params.zip args).all fun (param, arg) => param.all (· == arg.typeId)

/-- Forces values from left to right. -/
def forceAll (E : Engine) : List Value → Eval (List Value)
  | [] => return []
  | v :: vs => do
    let v ← E (.force v)
    return v :: (← forceAll E vs)

/-- Forces the arguments and picks the first clause that accepts them. -/
def OverloadTable.select (E : Engine) (t : OverloadTable) (args : List Value) :
    Eval (Ref .function × List Value) := do
  let forced ← forceAll E args
  match t.clauses.find? (·.accepts forced) with
  | some c => return (c.target, forced)
  | none => Eval.fail (.noOverload t.name (forced.map Value.typeName))

/-- Binds arguments to a function. -/
def bind [Embedding] (E : Engine) : (fuel : Nat) → Ref .function → List Value → Eval Application
  | 0, _, _ => throw .exhausted
  | fuel + 1, f, args => do
    Eval.ensureLive
    let fn := (← Eval.heap).function f
    if args.length < fn.remaining then
      if args.isEmpty then return .value (.function f) []
      else return .value (← Eval.makeFunction { fn with applied := fn.applied ++ args }) []
    else
      let full := fn.applied ++ args.take fn.remaining
      let rest := args.drop fn.remaining
      match fn.body with
      | .native code => return .value (← Embedding.run E (code full)) rest
      | .code program chunk captures => return .enter program chunk (captures ++ full) rest
      | .overloaded table =>
        let (target, forced) ← table.select E full
        return (← bind E fuel target forced).withRest rest

end LazyMachine
