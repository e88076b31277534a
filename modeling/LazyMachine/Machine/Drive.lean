import LazyMachine.Machine.Frame

/-!
# Driving thunks

A thunk is claimed before its computation runs; claiming it again is a dependency on itself. A
computation may yield another pending thunk, which is then driven in turn: the chain holds the
thunks that wait for the final value.
-/

namespace LazyMachine

/-- What claiming a thunk gave. -/
inductive Claim where
  /-- Its value. -/
  | ready (v : Value)
  /-- Its computation, which has to be run now. -/
  | run (d : Deferred)

/-- Claims a thunk. One that is claimed already, or is done without a value, depends on itself. -/
def claim (t : Ref .thunk) : Eval Claim := do
  match (← Eval.heap).thunk t with
  | ⟨_, some v⟩ => return .ready v
  | .waiting d =>
    Eval.onHeap fun h => ((), h.setThunk t (.running d))
    return .run d
  | .running _ | ⟨.done, none⟩ => Eval.fail .cyclicLazy

/-- Publishes a value in a chain of thunks. -/
def completeChain (chain : List (Ref .thunk)) (v : Value) : Eval Value :=
  Eval.onHeap (·.completeChain chain v)

/-- Returns the claimed thunks of a chain to waiting. -/
def releaseChain (chain : List (Ref .thunk)) : Eval Unit :=
  Eval.onHeap fun h => ((), h.releaseChain chain)

/-- Runs an evaluation; if it is interrupted, returns a chain of thunks to waiting. -/
def releasing {α : Type} (chain : List (Ref .thunk)) (x : Eval α) : Eval α := do
  try x
  catch i =>
    releaseChain chain
    throw i

/-- Runs an evaluation in a mode and goes back to the present one. -/
def withMode {α : Type} (mode : ForceMode) (x : Eval α) : Eval α := do
  let previous := (← Eval.context).mode
  let restore := Eval.onContext fun c => { c with mode := previous }
  Eval.onContext fun c => { c with mode }
  let v ← try x
    catch i =>
      restore
      throw i
  restore
  return v

/-- Binds a thunk's computation. Host code cannot be resumed midway, so it runs to its end with
every thunk that it needs. -/
def Deferred.bind [Embedding] (E : Engine) (fuel : Nat) : Deferred → Eval Application
  | .native code => return .value (← withMode .eager (Embedding.run E code)) []
  | .call f => LazyMachine.bind E fuel f []

/-- Claims the last thunk of a chain and runs its computation. Gives the frame to enter, if that is
code; otherwise the chain is complete afterwards. -/
def drive [Embedding] (E : Engine) :
    (fuel : Nat) → List (Ref .thunk) → Ref .thunk → Eval (Option Frame)
  | 0, _, _ => throw .exhausted
  | fuel + 1, waiting, t => do
    let chain := waiting ++ [t]
    match ← releasing waiting (claim t) with
    | .ready v =>
      let _ ← completeChain chain v
      return none
    | .run d =>
      match ← releasing chain (d.bind E fuel) with
      | .enter program chunk locals _ =>
        match Frame.enter? program chunk locals (.thunk chain) with
        | some f => return some f
        | none =>
          releaseChain chain
          Eval.fail (.fault "Force" (Abort.missingChunk chunk).message)
      | .value v _ =>
        match ← Eval.resolve v with
        | .lazy next => drive E fuel chain next
        | resolved =>
          let _ ← completeChain chain resolved
          return none

/-- Takes the result of a thunk's code: the value of the chain, unless it is pending itself. -/
def settle [Embedding] (E : Engine) (fuel : Nat) (chain : List (Ref .thunk)) (v : Value) :
    Eval (Option Frame) := do
  match ← Eval.resolve v with
  | .lazy next => drive E fuel chain next
  | resolved =>
    let _ ← completeChain chain resolved
    return none

end LazyMachine
