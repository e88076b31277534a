import LazyMachine.Machine.Frame

/-!
# Errors at the host boundary

What the host is told when an evaluation gives no value, or when it breaks the contract of the
entry points that it uses.
-/

namespace LazyMachine

/-- An error reported to the host. -/
inductive HostError where
  /-- A failure of the evaluation. -/
  | runtime (e : RuntimeError)
  /-- The evaluation failed without recording a failure. -/
  | unrecorded
  /-- The evaluation waits on a thunk. -/
  | suspended
  /-- The run was given up. -/
  | aborted (a : Abort)
  /-- The program has no entry chunk. -/
  | missingEntry (entry : Nat)
  /-- A value of another kind was expected. -/
  | unexpected (expected found : String)
  /-- A number does not fit the smaller integers. -/
  | doesNotFit (n : Int)
  /-- A function was given the wrong number of arguments. -/
  | argumentCount (name : String) (expected got : Nat)
  /-- A clause has the wrong number of parameters. -/
  | clauseParameters (name : String) (got expected : Nat)
  /-- The target of a clause takes the wrong number of arguments. -/
  | clauseTarget (name : String) (takes expected : Nat)
  /-- No foreign kind has this id. -/
  | unregistered (id : Nat)
  /-- A foreign kind may not take the name of a built-in one. -/
  | reservedName (name : String)
  /-- The name of a foreign kind is taken. -/
  | registered (name : String)
deriving DecidableEq, Repr

/-- The text of an error. -/
def HostError.message : HostError → String
  | .runtime e => e.display
  | .unrecorded => "evaluation failed without a recorded error"
  | .suspended =>
    "evaluation suspended on a pending lazy value; run it through a Machine or use an eager context"
  | .aborted a => a.message
  | .missingEntry entry => "entry chunk " ++ toString entry ++ " does not exist"
  | .unexpected expected found => "expected " ++ expected ++ ", found " ++ found
  | .doesNotFit n => "Long " ++ toString n ++ " does not fit in Int"
  | .argumentCount name expected got =>
    "Function " ++ name ++ " expects " ++ toString expected ++ " arguments, got " ++ toString got
  | .clauseParameters name got expected =>
    "clause for " ++ name ++ " has " ++ toString got ++ " parameters, expected " ++
      toString expected
  | .clauseTarget name takes expected =>
    "clause target " ++ name ++ " takes " ++ toString takes ++ " arguments, expected " ++
      toString expected
  | .unregistered id => "type id " ++ toString id ++ " is not registered"
  | .reservedName name => "type name " ++ name ++ " is reserved for a built-in kind"
  | .registered name => "type " ++ name ++ " is already registered"

end LazyMachine
