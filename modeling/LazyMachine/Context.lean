import LazyMachine.Heap

/-!
# Execution contexts

A context carries the state of one evaluation: whether it has failed, the first failure recorded,
and the thunk that a cooperative evaluation waits on. Every operation looks at it first, so nothing
runs on a context that is not live.
-/

namespace LazyMachine

/-- What happens when an operation needs the value of a pending thunk. -/
inductive ForceMode where
  /-- The thunk is evaluated at once. -/
  | eager
  /-- The operation is suspended and the thunk handed to the machine. -/
  | cooperative
deriving DecidableEq, Repr, Inhabited

namespace ForceMode

/-- The name in diagnostics. -/
def name : ForceMode → String
  | .eager => "Eager"
  | .cooperative => "Cooperative"

/-- The keyword in settings. -/
def keyword : ForceMode → String
  | .eager => "eager"
  | .cooperative => "cooperative"

/-- The mode of a keyword. -/
def ofKeyword? (keyword : String) : Option ForceMode :=
  [ForceMode.eager, .cooperative].find? (·.keyword = keyword)

end ForceMode

/-- The state of one evaluation. -/
structure Context where
  /-- Whether the evaluation is interrupted. -/
  failed : Bool := false
  /-- The first failure recorded. -/
  error : Option RuntimeError := none
  /-- The thunk that the evaluation waits on. -/
  pending : Option (Ref .thunk) := none
  /-- What happens when a pending thunk is needed. -/
  mode : ForceMode := .eager
  /-- How values are shown. -/
  format : Format := {}
deriving DecidableEq, Repr, Inhabited

namespace Context

/-- Records a failure, unless one is recorded already. -/
def fail (c : Context) (e : RuntimeError) : Context :=
  { c with failed := true, error := c.error.or (some e) }

/-- Waits on a thunk. -/
def suspend (c : Context) (t : Ref .thunk) : Context :=
  { c with failed := true, pending := some t }

/-- The interrupt that every operation on this context answers with, if it is not live. -/
def interrupt? (c : Context) : Option Interrupt :=
  if !c.failed then none
  else if c.error.isSome then some .failed
  else some .suspended

/-- Takes the recorded failure. -/
def takeError (c : Context) : Option RuntimeError × Context :=
  (c.error, { c with failed := c.pending.isSome, error := none })

/-- Takes the thunk that the evaluation waits on; the context is live again unless a failure is
recorded. -/
def takePending (c : Context) : Option (Ref .thunk) × Context :=
  match c.pending with
  | none => (none, c)
  | some t => (some t, { c with pending := none, failed := c.failed && c.error.isSome })

/-- Forgets the failure and the pending thunk. -/
def reset (c : Context) : Context :=
  { c with failed := false, error := none, pending := none }

end Context

end LazyMachine
