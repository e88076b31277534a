import LazyMachine.Failure
import LazyMachine.Format
import LazyMachine.Value

/-!
# Operations and host code

`Operation` lists what can be done with values; each operation yields a value. `HostCode` is a
computation of the host: a tree of requests, each continued with the answer.
-/

namespace LazyMachine

/-- An operation on values. -/
inductive Operation where
  | force (x : Value)
  | binary (op : BinaryOp) (l r : Value)
  | unary (op : UnaryOp) (x : Value)
  | equal (l r : Value)
  | notEqual (l r : Value)
  | length (x : Value)
  | get (x key : Value)
  | set (x key item : Value)
  | head (x : Value)
  | tail (x : Value)
  | isNil (x : Value)
  /-- The empty sequence of the same kind. -/
  | nilOf (x : Value)
  /-- Adds an item to a sequence under construction. -/
  | generate (acc item : Value)
  /-- Finishes a sequence under construction. -/
  | finalize (acc : Value)
  | tagOf (x : Value)
  | untag (x : Value)
  | render (x : Value) (format : Format)
  /-- Renders with the format of a spec. -/
  | renderAs (x : Value) (spec : String)
  | convert (x : Value) (target : Kind)
  | read (text : String) (target : Kind)
  | typeOf (x : Value)
  | call (callee : Value) (args : List Value)

/-- Why an operation gave no value. -/
inductive Interrupt where
  /-- A failure was recorded. -/
  | failed
  /-- A pending thunk has to be forced first. -/
  | suspended
  /-- The evaluation was cut off for lack of fuel. -/
  | exhausted
  /-- A count is beyond what the host can count to or keep in one array, and the host gave up. -/
  | crashed
deriving DecidableEq, Repr

/-- What the host counts. -/
inductive Tally where
  /-- Runs of thunk bodies. -/
  | runs
  /-- Runs of function bodies. -/
  | calls
deriving DecidableEq, Repr

/-- A computation of the host. -/
inductive HostCode where
  /-- Yields a value. -/
  | done (v : Value)
  /-- Stops without recording anything. -/
  | stop (i : Interrupt)
  /-- Records a failure. -/
  | fail (e : RuntimeError)
  /-- Performs an operation. -/
  | perform (o : Operation) (next : Value → HostCode)
  /-- Reads a variable of the host; an undefined one holds unit. -/
  | readVariable (name : String) (next : Value → HostCode)
  /-- Counts this run. -/
  | count (t : Tally) (next : HostCode)
  /-- Sets a latch and tells whether it was set before. -/
  | latch (index : Nat) (next : Bool → HostCode)
  /-- Makes a list. -/
  | makeList (items : List Value) (next : Value → HostCode)
  /-- Makes a pending thunk. -/
  | makeThunk (body : HostCode) (next : Value → HostCode)
  /-- Makes a function. -/
  | makeFunction (name : String) (arity : Nat) (body : List Value → HostCode)
      (next : Value → HostCode)
  /-- Makes the list of the integers from `first` on, each tail a thunk that counts its run. -/
  | makeNaturals (first : Int32) (next : Value → HostCode)

end LazyMachine
