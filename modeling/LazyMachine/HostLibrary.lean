import LazyMachine.Eval

/-!
# The host library

Functions and thunk bodies that the host offers. Thunk bodies count their runs and functions their
calls, unless stated otherwise.
-/

namespace LazyMachine.HostLibrary

/-- Yields the result of an operation. -/
def performing (o : Operation) : HostCode :=
  .perform o .done

/-- A thunk body. -/
def body (code : HostCode) : HostCode :=
  .count .runs code

/-- Yields a value. -/
def constant (v : Value) : HostCode :=
  body (.done v)

/-- Yields what a variable holds at the time of the run. -/
def latest (name : String) : HostCode :=
  body (.readVariable name .done)

/-- Yields what a variable holds at the time of the run, forced. -/
def forcedVariable (name : String) : HostCode :=
  body (.readVariable name fun v => performing (.force v))

/-- Yields the result of a binary operator. -/
def operator (op : BinaryOp) (l r : Value) : HostCode :=
  body (performing (.binary op l r))

/-- Fails with a message. -/
def failing (message : String) : HostCode :=
  body (.fail (.fault "Thunk" message))

/-- Fails on the first run and yields a value on later ones; the latch tells them apart. -/
def flaky (latch : Nat) (v : Value) : HostCode :=
  body (.latch latch fun again =>
    if again then .done v else .fail (.divideByZero "Divide" Kind.int.name))

/-- Stops without recording anything. -/
def silent (i : Interrupt) : HostCode :=
  body (.stop i)

/-- A function body that counts its calls. -/
def counted (code : List Value → HostCode) : List Value → HostCode :=
  fun args => .count .calls (code args)

/-- An argument of a function body. -/
def arg (args : List Value) (i : Nat) : Value :=
  args.getD i .unit

/-- The functions by name, with their arities. -/
def functions : List (String × Nat × (List Value → HostCode)) :=
  [("seven", 0, counted fun _ => .done (.int 7)),
    ("force_g", 0, counted fun _ => .readVariable "g" fun v => performing (.force v)),
    ("id", 1, counted fun args => .done (arg args 0)),
    ("boom", 1, counted fun _ => .fail (.fault "boom" "boom")),
    ("force", 1, counted fun args => performing (.force (arg args 0))),
    ("defer", 1, counted fun args =>
      .makeThunk (performing (.binary .add (arg args 0) (.int 1))) .done),
    ("adder", 1, counted fun args =>
      .makeFunction "add_n" 1
        (fun inner => performing (.binary .add (arg args 0) (arg inner 0))) .done),
    ("pair", 2, counted fun args => .makeList [arg args 0, arg args 1] .done),
    ("apply", 2, counted fun args => performing (.call (arg args 0) [arg args 1])),
    ("plus", 2, counted fun args => performing (.binary .add (arg args 0) (arg args 1))),
    ("add3", 3, counted fun args =>
      .perform (.binary .add (arg args 0) (arg args 1)) fun sum =>
        performing (.binary .add sum (arg args 2)))]

/-- The function of a name. -/
def function? (name : String) : Option Function :=
  (functions.lookup name).map fun (arity, code) => ⟨name, arity, [], .native code⟩

end LazyMachine.HostLibrary
