import LazyMachine.Eval

/-!
# Code of the host

Code of the host runs request by request. What it may do with values comes in as an `Engine`; an
interrupt that an operation raises ends it.
-/

namespace LazyMachine

/-- How running code performs operations. -/
abbrev Engine := Operation → Eval Value

/-- Runs host code. -/
def HostCode.run (E : Engine) : HostCode → Eval Value
  | .done v => return v
  | .stop i => throw i
  | .fail e => Eval.fail e
  | .perform o next => do
    let v ← E o
    (next v).run E
  | .readVariable name next => do
    let v := ((← get).host.valueOf? name).getD .unit
    (next v).run E
  | .count t next => do
    Eval.onHost (·.count t)
    next.run E
  | .latch i next => do
    let set := (← get).host.latches.getD i true
    Eval.onHost (·.setLatch i)
    (next set).run E
  | .makeList items next => do
    let v ← Eval.makeList items
    (next v).run E
  | .makeThunk body next => do
    let v ← Eval.makeThunk (.waiting (.native body))
    (next v).run E
  | .makeFunction name arity body next => do
    let v ← Eval.makeFunction ⟨name, arity, [], .native body⟩
    (next v).run E
  | .makeNaturals first next => do
    -- the tail is counted as a run when it is forced
    let tail ← Eval.makeThunk (.waiting (.native (.count .runs (.makeNaturals (first + 1) .done))))
    let cell ← Eval.makeCell (.int first) tail
    (next (.list (some cell))).run E

end LazyMachine
