import LazyMachine.Machine.Drive
import LazyMachine.Machine.Step

/-!
# Running code

The machine executes the top frame until the entry frame is left. An instruction that is suspended
waits while the pending thunk is driven in a frame of its own, and is then executed again. A failure
goes to the nearest handler; aborts give up the whole run. The evaluations below are interrupted
only for lack of fuel and by crashes; failures and aborts are part of what they yield.
-/

namespace LazyMachine

/-- The variant by which a handler learns of a failure. -/
def errorValue (e : Option RuntimeError) : Eval Value := do
  let e := e.getD (.fault "" "unknown failure")
  let kind ← Eval.makeStr e.kind.name
  let op ← Eval.makeStr e.op
  let message ← Eval.makeStr e.message
  let record ← Eval.makeRecord ⟨[("kind", kind), ("op", op), ("message", message)]⟩
  Eval.makeVariant "Error" record

/-- Drives the thunk that a suspended instruction waits on, and whatever that waits on. -/
def resume [Embedding] (E : Engine) : (fuel : Nat) → Step (Option Frame)
  | 0 => throw (.interrupt .exhausted)
  | fuel + 1 => do
    let (pending, context) := (← Eval.context).takePending
    Eval.onContext fun _ => context
    match pending with
    | none => throw (.abort .nothingPending)
    | some t =>
      try drive E fuel [] t
      catch
        | .interrupt .suspended => resume E fuel
        | stop => throw stop

/-- The frame with its latest handler entered. -/
def Frame.handle (f : Frame) (h : Handler) (handlers : List Handler) (error : Value) : Frame :=
  { f with
    stack := error :: f.stack.drop (f.stack.length - h.depth)
    pc := h.target
    handlers
    pendingCall := none }

/-- Leaves frames until one has a handler, and enters that with the recorded failure. Tells whether
there was one; the search ends at the entry frame. -/
def unwind : List Frame → Eval (Bool × List Frame)
  | [] => return (false, [])
  | f :: below =>
    match f.handlers with
    | h :: handlers => do
      let error := (← Eval.context).error
      Eval.onContext (·.reset)
      let v ← errorValue error
      return (true, f.handle h handlers v :: below)
    | [] =>
      match f.kind with
      | .entry => return (false, below)
      | _ => do
        releaseChain f.chain
        unwind below

namespace Machine

/-- How a run ended. -/
inductive Exit where
  /-- With a value. -/
  | done (v : Value)
  /-- With a failure, which the context records. -/
  | failed
  /-- It was given up. -/
  | aborted (a : Abort)

/-- What one round of the machine gave. -/
inductive Round where
  /-- The run goes on. -/
  | running (m : Machine)
  /-- The run has ended. -/
  | ended (e : Exit) (m : Machine)

/-- The machine with other frames. -/
def withFrames (m : Machine) (frames : List Frame) : Machine :=
  { m with frames }

/-- Gives up the run: drops every frame and returns the claimed thunks to waiting. -/
def abandon (m : Machine) (a : Abort) : Eval Round := do
  releaseChain (m.frames.flatMap Frame.chain)
  return .ended (.aborted a) (m.withFrames [])

/-- Goes on after a failure, at the nearest handler if there is one. -/
def recover (m : Machine) : Stop → Eval Round
  | .abort a => m.abandon a
  | .interrupt _ => do
    match ← unwind m.frames with
    | (true, frames) => return .running (m.withFrames frames)
    | (false, frames) => return .ended .failed (m.withFrames frames)

/-- Goes on after an instruction was not completed. -/
def halt [Embedding] (E : Engine) (fuel : Nat) (m : Machine) (stop : Stop) : Eval Round := do
  match stop with
  | .interrupt .suspended =>
    match ← (resume E fuel).outcome with
    | .ok none => return .running m
    | .ok (some f) => return .running (m.withFrames (f :: m.frames))
    | .error stop => m.recover stop
  | stop => m.recover stop

/-- Hands the result of the frame that was left to whatever waits for it. -/
def leave [Embedding] (E : Engine) (fuel : Nat) (m : Machine) (kind : FrameKind)
    (below : List Frame) (v : Value) : Eval Round := do
  match kind with
  | .entry => return .ended (.done v) (m.withFrames below)
  | .call rest =>
    match below with
    | caller :: others =>
      return .running (m.withFrames (caller.pushResult caller.stack v rest :: others))
    | [] => (m.withFrames []).abandon .noFrame
  | .thunk chain =>
    match ← (Step.ofEval (settle E fuel chain v)).outcome with
    | .ok none => return .running (m.withFrames below)
    | .ok (some f) => return .running (m.withFrames (f :: below))
    | .error stop => (m.withFrames below).halt E fuel stop

/-- Executes one instruction or pending call of the top frame. -/
def turn [Embedding] (E : Engine) (fuel : Nat) (m : Machine) : Eval Round := do
  match m.frames with
  | [] => m.abandon .noFrame
  | f :: below =>
    match ← (f.advance E fuel).outcome with
    | .ok (.next f) => return .running (m.withFrames ({ f with pc := f.pc + 1 } :: below))
    | .ok (.stay f) => return .running (m.withFrames (f :: below))
    | .ok (.jump f target) => return .running (m.withFrames ({ f with pc := target } :: below))
    | .ok (.enter caller callee) => return .running (m.withFrames (callee :: caller :: below))
    | .ok (.leave v) => m.leave E fuel f.kind below v
    | .error stop => m.halt E fuel stop

/-- One round: a check of the limit, then one instruction. -/
def round [Embedding] (E : Engine) (fuel : Nat) (m : Machine) : Eval Round := do
  match m.stepLimit.filter (· ≤ m.steps) with
  | some limit => m.abandon (.stepLimit limit)
  | none =>
    Eval.countInstruction
    turn E fuel { m with steps := m.steps + 1 }

/-- Runs until the entry frame is left. -/
def execute [Embedding] (E : Engine) : (fuel : Nat) → Machine → Eval (Exit × Machine)
  | 0, _ => throw .exhausted
  | fuel + 1, m => do
    match ← m.round E fuel with
    | .running m => execute E fuel m
    | .ended e m => return (e, m)

/-- Runs one chunk with the given locals. An abort becomes a failure. -/
def invoke [Embedding] (E : Engine) (fuel : Nat) (m : Machine) (program : Program) (chunk : Nat)
    (locals : List Value) : Eval (Except Interrupt Value × Machine) := do
  let fault (message : String) (m : Machine) : Eval (Except Interrupt Value × Machine) := do
    Eval.onContext (·.fail (.fault "Call" message))
    return (.error .failed, m)
  match (← Eval.context).interrupt? with
  | some i => return (.error i, m)
  | none =>
    match Frame.enter? program chunk locals .entry with
    | none => fault (Abort.missingChunk chunk).message m
    | some f =>
      match ← execute E fuel (m.withFrames (f :: m.frames)) with
      | (.done v, m) => return (.ok v, m)
      | (.failed, m) => return (.error .failed, m)
      | (.aborted a, m) => fault a.message m

end Machine

/-- Runs one chunk on a machine of its own. -/
def invokeChunk [Embedding] (E : Engine) (fuel : Nat) (program : Program) (chunk : Nat)
    (locals : List Value) : Eval Value := do
  match ← Machine.invoke E fuel {} program chunk locals with
  | (.ok v, _) => return v
  | (.error i, _) => throw i

end LazyMachine
