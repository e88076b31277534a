import LazyMachine.Engine

/-!
# How a frame goes on

The code that a frame runs and what becomes of its result stay the same until it is left; what one
instruction changes is where the frame is and which handlers it has. `Flow.Follows f flow` lists the
ways in which a frame can go on: to the next instruction, to a target of a jump, into a call, or
out.
-/

namespace LazyMachine

/-- An entered frame returns its result where it was told to. -/
theorem Frame.kind_of_enter? {program : Program} {chunk : Nat} {locals : List Value}
    {kind : FrameKind} {f : Frame} (hf : Frame.enter? program chunk locals kind = some f) :
    f.kind = kind := by
  unfold Frame.enter? at hf
  split at hf
  · cases hf
    rfl
  · cases hf

/-- The code that a frame runs and what becomes of its result, which stay the same until the frame
is left. -/
def Frame.task (f : Frame) : Program × Nat × FrameKind :=
  (f.program, f.chunk, f.kind)

/-- The task of a frame says where its result goes. -/
theorem Frame.kind_of_task {f g : Frame} (h : g.task = f.task) : g.kind = f.kind :=
  congrArg (·.2.2) h

/-- The frame goes on with its task, and a frame above it is a call. -/
def Flow.Keeps (f : Frame) : Flow → Prop
  | .next g | .stay g | .jump g _ => g.task = f.task
  | .enter caller callee => caller.task = f.task ∧ ∃ rest, callee.kind = .call rest
  | .leave _ => True

/-- The task of a frame, where it is and its handlers. -/
def Frame.control (f : Frame) : (Program × Nat × FrameKind) × Nat × List Handler :=
  (f.task, f.pc, f.handlers)

/-- Receiving a result leaves chunk, position and handlers of a frame alone. -/
theorem Frame.control_pushResult (f : Frame) (base : List Value) (v : Value) (rest : List Value) :
    (f.pushResult base v rest).control = f.control := by
  unfold Frame.pushResult
  split <;> rfl

/-- Receiving a result leaves the task of a frame alone. -/
theorem Frame.task_pushResult (f : Frame) (base : List Value) (v : Value) (rest : List Value) :
    (f.pushResult base v rest).task = f.task :=
  congrArg Prod.fst (f.control_pushResult base v rest)

/-- The frame executes an instruction next, and no pending call. -/
def Frame.Executes (f : Frame) (instr : Instr) : Prop :=
  f.pendingCall = none ∧ f.instr? = some instr

/-- The handlers after an instruction. -/
def Frame.handlersAfter (f : Frame) : Instr → List Handler
  | .attempt target => ⟨target, f.stack.length⟩ :: f.handlers
  | .endAttempt => f.handlers.tail
  | _ => f.handlers

/-- The frame is at the start of its chunk. -/
def Frame.Started (f : Frame) : Prop :=
  ∃ locals, Frame.enter? f.program f.chunk locals f.kind = some f

/-- A frame starts at the first instruction of its chunk without a handler. -/
theorem Frame.started_of_enter? {program : Program} {chunk : Nat} {locals : List Value}
    {kind : FrameKind} {f : Frame} (hf : Frame.enter? program chunk locals kind = some f) :
    f.Started := by
  refine ⟨locals, ?_⟩
  unfold Frame.enter? at hf ⊢
  split at hf
  · next c hc =>
    cases hf
    rw [hc]
  · cases hf

/-- The frame is at the start of a call. -/
def Frame.Entered (f : Frame) : Prop :=
  f.Started ∧ ∃ rest, f.kind = .call rest

/-- How a frame goes on: where it is then, which handlers it has, and what it has entered. -/
inductive Flow.Follows (f : Frame) : Flow → Prop
  | next {instr : Instr} {g : Frame} (hinstr : f.Executes instr)
      (hg : g.control = (f.task, f.pc, f.handlersAfter instr)) : Follows f (.next g)
  | jump {target : Nat} {g : Frame}
      (hinstr : f.Executes (.jump target) ∨ f.Executes (.jumpIfFalse target))
      (hg : g.control = f.control) : Follows f (.jump g target)
  | call {count : Nat} {caller callee : Frame} (hinstr : f.Executes (.call count))
      (hcaller : caller.control = (f.task, f.pc + 1, f.handlers)) (hcallee : callee.Entered) :
      Follows f (.enter caller callee)
  | stay {g : Frame} (hpending : f.pendingCall ≠ none) (hg : g.control = f.control) :
      Follows f (.stay g)
  | pending {caller callee : Frame} (hpending : f.pendingCall ≠ none)
      (hcaller : caller.control = f.control) (hcallee : callee.Entered) :
      Follows f (.enter caller callee)
  | leave (v : Value) : Follows f (.leave v)

/-- What follows a frame keeps its task. -/
theorem Flow.Follows.keeps {f : Frame} {flow : Flow} (h : flow.Follows f) : flow.Keeps f := by
  have htask {g : Frame} {c : Nat × List Handler} (hg : g.control = (f.task, c)) :
      g.task = f.task := congrArg Prod.fst hg
  cases h with
  | next hinstr hg => exact htask hg
  | jump hinstr hg => exact htask hg
  | stay hpending hg => exact htask hg
  | call hinstr hcaller hcallee => exact ⟨htask hcaller, hcallee.2⟩
  | pending hpending hcaller hcallee => exact ⟨htask hcaller, hcallee.2⟩
  | leave v => trivial

end LazyMachine
