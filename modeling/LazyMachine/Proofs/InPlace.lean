import LazyMachine.Proofs.Overlay
import LazyMachine.Proofs.Suspension

/-!
# Instructions in place

`Frame.step` yields the frames that follow an instruction. Here an instruction changes the frames of
a `Bench` in place, one change after the other, and an interrupt leaves them as they are at that
moment: operands are dropped, locals are added, the marker of a pending call is taken before the
call is tried and put back if it is not completed.

* `Work.attempt_tracks`: the attempt in place comes to what `Frame.advance` says.
* `attempt_interrupted`: an attempt that fails or is suspended has changed no frame by then, the
  machine goes on from the frames that it had, and they stay as they are until the instruction is
  executed again or a failure is handled in them.

What makes this true is the order in which things are done: whatever may be interrupted is done on
the frames as they were, and the changes come after it (`Tracks.bind`, with one lemma for each way
in which an instruction changes its frame).
-/

namespace LazyMachine

variable {α β γ : Type}

/-! ### Changes in place -/

/-- A machine at work: its frames as they are now, the top one first, and the world. -/
structure Bench where
  /-- The frames. -/
  frames : List Frame
  /-- The world. -/
  world : World

/-- A computation that changes frames in place. -/
abbrev Work := EStateM Stop Bench

/-- What the attempt of an instruction tells the machine. -/
inductive Motion where
  /-- Go on with the next instruction. -/
  | next
  /-- Go on where the frame is. -/
  | stay
  /-- Go on elsewhere. -/
  | jump (target : Nat)
  /-- Leave the frame with a result. -/
  | leave (v : Value)

/-- The frame as the motion leaves it. -/
def Motion.place : Motion → Frame → Frame
  | .next, f => { f with pc := f.pc + 1 }
  | .jump target, f => { f with pc := target }
  | _, f => f

namespace Work

/-- A step that has no part in the frames. -/
def ofStep (x : Step α) : Work α := fun b =>
  match x b.world with
  | .ok a w => .ok a { b with world := w }
  | .error stop w => .error stop { b with world := w }

/-- Steps are work that has no part in the frames. -/
instance : MonadLift Step Work := ⟨ofStep⟩

/-- The top frame as it is now. -/
def top : Work Frame := do
  match (← get).frames with
  | f :: _ => return f
  | [] => throw (.abort .noFrame)

/-- Changes the top frame. -/
def change (g : Frame → Frame) : Work Unit :=
  modify fun b => { b with frames := b.frames.modify 0 g }

/-- Changes the frame that has `depth` frames below it. -/
def changeAt (depth : Nat) (g : Frame → Frame) : Work Unit :=
  modify fun b => { b with frames := b.frames.modify (b.frames.length - (depth + 1)) g }

/-- Drops the topmost `n` values of the top frame. -/
def drop (n : Nat) : Work Unit :=
  change fun f => f.withStack (f.stack.drop n)

/-- Pushes a value on the stack of the top frame. -/
def push (v : Value) : Work Unit :=
  change fun f => f.withStack (v :: f.stack)

/-- Puts a value in the place of the topmost `n` ones. -/
def replace (n : Nat) (v : Value) : Work Motion := do
  drop n
  push v
  return .next

/-- Pushes a frame for a chunk. -/
def enter (program : Program) (chunk : Nat) (locals : List Value) (kind : FrameKind) :
    Work Unit := do
  match Frame.enter? program chunk locals kind with
  | some f => modify fun b => { b with frames := f :: b.frames }
  | none => throw (.abort (.missingChunk chunk))

/-- Applies the value below the topmost `count` ones to them. -/
def call (E : Engine) (fuel count : Nat) : Work Unit := do
  let f ← top
  let need ← increment Word.bound count
  let (slots, _) ← f.operands need
  match slots with
  | [] => f.underflow need
  | callee :: args =>
    let callee ← E (.force callee)
    let application ← bindValue E fuel callee args
    drop need
    match application with
    | .value v rest =>
      push v
      unless rest.isEmpty do
        change fun f => { f with pendingCall := some rest.length }
        change fun f => f.withStack (rest.reverse ++ f.stack)
    | .enter program chunk locals rest => enter program chunk locals (.call rest)

/-- Replaces the top of the stack by the result of an operation on it. -/
def onTop (E : Engine) (o : Value → Operation) : Work Motion := do
  let f ← top
  match f.stack with
  | x :: _ => do
    let v ← E (o x)
    replace 1 v
  | _ => f.underflow 1

/-- Replaces the two topmost values by the result of an operation on them. -/
def onTwo (E : Engine) (o : Value → Value → Operation) : Work Motion := do
  let f ← top
  match f.stack with
  | y :: x :: _ => do
    let v ← E (o x y)
    replace 2 v
  | _ => f.underflow 2

/-- Executes one instruction of the top frame. -/
def step (E : Engine) (fuel : Nat) : Instr → Work Motion
  | .push literal => do
    let v ← Eval.literal literal
    push v
    return .next
  | .load slot => do
    let f ← top
    match f.locals[slot]? with
    | some v => do
      push v
      return .next
    | none => throw (.abort (.undefinedSlot slot))
  | .store slot => do
    let f ← top
    match f.stack with
    | v :: _ => do
      -- the value is off the stack before the locals grow, also if they cannot
      drop 1
      if f.locals.size ≤ slot then
        let size ← increment Word.arrayBound slot
        change fun f =>
          { f with locals := f.locals ++ Array.replicate (size - f.locals.size) .unit }
      change fun f => { f with locals := f.locals.setIfInBounds slot v }
      return .next
    | [] => f.underflow 1
  | .pop => do
    let f ← top
    match f.stack with
    | _ :: _ => do
      drop 1
      return .next
    | [] => f.underflow 1
  | .dup => do
    let f ← top
    match f.stack with
    | v :: _ => do
      push v
      return .next
    | [] => f.underflow 1
  | .swap => do
    let f ← top
    match f.stack with
    | y :: x :: base => do
      change fun f => f.withStack (x :: y :: base)
      return .next
    | _ => f.underflow 2
  | .binary op => onTwo E (.binary op)
  | .unary op => onTop E (.unary op)
  | .index => onTwo E .get
  | .setIndex => do
    let f ← top
    match f.stack with
    | item :: key :: x :: _ => do
      let v ← E (.set x key item)
      replace 3 v
    | _ => f.underflow 3
  | .length => onTop E .length
  | .head => onTop E .head
  | .tail => onTop E .tail
  | .isNil => onTop E .isNil
  | .cons => onTwo E (.binary .cons)
  | .empty => onTop E .nilOf
  | .makeList count => do
    let f ← top
    let (items, _) ← f.operands count
    let v ← Eval.makeList items
    replace count v
  | .makeRecord names => do
    let f ← top
    let (items, _) ← f.operands names.length
    let v ← Eval.makeRecord ⟨names.zip items⟩
    replace names.length v
  | .makeVariant tag => do
    let f ← top
    match f.stack with
    | x :: _ => do
      let v ← Eval.makeVariant tag x
      replace 1 v
    | [] => f.underflow 1
  | .tag => onTop E .tagOf
  | .untag => onTop E .untag
  | .render => do
    let context ← Eval.context
    onTop E (.render · context.format)
  | .convert kind => onTop E (.convert · kind)
  | .delay chunk captures => do
    let f ← top
    let (g, _) ← f.capture chunk captures
    let v ← Eval.makeThunk (.waiting (.call g))
    replace captures v
  | .closure chunk captures => do
    let f ← top
    let (g, _) ← f.capture chunk captures
    replace captures (.function g)
  | .force => onTop E .force
  | .call count => do
    call E fuel count
    return .next
  | .jump target => return .jump target
  | .jumpIfFalse target => do
    let f ← top
    match f.stack with
    | x :: _ => do
      match ← E (.force x) with
      | .bool b => do
        drop 1
        return if b then .next else .jump target
      | other => Eval.invalidUnary "JumpIfFalse" other
    | [] => f.underflow 1
  | .attempt target => do
    change fun f => { f with handlers := ⟨target, f.stack.length⟩ :: f.handlers }
    return .next
  | .endAttempt => do
    change fun f => { f with handlers := f.handlers.tail }
    return .next
  | .ret => do
    let f ← top
    drop 1
    return .leave (f.stack.head?.getD .unit)

/-- Applies the pending call of the top frame, which has `depth` frames below it. The marker of the
call is taken first; if the call is not completed, it is put back. -/
def callPending (E : Engine) (fuel depth count : Nat) : Work Motion := do
  change fun f => { f with pendingCall := none }
  try call E fuel count
  catch stop => do
    changeAt depth fun f => { f with pendingCall := some count }
    throw stop
  return .stay

/-- Tries the pending call or the next instruction of the top frame `f`. -/
def tryNext (E : Engine) (fuel depth : Nat) (f : Frame) : Work Motion :=
  match f.pendingCall with
  | some count => callPending E fuel depth count
  | none =>
    match f.instr? with
    | some instr => step E fuel instr
    | none => return .leave (f.stack.head?.getD .unit)

/-- Attempts the pending call or the next instruction of the top frame, which then is where its
motion leads it. -/
def attempt (E : Engine) (fuel : Nat) : Work Motion := do
  let f ← top
  let depth := (← get).frames.length - 1
  let motion ← tryNext E fuel depth f
  changeAt depth motion.place
  return motion

end Work

/-! ### Work that does what a step says -/

/-- The outcome of a step, and the same outcome in place: the results are related to each other and
to the frames by `R`, and after a failure or a suspension the frames are those at the start. -/
def Matches (frames : List Frame) (R : α → β → List Frame → Prop) :
    EStateM.Result Stop World α → EStateM.Result Stop Bench β → Prop
  | .ok a w, .ok b bench => bench.world = w ∧ R a b bench.frames
  | .error stop w, .error stop' bench =>
    stop' = stop ∧ bench.world = w ∧
      (stop = .interrupt .failed ∨ stop = .interrupt .suspended → bench.frames = frames)
  | _, _ => False

/-- The work `y`, from the given frames on, does what the step `x` says. -/
def Tracks (frames : List Frame) (R : α → β → List Frame → Prop) (x : Step α) (y : Work β) : Prop :=
  ∀ w, Matches frames R (x w) (y ⟨frames, w⟩)

/-- What follows an evaluation is matched where its results are. -/
theorem Matches.andThen {α' β' : Type} {frames : List Frame} {R : α → β → List Frame → Prop}
    {R' : α' → β' → List Frame → Prop} {x : Step α} {y : Work β} {k : α → Step α'}
    {k' : β → Work β'} {w : World} {bench : Bench} (h : Matches frames R (x w) (y bench))
    (hk : ∀ a b frames', R a b frames' → ∀ w', Matches frames R' (k a w') (k' b ⟨frames', w'⟩)) :
    Matches frames R' ((x >>= k) w) ((y >>= k') bench) := by
  simp only [Bind.bind, EStateM.bind]
  cases hx : x w with
  | ok a w' =>
    cases hy : y bench with
    | ok b bench' =>
      rw [hx, hy] at h
      obtain ⟨rfl, hR⟩ := h
      exact hk a b bench'.frames hR bench'.world
    | error stop bench' =>
      rw [hx, hy] at h
      exact h.elim
  | error stop w' =>
    cases hy : y bench with
    | ok b bench' =>
      rw [hx, hy] at h
      exact h.elim
    | error stop' bench' =>
      rw [hx, hy] at h
      exact h

namespace Tracks

variable {f : Frame} {below frames : List Frame} {R : α → β → List Frame → Prop}

/-- A step that has no part in the frames leaves them. -/
theorem ofStep (x : Step α) :
    Tracks frames (fun a b frames' => b = a ∧ frames' = frames ∧ ∃ w w', x w = .ok a w') x
      (Work.ofStep x) := by
  intro w
  unfold Work.ofStep
  cases hx : x w with
  | ok a w' => exact ⟨rfl, rfl, rfl, w, w', hx⟩
  | error stop w' => exact ⟨rfl, rfl, fun _ => rfl⟩

/-- What may be interrupted comes first, on the frames as they are. -/
theorem bind_of {x : Step γ} {k : γ → Step α} {k' : γ → Work β}
    (h : ∀ c w w', x w = .ok c w' → Tracks frames R (k c) (k' c)) :
    Tracks frames R (x >>= k) (Work.ofStep x >>= k') := by
  refine fun w => (ofStep x w).andThen ?_
  rintro _ c _ ⟨rfl, rfl, w, w', hx⟩
  exact h c w w' hx

/-- What neither touches frames goes first in both. -/
theorem bind {x : Step γ} {k : γ → Step α} {k' : γ → Work β}
    (h : ∀ c, Tracks frames R (k c) (k' c)) :
    Tracks frames R (x >>= k) (Work.ofStep x >>= k') :=
  bind_of fun c _ _ _ => h c

theorem throw (stop : Stop) : Tracks frames R (throw stop : Step α) (throw stop : Work β) :=
  fun _ => ⟨rfl, rfl, fun _ => rfl⟩

theorem fail (e : RuntimeError) :
    Tracks frames R (Step.ofEval (Eval.fail e)) (Work.ofStep (Step.ofEval (Eval.fail e))) :=
  fun _ => ⟨rfl, rfl, fun _ => rfl⟩

/-- The frames are read before they are changed. -/
theorem top {x : Step α} {k : Frame → Work β} (h : Tracks (f :: below) R x (k f)) :
    Tracks (f :: below) R x (Work.top >>= k) := h

end Tracks

/-- The frames after an attempt are those that the step yields, up to what the motion still does to
the frame that made the attempt. -/
inductive Flow.Placed (below : List Frame) : Flow → Motion → List Frame → Prop
  | next (g : Frame) : Placed below (.next g) .next (g :: below)
  | stay (g : Frame) : Placed below (.stay g) .stay (g :: below)
  | jump (g : Frame) (target : Nat) : Placed below (.jump g target) (.jump target) (g :: below)
  | call (caller callee : Frame) :
      Placed below (.enter { caller with pc := caller.pc + 1 } callee) .next
        (callee :: caller :: below)
  | pending (caller callee : Frame) :
      Placed below (.enter caller callee) .stay (callee :: caller :: below)
  | leave (v : Value) (g : Frame) : Placed below (.leave v) (.leave v) (g :: below)

section Operands

variable {f : Frame} {w w' : World}

/-- Operands are above the stack without them. -/
theorem Frame.operands_base {n : Nat} {values base : List Value}
    (h : f.operands n w = .ok (values, base) w') : base = f.stack.drop n := by
  unfold Frame.operands at h
  split at h
  · cases h
    rfl
  · cases h

/-- As many values as are captured are taken off. -/
theorem Frame.capture_base {chunk captures : Nat} {g : Ref .function} {base : List Value}
    (h : f.capture chunk captures w = .ok (g, base) w') : base = f.stack.drop captures := by
  obtain ⟨⟨values, base'⟩, w₁, hvalues, h⟩ := of_bind_ok h
  obtain rfl := operands_base hvalues
  cases hchunk : f.program.chunk? chunk with
  | some target =>
    simp only [hchunk] at h
    cases h
    rfl
  | none =>
    simp only [hchunk] at h
    cases h

end Operands

namespace Work

variable {E : Engine} {fuel : Nat} {f : Frame} {below : List Frame}

/-- A value in the place of the topmost ones. -/
theorem replace_tracks {n : Nat} {base : List Value} (hbase : f.stack.drop n = base) (v : Value) :
    Tracks (f :: below) (Flow.Placed below) (pure (.next (f.withStack (v :: base))))
      (replace n v) := by
  subst hbase
  exact fun _ => ⟨rfl, .next _⟩

/-- A change of the top frame after which the instruction is done. -/
theorem change_tracks {g : Frame} {change : Frame → Frame} (hg : change f = g) :
    Tracks (f :: below) (Flow.Placed below) (pure (.next g)) do
      Work.change change
      return .next := by
  subst hg
  exact fun _ => ⟨rfl, .next _⟩

/-- An operation on the top in place does what it does on a copy. -/
theorem onTop_tracks (o : Value → Operation) :
    Tracks (f :: below) (Flow.Placed below) (f.onTop E o) (onTop E o) := by
  refine .top ?_
  unfold Frame.onTop
  cases hstack : f.stack with
  | nil => exact .throw _
  | cons x base => exact .bind fun v => replace_tracks (by rw [hstack]; rfl) v

/-- So does one on the two topmost values. -/
theorem onTwo_tracks (o : Value → Value → Operation) :
    Tracks (f :: below) (Flow.Placed below) (f.onTwo E o) (onTwo E o) := by
  refine .top ?_
  unfold Frame.onTwo
  match hstack : f.stack with
  | [] | [_] => exact .throw _
  | y :: x :: base => exact .bind fun v => replace_tracks (by rw [hstack]; rfl) v

/-- The caller, and above it the frame of the callee, if that is code. -/
def Called (below : List Frame) (called : Frame × Option Frame) (_ : Unit) (frames : List Frame) :
    Prop :=
  frames = called.2.toList ++ called.1 :: below

/-- A call drops its operands once the callee is bound to them. -/
theorem call_tracks (count : Nat) :
    Tracks (f :: below) (Called below) (f.apply E fuel count) (call E fuel count) := by
  refine .top (.bind fun need => .bind_of fun (slots, base) _ _ hslots => ?_)
  obtain rfl := Frame.operands_base hslots
  cases slots with
  | nil => exact .throw _
  | cons callee args =>
    refine .bind fun callee => .bind fun application => ?_
    cases application with
    | value v rest =>
      intro w
      simp only [Frame.receive, Frame.pushResult]
      cases rest with
      | nil => exact ⟨rfl, rfl⟩
      | cons item rest => exact ⟨rfl, rfl⟩
    | enter program chunk locals rest =>
      dsimp only [Frame.receive, enter]
      cases Frame.enter? program chunk locals (.call rest) with
      | some g => exact fun _ => ⟨rfl, rfl⟩
      | none => exact fun w => ⟨rfl, rfl, by simp⟩

/-- What is stored is popped first, and then locals are added up to its slot. -/
theorem store_tracks {v : Value} {base : List Value} (hstack : f.stack = v :: base) (slot : Nat) :
    Tracks (f :: below) (Flow.Placed below)
      (if f.locals.size ≤ slot then do
        let _ ← increment Word.arrayBound slot
        return .next { f with stack := base, locals := f.store slot v }
      else return .next { f with stack := base, locals := f.store slot v }) do
      drop 1
      if f.locals.size ≤ slot then
        let size ← increment Word.arrayBound slot
        change fun f =>
          { f with locals := f.locals ++ Array.replicate (size - f.locals.size) .unit }
      change fun f => { f with locals := f.locals.setIfInBounds slot v }
      return .next := by
  intro w
  obtain rfl : f.stack.drop 1 = base := by rw [hstack]; rfl
  split
  · simp only [increment]
    split
    · exact ⟨rfl, .next _⟩
    · exact ⟨rfl, rfl, by simp⟩  -- the host gives up, with the value popped
  · next hsize =>
    have hstore : f.store slot v = f.locals.setIfInBounds slot v := by
      rw [Frame.store, Nat.sub_eq_zero_of_le (by omega), Array.replicate_zero, Array.append_empty]
    rw [hstore]
    exact ⟨rfl, .next _⟩

/-- Every instruction in place does what the step says. -/
theorem step_tracks (instr : Instr) :
    Tracks (f :: below) (Flow.Placed below) (f.step E fuel instr) (step E fuel instr) := by
  -- operands are read first and replaced at the end: nothing in between changes the frame
  cases instr with
  | push literal => exact .bind fun v => fun _ => ⟨rfl, .next _⟩
  | load slot =>
    refine .top ?_
    dsimp only [Frame.step]
    cases f.locals[slot]? with
    | some v => exact fun _ => ⟨rfl, .next _⟩
    | none => exact .throw _
  | store slot =>
    refine .top ?_
    dsimp only [Frame.step]
    cases hstack : f.stack with
    | nil => exact .throw _
    | cons v base =>
      exact store_tracks hstack slot
  | pop =>
    refine .top ?_
    dsimp only [Frame.step]
    cases hstack : f.stack with
    | nil => exact .throw _
    | cons v base => exact change_tracks (by rw [hstack]; rfl)
  | dup =>
    refine .top ?_
    dsimp only [Frame.step]
    cases hstack : f.stack with
    | nil => exact .throw _
    | cons v base => exact change_tracks (by rw [hstack])
  | swap =>
    refine .top ?_
    dsimp only [Frame.step]
    match hstack : f.stack with
    | [] | [_] => exact .throw _
    | y :: x :: base => exact change_tracks rfl
  | binary | index | cons => exact onTwo_tracks _
  | unary | length | head | tail | isNil | empty | tag | untag | convert | force =>
    exact onTop_tracks _
  | render => exact .bind fun context => onTop_tracks _
  | setIndex =>
    refine .top ?_
    dsimp only [Frame.step]
    match hstack : f.stack with
    | [] | [_] | [_, _] => exact .throw _
    | item :: key :: x :: base => exact .bind fun v => replace_tracks (by rw [hstack]; rfl) v
  | makeList | makeRecord =>
    refine .top (.bind_of fun (items, base) _ _ hitems => .bind fun v => ?_)
    exact replace_tracks (Frame.operands_base hitems).symm v
  | makeVariant tag =>
    refine .top ?_
    dsimp only [Frame.step]
    cases hstack : f.stack with
    | nil => exact .throw _
    | cons x base => exact .bind fun v => replace_tracks (by rw [hstack]; rfl) v
  | delay chunk captures =>
    refine .top (.bind_of fun (g, base) _ _ hcapture => .bind fun v => ?_)
    exact replace_tracks (Frame.capture_base hcapture).symm v
  | closure chunk captures =>
    refine .top (.bind_of fun (g, base) _ _ hcapture => ?_)
    exact replace_tracks (Frame.capture_base hcapture).symm _
  | call count =>
    refine fun w => (call_tracks count w).andThen ?_
    rintro ⟨caller, _ | callee⟩ _ _ rfl w
    · exact ⟨rfl, .next _⟩
    · exact ⟨rfl, .call _ _⟩
  | jump target => exact fun _ => ⟨rfl, .jump _ _⟩
  | jumpIfFalse target =>
    refine .top ?_
    dsimp only [Frame.step]
    cases hstack : f.stack with
    | nil => exact .throw _
    | cons x base =>
      refine .bind fun v => ?_
      cases v with
      | bool b =>
        have hbase : f.withStack base = f.withStack (f.stack.drop 1) := by rw [hstack]; rfl
        rw [hbase]
        cases b with
        | true => exact fun _ => ⟨rfl, .next _⟩
        | false => exact fun _ => ⟨rfl, .jump _ _⟩
      | _ => exact .fail _
  | attempt | endAttempt => exact change_tracks rfl
  | ret => exact fun _ => ⟨rfl, .leave _ _⟩

/-- The frames once the motion has been made, below which nothing is touched. -/
theorem placed_frames {flow : Flow} {motion : Motion} {frames : List Frame}
    (h : flow.Placed below motion frames) (hflow : ∀ v, flow ≠ .leave v) :
    frames.modify (frames.length - (below.length + 1)) motion.place = flow.frames ++ below := by
  cases h with
  | next g | stay g | jump g target | call caller callee | pending caller callee =>
    simp [Flow.frames, Motion.place]
  | leave v g => exact absurd rfl (hflow v)

/-- The motion of an attempt, and the frames after it, say what the step says. -/
def Moved (below : List Frame) (flow : Flow) (motion : Motion) (frames : List Frame) : Prop :=
  match flow with
  | .leave v => motion = .leave v ∧ frames.tail = below
  | flow => frames = flow.frames ++ below

/-- What is left to do when the instruction is done. -/
theorem place_moved {flow : Flow} {motion : Motion} {frames : List Frame}
    (h : flow.Placed below motion frames) (w : World) :
    Matches (f :: below) (Moved below) (.ok flow w)
      ((do changeAt below.length motion.place; return motion : Work Motion) ⟨frames, w⟩) := by
  refine ⟨rfl, ?_⟩
  cases h with
  | leave v g => exact ⟨rfl, by simp [Motion.place]⟩
  | next g | stay g | jump g target | call caller callee | pending caller callee =>
    exact placed_frames (by constructor) (by simp)

/-- What is put back after an interrupt is as it was before. -/
theorem matches_putBack {R : α → β → List Frame → Prop} {x : Step α} {y : Work β} {depth : Nat}
    {g : Frame → Frame} {frames start : List Frame} {w : World}
    (h : Matches frames R (x w) (y ⟨frames, w⟩))
    (hg : frames.modify (frames.length - (depth + 1)) g = start) :
    Matches start R (x w)
      ((tryCatch y fun stop => do changeAt depth g; throw stop) ⟨frames, w⟩) := by
  simp only [tryCatch, tryCatchThe, MonadExceptOf.tryCatch, EStateM.tryCatch]
  cases hx : x w with
  | ok a w' =>
    cases hy : y ⟨frames, w⟩ with
    | ok b bench => rwa [hx, hy] at h
    | error stop bench =>
      rw [hx, hy] at h
      exact h.elim
  | error stop w' =>
    cases hy : y ⟨frames, w⟩ with
    | ok b bench =>
      rw [hx, hy] at h
      exact h.elim
    | error stop' bench =>
      rw [hx, hy] at h
      obtain ⟨rfl, rfl, hframes⟩ := h
      refine ⟨rfl, rfl, fun hstop => ?_⟩
      rw [← hg, ← hframes hstop]
      rfl

/-- The marker of a pending call is back if the call is not completed. -/
theorem callPending_tracks {count : Nat} (hpending : f.pendingCall = some count) :
    Tracks (f :: below) (Flow.Placed below)
      (do
        match ← Frame.apply E fuel { f with pendingCall := none } count with
        | (caller, none) => return .stay caller
        | (caller, some callee) => return .enter caller callee)
      (callPending E fuel below.length count) := by
  intro w
  have hback : ({ f with pendingCall := none } :: below).modify
      (({ f with pendingCall := none } :: below).length - (below.length + 1))
      (fun f => { f with pendingCall := some count }) = f :: below := by
    simp [← hpending]
  refine (matches_putBack (call_tracks count w) hback).andThen ?_
  rintro ⟨caller, _ | callee⟩ _ _ rfl w
  · exact ⟨rfl, .stay _⟩
  · exact ⟨rfl, .pending _ _⟩

/-- An attempt in place does what the step of the frame says. -/
theorem attempt_tracks (E : Engine) (fuel : Nat) (f : Frame) (below : List Frame) :
    Tracks (f :: below) (Moved below) (f.advance E fuel) (attempt E fuel) := by
  have htry : Tracks (f :: below) (Flow.Placed below) (f.advance E fuel)
      (tryNext E fuel below.length f) := by
    unfold Frame.advance tryNext
    cases hpending : f.pendingCall with
    | some count => exact callPending_tracks hpending
    | none =>
      cases f.instr? with
      | some instr => exact step_tracks instr
      | none => exact fun _ => ⟨rfl, .leave _ _⟩
  rw [← bind_pure (f.advance E fuel)]
  exact fun w => (htry w).andThen fun flow motion frames h w => place_moved h w

end Work

/-! ### Rounds above frames that wait -/

section Waiting

open Snapshot (Buried Reached)

variable {E : Engine} {fuel : Nat} {f : Frame} {below : List Frame} {m : Machine}

/-- The relation of all heaps, for what is said of frames alone. -/
instance : Heap.Growth fun _ _ => True where
  refl _ := trivial
  trans _ _ _ _ _ := trivial
  of_grows _ := trivial
  of_addThunk _ _ := trivial

/-- An instruction goes on in its frame, whatever the engine does. -/
theorem advance_keeps (E : Engine) (fuel : Nat) (g : Frame) (w : World) :
    Leads (g.advance E fuel) w fun r _ => ∀ flow, r = .ok flow → flow.Keeps g :=
  (advance_yields (R := fun _ _ => True) (fun _ _ => .intro (fun _ _ _ _ => trivial)
    fun _ _ _ _ => trivial) fuel g w).imp fun _ _ h => h.2

/-- The frames wait for a thunk that others evaluate above them, or they are on top. -/
def Awaited (f : Frame) (below frames : List Frame) : Prop :=
  (∃ t, Buried f below t frames) ∨ frames = f :: below

/-- A run that goes on has the frames as they were, unless a failure has reached them. -/
def Spared (f : Frame) (below : List Frame) (r : Except Interrupt Machine.Round) : Prop :=
  ∀ m, r = .ok (.running m) → Awaited f below m.frames ∨ Reached f below m.frames

/-- Frames that are driven come on top. -/
theorem Awaited.push {frames : List Frame} (h : Awaited f below frames) {g : Frame} {t : Ref .thunk}
    {more : List (Ref .thunk)} (hg : g.kind = .thunk (t :: more)) :
    ∃ u, Buried f below u (g :: frames) := by
  rcases h with ⟨u, h⟩ | rfl
  · exact ⟨u, .above g h⟩
  · exact ⟨t, .here hg⟩

/-- If a failure is handled above the waiting frames they wait on; else it reaches them. -/
theorem Awaited.handled {frames frames' : List Frame} (h : Awaited f below frames)
    (hhandled : Snapshot.Handled frames frames') :
    Awaited f below frames' ∨ Reached f below frames' := by
  rcases h with ⟨u, h⟩ | rfl
  · exact (h.handled hhandled).imp_left fun h => .inl ⟨u, h⟩
  · exact .inr hhandled.reached

/-- Recovery spares the waiting frames, unless a failure reaches them. -/
theorem recover_spares (h : Awaited f below m.frames) (stop : Stop) (w : World) :
    Leads (m.recover stop) w fun r _ => Spared f below r := by
  cases stop with
  | abort a => exact (abandon_not_running m a w).imp fun _ _ hr m' heq => absurd heq (hr m')
  | interrupt i =>
    exact (recover_handled m i w).imp fun r _ hr m' heq => h.handled (hr.1 m' heq)

/-- So does what is done about a stop. -/
theorem halt_spares (h : Awaited f below m.frames) (stop : Stop) (w : World) :
    Leads (m.halt E fuel stop) w fun r _ => Spared f below r := by
  unfold Machine.halt
  split
  · rw [leads_bind]
    refine leads_outcome ((resume_frame E fuel w).imp fun r w' hr _ => ?_) fun _ _ _ => nofun
    rcases r with stop | _ | g
    · exact recover_spares h stop w'
    · rintro _ ⟨⟩
      exact .inl h
    · obtain ⟨t, more, hg⟩ := hr g rfl
      rintro _ ⟨⟩
      exact .inl (.inl (h.push hg))
  · exact recover_spares h _ w

/-- A result that comes from above the waiting frames leaves them as they are. -/
theorem leave_spares {g : Frame} {t : Ref .thunk} {lower : List Frame}
    (h : Buried f below t (g :: lower)) (v : Value) (w : World) :
    Leads (m.leave E fuel g.kind lower v) w fun r _ => Spared f below r := by
  unfold Machine.leave
  split
  · exact nofun
  · next rest hkind =>
    -- the frame that returns is not the one that the others wait for
    cases h with
    | here hg =>
      rw [hkind] at hg
      cases hg
    | above _ hlower =>
      cases lower with
      | nil => cases hlower
      | cons caller others =>
        rintro _ ⟨⟩
        exact .inl (.inl ⟨t, hlower.replace (Frame.kind_of_task (caller.task_pushResult _ _ _))⟩)
  · next chain hkind =>
    have hlower : Awaited f below lower := by
      cases h with
      | here hg => exact .inr rfl
      | above _ hlower => exact .inl ⟨t, hlower⟩
    rw [leads_bind]
    refine leads_outcome (leads_ofEval.mpr ((settle_frame E fuel chain v w).imp fun r w' hr => ?_))
      fun _ _ _ => nofun
    rcases r with i | _ | g'
    · exact fun _ => halt_spares hlower _ w'
    · rintro - _ ⟨⟩
      exact .inl hlower
    · obtain ⟨u, more, hg⟩ := hr g' rfl
      rintro - _ ⟨⟩
      cases chain with
      | nil => exact .inl (.inl (hlower.push hg))
      | cons t' chain => exact .inl (.inl (hlower.push hg))

/-- A round above frames that wait leaves them as they are, unless a failure reaches them. -/
theorem round_spares {t : Ref .thunk} (h : Buried f below t m.frames) (w : World) :
    Leads (m.round E fuel) w fun r _ => Spared f below r := by
  unfold Machine.round
  split
  · exact (abandon_not_running m _ w).imp fun r _ hr m' heq => absurd heq (hr m')
  · simp only [leads_bind, leads_countInstruction]
    unfold Machine.turn
    split
    · exact (abandon_not_running _ _ _).imp fun r _ hr m' heq => absurd heq (hr m')
    · next g lower hframes =>
      have hg : Buried f below t (g :: lower) := hframes ▸ h
      rw [leads_bind]
      refine leads_outcome ((advance_keeps E fuel g _).imp fun r w' hr _ => ?_)
        fun _ _ _ m' heq => by cases heq
      cases r with
      | error stop =>
        have hawaited : Awaited f below { m with steps := m.steps + 1 }.frames := .inl ⟨t, h⟩
        exact halt_spares hawaited stop w'
      | ok flow =>
        -- what goes on above the waiting frames leaves them buried
        have hkeeps := hr flow rfl
        cases flow with
        | leave v => exact leave_spares hg v w'
        | next g' | stay g' | jump g' target | enter caller callee =>
          rintro _ ⟨⟩
          exact .inl (.inl ⟨t, hg.flow hkeeps (by simp)⟩)

open Relation (ReflTransGen)

/-- From where frames wait, a run leaves them as they are until they are on top again or a failure
has reached them. -/
theorem spared_until {a b : Snapshot} (ha : Awaited f below a.frames)
    (hrun : ReflTransGen (Snapshot.Goes E) a b) :
    (∃ t, Buried f below t b.frames) ∨ ∃ c : Snapshot, ReflTransGen (Snapshot.Goes E) a c ∧
      ReflTransGen (Snapshot.Goes E) c b ∧ (c.frames = f :: below ∨ Reached f below c.frames) := by
  induction hrun with
  | refl =>
    rcases ha with ha | htop
    · exact .inl ha
    · exact .inr ⟨a, .refl, .refl, .inl htop⟩
  | @tail b c hrun hgoes ih =>
    rcases ih with ⟨t, hburied⟩ | ⟨d, had, hdb, hd⟩
    · rcases (round_spares hburied b.world).of_ok hgoes.round _ rfl with (h | h) | h
      · exact .inl h
      · exact .inr ⟨c, hrun.tail hgoes, .refl, .inl h⟩
      · exact .inr ⟨c, hrun.tail hgoes, .refl, .inr h⟩
    · exact .inr ⟨d, had, hdb.tail hgoes, hd⟩

end Waiting

/-! ### Interrupted attempts -/

section Attempt

open Snapshot (Buried Reached)
open Relation (ReflTransGen)

variable {E : Engine} {fuel : Nat} {m : Machine} {w w' : World} {i : Interrupt}
  {frames : List Frame}

/-- An attempt that fails or is suspended has changed no frame. The machine goes on from the frames
that it had, and these stay as they are below the frames of thunks until the instruction is executed
again, on the same operands, or a failure has reached them. -/
theorem attempt_interrupted
    (hattempt : Work.attempt E fuel ⟨m.frames, w⟩ = .error (.interrupt i) ⟨frames, w'⟩)
    (hi : i = .failed ∨ i = .suspended) :
    frames = m.frames ∧ m.turn E fuel w = m.halt E fuel (.interrupt i) w' ∧
      ∃ f below, m.frames = f :: below ∧
        ∀ m₁ w₁, m.turn E fuel w = .ok (.running m₁) w₁ →
          ∀ n b, ReflTransGen (Snapshot.Goes E) ⟨n, m₁, w₁⟩ b →
            (∃ t, Buried f below t b.frames) ∨
              ∃ c : Snapshot, ReflTransGen (Snapshot.Goes E) ⟨n, m₁, w₁⟩ c ∧
                ReflTransGen (Snapshot.Goes E) c b ∧
                  (c.frames = m.frames ∨ Reached f below c.frames) := by
  cases hframes : m.frames with
  | nil =>
    rw [hframes] at hattempt
    cases hattempt
  | cons f below =>
    rw [hframes] at hattempt
    have hmatch := Work.attempt_tracks E fuel f below w
    rw [hattempt] at hmatch
    cases hadvance : f.advance E fuel w with
    | ok flow w₁ =>
      rw [hadvance] at hmatch
      exact hmatch.elim
    | error stop w₁ =>
      rw [hadvance] at hmatch
      obtain ⟨rfl, rfl, hsame⟩ := hmatch
      have hreg : Stop.Regular (.interrupt i) := hi
      have hturn : m.turn E fuel w = m.halt E fuel (.interrupt i) w' := by
        rw [Machine.turn, hframes]
        dsimp only
        rw [bind_ok (Step.outcome_stop hadvance hreg)]
      -- either the machine is inside the thunk, above this frame, or it is back at the frame
      refine ⟨hsame (by simpa using hi), hturn, f, below, rfl, fun m₁ w₁ hrunning n b hrun => ?_⟩
      rw [hturn] at hrunning
      have hawaited : Awaited f below m.frames := .inr hframes
      rcases (halt_spares hawaited _ w').of_ok hrunning m₁ rfl with h | h
      · exact spared_until h hrun
      · exact .inr ⟨_, .refl, hrun, .inr h⟩

/-- A frame with a pending call of a function that a thunk has yet to yield. -/
def stalled : Frame where
  program := ⟨#[⟨"main", 0, #[.ret]⟩], 0⟩
  chunk := 0
  locals := #[]
  stack := [.int 1, .lazy ⟨0⟩]
  kind := .entry
  pendingCall := some 1

/-- A cooperative evaluation in which the thunk is pending. -/
def stalled.world : World where
  heap := { thunks := #[.waiting (.native (.done (.int 41)))] }
  context := { mode := .cooperative }

theorem attempt_interrupted_pendingCall :
    Work.attempt (engine 3) 3 ⟨[stalled], stalled.world⟩ =
      .error (.interrupt .suspended) ⟨[stalled],
        { stalled.world with context := stalled.world.context.suspend ⟨0⟩ }⟩ ∧
      ({ frames := [stalled] } : Machine).turn (engine 3) 3 stalled.world =
        ({ frames := [stalled] } : Machine).halt (engine 3) 3 (.interrupt .suspended)
          { stalled.world with context := stalled.world.context.suspend ⟨0⟩ } := by
  have hattempt : Work.attempt (engine 3) 3 ⟨[stalled], stalled.world⟩ =
      .error (.interrupt .suspended) ⟨[stalled],
        { stalled.world with context := stalled.world.context.suspend ⟨0⟩ }⟩ := rfl
  exact ⟨hattempt,
    (attempt_interrupted (m := { frames := [stalled] }) hattempt (.inr rfl)).2.1⟩

end Attempt

end LazyMachine
