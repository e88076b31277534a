import LazyMachine.Proofs.Parallel

/-!
# The count of instructions

The world counts the instructions executed on whichever machine, and nothing ever looks at the
count. So an evaluation on a world where more instructions have been counted does the same and
leaves as many more (`CountFree`). Every way to compose evaluations keeps this, and the engine of
every level has it (`engine_countFree`); `execute_countFree` says it of runs of a machine.
-/

namespace LazyMachine

variable {ε α β : Type}

/-- The world after more instructions. -/
def World.later (w : World) (n : Nat) : World :=
  { w with executed := w.executed + n }

/-- No instruction more is the same world. -/
@[simp]
theorem World.later_zero (w : World) : w.later 0 = w := rfl

/-- Counts of further instructions add up. -/
@[simp]
theorem World.later_later (w : World) (n k : Nat) : (w.later n).later k = w.later (n + k) := by
  simp only [World.later, Nat.add_assoc]

/-- The outcome in the world after more instructions. -/
def outcomeLater (n : Nat) : EStateM.Result ε World α → EStateM.Result ε World α
  | .ok a w => .ok a (w.later n)
  | .error e w => .error e (w.later n)

/-- The evaluation does the same however many instructions have been counted before. -/
def CountFree (x : EStateM ε World α) : Prop :=
  ∀ n w, x (w.later n) = outcomeLater n (x w)

namespace CountFree

/-- A value found once is found after any number of further instructions. -/
theorem ok {x : EStateM ε World α} (hx : CountFree x) {w w' : World} {a : α} (h : x w = .ok a w')
    (n : Nat) : x (w.later n) = .ok a (w'.later n) := by
  rw [hx, h]
  rfl

/-- An interrupt raised once is raised after any number of further instructions. -/
theorem error {x : EStateM ε World α} (hx : CountFree x) {w w' : World} {e : ε}
    (h : x w = .error e w') (n : Nat) : x (w.later n) = .error e (w'.later n) := by
  rw [hx, h]
  rfl

/-! ### Composition -/

theorem pure (a : α) : CountFree (Pure.pure a : EStateM ε World α) := fun _ _ => rfl

theorem throw (e : ε) : CountFree (MonadExcept.throw e : EStateM ε World α) := fun _ _ => rfl

/-- Evaluations that do not read the count may follow each other. -/
theorem bind {x : EStateM ε World α} {f : α → EStateM ε World β} (hx : CountFree x)
    (hf : ∀ a, CountFree (f a)) : CountFree (x >>= f) := by
  intro n w
  simp only [Bind.bind, EStateM.bind, hx n w]
  cases x w with
  | ok a w' => exact hf a n w'
  | error e w' => rfl

/-- An evaluation and its handler that do not read the count do not read it together. -/
theorem tryCatch {x : EStateM ε World α} {f : ε → EStateM ε World α} (hx : CountFree x)
    (hf : ∀ e, CountFree (f e)) : CountFree (MonadExcept.tryCatch x f) := by
  intro n w
  simp only [MonadExcept.tryCatch, tryCatchThe, MonadExceptOf.tryCatch, EStateM.tryCatch,
    EStateM.Backtrackable.restore, EStateM.dummyRestore, hx n w]
  cases x w with
  | ok a w' => rfl
  | error e w' => exact hf e n w'

theorem fail (e : RuntimeError) : CountFree (Eval.fail e : Eval α) := fun _ _ => rfl

theorem heap : CountFree Eval.heap := fun _ _ => rfl

theorem context : CountFree Eval.context := fun _ _ => rfl

theorem onHeap (f : Heap → α × Heap) : CountFree (Eval.onHeap f) := fun _ _ => rfl

theorem onContext (f : Context → Context) : CountFree (Eval.onContext f) := fun _ _ => rfl

theorem onHost (f : Host → Host) : CountFree (Eval.onHost f) := fun _ _ => rfl

/-- Code may look at the state of the host. -/
theorem host {γ : Type} {g : Host → γ} {f : γ → Eval α} (hf : ∀ a, CountFree (f a)) :
    CountFree (do f (g (← get).host)) :=
  fun n w => hf (g w.host) n w

/-- Counting adds to the count without a look at it. -/
theorem countInstruction : CountFree Eval.countInstruction := by
  intro n w
  -- the one that is counted here comes before the others in one world and after them in the other
  show EStateM.Result.ok () _ = .ok () _
  simp only [World.later, Nat.add_right_comm]

/-- The entry check does not read the count. -/
theorem ensureLive : CountFree Eval.ensureLive := by
  refine .bind .context fun c => ?_
  split
  · exact .pure _
  · exact .throw _

/-- A context of its own does not let an evaluation read the count. -/
theorem isolated (c : Context) {x : Eval α} (hx : CountFree x) : CountFree (Eval.isolated c x) := by
  intro n w
  -- the evaluation runs in another context, whose world has counted as much
  have hx := hx n { w with context := c }
  simp only [Eval.isolated, World.later] at hx ⊢
  rw [hx]
  cases x { w with context := c } with
  | ok a w' => rfl
  | error i w' => cases i <;> rfl

theorem ofEval {x : Eval α} (hx : CountFree x) : CountFree (Step.ofEval x) := by
  intro n w
  simp only [Step.ofEval, hx n w]
  cases x w <;> rfl

/-- The outcome of a step depends on the count only if the step does. -/
theorem outcome {x : Step α} (hx : CountFree x) : CountFree x.outcome := by
  intro n w
  simp only [Step.outcome, hx n w]
  cases x w with
  | ok a w' => rfl
  | error stop w' =>
    cases stop with
    | interrupt i => cases i <;> rfl
    | abort a => rfl

/-- Giving a chain back after an interrupt does not read the count. -/
theorem releasing {x : Eval α} (chain : List (Ref .thunk)) (hx : CountFree x) :
    CountFree (LazyMachine.releasing chain x) :=
  .tryCatch hx fun _ => .bind (.onHeap _) fun _ => .throw _

/-- Another mode does not let an evaluation read the count. -/
theorem withMode {x : Eval α} (mode : ForceMode) (hx : CountFree x) :
    CountFree (LazyMachine.withMode mode x) :=
  .bind .context fun _ => .bind (.onContext _) fun _ =>
    .bind (.tryCatch hx fun _ => .bind (.onContext _) fun _ => .throw _) fun _ =>
      .bind (.onContext _) fun _ => .pure _

end CountFree

/-- What is composed of forces does not depend on the count if these do not. -/
theorem Parallel.countFree {wide : Prop} {ev ev' : Evaluator}
    (hforce : ∀ v, CountFree (ev.force v)) {x y : Eval α}
    (h : Parallel (.crashing wide) ev ev' x y) : CountFree x := by
  induction h with
  | cut | crash => exact .throw _
  | pure => exact .pure _
  | fail => exact .fail _
  | answer h => exact h.elim
  | live => exact .ensureLive
  | heap => exact .heap
  | add => exact .onHeap _
  | force v => exact hforce v
  | report e _ ih => exact .bind (.isolated {} ih) fun _ => .fail _
  | bind _ _ ihx ihf => exact .bind ihx ihf

/-- What forces nothing does not depend on the count. -/
theorem Parallel.countFree_of_forceless {x : Eval α}
    (hx : ∀ ev : Evaluator, Parallel .none ev ev x x) : CountFree x :=
  (hx .spent).countFree fun _ => .throw _

/-! ### Binding and driving -/

section Engine

variable {E : Engine} (hE : ∀ o, CountFree (E o))

include hE

/-- Host code has no request that tells the count. -/
theorem hostCode_countFree (code : HostCode) : CountFree (code.run E) := by
  induction code with
  | done => exact .pure _
  | stop => exact .throw _
  | fail => exact .fail _
  | perform o next ih => exact .bind (hE o) ih
  -- variables and latches are read off the host, which is apart from the count
  | readVariable name next ih => exact .host (g := fun h => (h.valueOf? name).getD .unit) ih
  | count t next ih => exact .bind (.onHost _) fun _ => ih
  | latch i next ih =>
    exact .host (g := fun h => h.latches.getD i true) fun b => .bind (.onHost _) fun _ => ih b
  | makeList items next ih =>
    exact .bind (Parallel.countFree_of_forceless fun _ => .makeList items) ih
  | makeThunk body next _ ih => exact .bind (.bind (.onHeap _) fun _ => .pure _) ih
  | makeFunction name arity body next _ ih =>
    exact .bind (.bind (.onHeap _) fun _ => .pure _) ih
  | makeNaturals first next ih =>
    exact .bind (.bind (.onHeap _) fun _ => .pure _) fun _ => .bind (.onHeap _) fun _ => ih _

/-- Forcing arguments does not read the count. -/
theorem forceAll_countFree (vs : List Value) : CountFree (forceAll E vs) := by
  induction vs with
  | nil => exact .pure _
  | cons v vs ih => exact .bind (hE _) fun _ => .bind ih fun _ => .pure _

/-- Choosing a clause does not read the count. -/
theorem select_countFree (t : OverloadTable) (args : List Value) : CountFree (t.select E args) := by
  refine .bind (forceAll_countFree hE args) fun forced => ?_
  split
  · exact .pure _
  · exact .fail _

/-- Binding a function to arguments does not read the count. -/
theorem bind_countFree (fuel : Nat) (f : Ref .function) (args : List Value) :
    CountFree (LazyMachine.bind E fuel f args) := by
  induction fuel generalizing f args with
  | zero => exact .throw _
  | succ fuel ih =>
    refine .bind .ensureLive fun _ => .bind .heap fun h => ?_
    dsimp only
    split
    · split
      · exact .pure _
      · exact .bind (.bind (.onHeap _) fun _ => .pure _) fun _ => .pure _
    · split
      · exact .bind (hostCode_countFree hE _) fun _ => .pure _
      · exact .pure _
      -- what an overloaded function comes down to is bound in turn
      · exact .bind (select_countFree hE _ _) fun _ => .bind (ih _ _) fun _ => .pure _

/-- Binding the computation behind a thunk does not read the count. -/
theorem deferredBind_countFree (fuel : Nat) (d : Deferred) : CountFree (d.bind E fuel) := by
  cases d with
  | native code => exact .bind (.withMode _ (hostCode_countFree hE code)) fun _ => .pure _
  | call f => exact bind_countFree hE fuel f []

omit hE in
/-- Claiming a thunk does not read the count. -/
theorem claim_countFree (t : Ref .thunk) : CountFree (claim t) := by
  refine .bind .heap fun h => ?_
  split
  · exact .pure _
  · exact .bind (.onHeap _) fun _ => .pure _
  · exact .fail _
  · exact .fail _

/-- Driving a thunk does not read the count. -/
theorem drive_countFree (fuel : Nat) (waiting : List (Ref .thunk)) (t : Ref .thunk) :
    CountFree (drive E fuel waiting t) := by
  induction fuel generalizing waiting t with
  | zero => exact .throw _
  | succ fuel ih =>
    refine .bind (.releasing _ (claim_countFree t)) fun claimed => ?_
    split
    · exact .bind (.onHeap _) fun _ => .pure _
    · next d =>
      refine .bind (.releasing _ (deferredBind_countFree hE fuel d)) fun application => ?_
      split
      · split
        · exact .pure _
        · exact .bind (.onHeap _) fun _ => .fail _
      · refine .bind (Parallel.countFree_of_forceless fun _ => .resolve _) fun resolved => ?_
        split
        · exact ih _ _
        · exact .bind (.onHeap _) fun _ => .pure _

/-- Settling a chain does not read the count. -/
theorem settle_countFree (fuel : Nat) (chain : List (Ref .thunk)) (v : Value) :
    CountFree (settle E fuel chain v) := by
  refine .bind (Parallel.countFree_of_forceless fun _ => .resolve _) fun resolved => ?_
  split
  · exact drive_countFree hE fuel _ _
  · exact .bind (.onHeap _) fun _ => .pure _

/-- Waking up from a suspension does not read the count. -/
theorem resume_countFree (fuel : Nat) : CountFree (resume E fuel) := by
  induction fuel with
  | zero => exact .throw _
  | succ fuel ih =>
    refine .bind (.ofEval .context) fun c => .bind (.ofEval (.onContext _)) fun _ => ?_
    split
    · exact .throw _
    · refine .tryCatch (.ofEval (drive_countFree hE fuel _ _)) fun stop => ?_
      split
      · exact ih
      · exact .throw _

/-! ### Instructions -/

/-- Binding a callee to arguments does not read the count. -/
theorem bindValue_countFree (fuel : Nat) (callee : Value) (args : List Value) :
    CountFree (bindValue E fuel callee args) := by
  unfold bindValue
  split
  · exact bind_countFree hE fuel _ _
  · exact .bind (Parallel.countFree_of_forceless fun _ => .foreignCall _ _) fun _ => .pure _
  · exact .fail _

omit hE in
/-- The host's check of a count is about another count. -/
theorem increment_countFree (bound n : Nat) : CountFree (increment bound n) := by
  unfold increment
  split
  · exact .pure _
  · exact .throw _

omit hE in
/-- Popping operands does not read the count. -/
theorem operands_countFree (f : Frame) (n : Nat) : CountFree (f.operands n) := by
  unfold Frame.operands
  split
  · exact .pure _
  · exact .throw _

omit hE in
/-- Receiving an application does not read the count. -/
theorem receive_countFree (f : Frame) (base : List Value) (a : Application) :
    CountFree (f.receive base a) := by
  cases a with
  | value v rest => exact .pure _
  | enter program chunk locals rest =>
    simp only [Frame.receive]
    split
    · exact .pure _
    · exact .throw _

/-- A call does not read the count. -/
theorem apply_countFree (fuel : Nat) (f : Frame) (count : Nat) :
    CountFree (f.apply E fuel count) := by
  refine .bind (increment_countFree _ _) fun need => .bind (operands_countFree f need) fun _ => ?_
  dsimp only
  split
  · exact .throw _
  · exact .bind (.ofEval (hE _)) fun _ => .bind (.ofEval (bindValue_countFree hE fuel _ _)) fun _ =>
      receive_countFree f _ _

/-- An operation on the top of the stack does not read the count. -/
theorem onTop_countFree (f : Frame) (o : Value → Operation) : CountFree (f.onTop E o) := by
  unfold Frame.onTop
  split
  · exact .bind (.ofEval (hE _)) fun _ => .pure _
  · exact .throw _

/-- An operation on the two values on top does not read the count. -/
theorem onTwo_countFree (f : Frame) (o : Value → Value → Operation) : CountFree (f.onTwo E o) := by
  unfold Frame.onTwo
  split
  · exact .bind (.ofEval (hE _)) fun _ => .pure _
  · exact .throw _

omit hE in
/-- Capturing values does not read the count. -/
theorem capture_countFree (f : Frame) (chunk captures : Nat) :
    CountFree (f.capture chunk captures) := by
  refine .bind (operands_countFree f _) fun _ => ?_
  dsimp only
  split
  · exact .bind (.ofEval (.onHeap _)) fun _ => .pure _
  · exact .throw _

/-- No instruction reads the count, not even of the machine that it runs on. -/
theorem step_countFree (fuel : Nat) (f : Frame) (instr : Instr) :
    CountFree (f.step E fuel instr) := by
  -- literals and data are put on the heap, and neither forces anything
  have forceless {α : Type} {x : Eval α} (hx : ∀ ev : Evaluator, Parallel .none ev ev x x) :
      CountFree (Step.ofEval x) := .ofEval (Parallel.countFree_of_forceless hx)
  cases instr with
  | push literal => exact .bind (forceless fun _ => .literal literal) fun _ => .pure _
  | load slot | pop | dup | swap =>
    dsimp only [Frame.step]
    split
    · exact .pure _
    · exact .throw _
  | store slot =>
    dsimp only [Frame.step]
    split
    · split
      · exact .bind (increment_countFree _ slot) fun _ => .pure _
      · exact .pure _
    · exact .throw _
  | binary | index | cons => exact onTwo_countFree hE _ _
  | unary | length | head | tail | isNil | empty | tag | untag | convert | force =>
    exact onTop_countFree hE _ _
  | render => exact .bind (.ofEval .context) fun _ => onTop_countFree hE _ _
  | setIndex =>
    dsimp only [Frame.step]
    split
    · exact .bind (.ofEval (hE _)) fun _ => .pure _
    · exact .throw _
  | makeList count =>
    exact .bind (operands_countFree f count) fun _ =>
      .bind (forceless fun _ => .makeList _) fun _ => .pure _
  | makeRecord names =>
    exact .bind (operands_countFree f _) fun _ =>
      .bind (forceless fun _ => .makeRecord _) fun _ => .pure _
  | makeVariant tag =>
    dsimp only [Frame.step]
    split
    · exact .bind (forceless fun _ => .makeVariant tag _) fun _ => .pure _
    · exact .throw _
  | delay chunk captures =>
    have hdelay (g : Ref .function) : CountFree (Eval.makeThunk (.waiting (.call g))) :=
      .bind (.onHeap _) fun _ => .pure _
    exact .bind (capture_countFree f chunk captures) fun _ =>
      .bind (.ofEval (hdelay _)) fun _ => .pure _
  | closure chunk captures =>
    exact .bind (capture_countFree f chunk captures) fun _ => .pure _
  | call count =>
    refine .bind (apply_countFree hE fuel f count) fun (caller, callee) => ?_
    cases callee <;> exact .pure _
  | jump | attempt | endAttempt | ret => exact .pure _
  | jumpIfFalse target =>
    dsimp only [Frame.step]
    split
    · refine .bind (.ofEval (hE _)) fun v => ?_
      split
      · exact .pure _
      · exact .pure _
      · exact .ofEval (.fail _)
    · exact .throw _

/-- Advancing a frame does not read the count. -/
theorem advance_countFree (fuel : Nat) (f : Frame) : CountFree (f.advance E fuel) := by
  unfold Frame.advance
  split
  · refine .bind (apply_countFree hE fuel _ _) fun (caller, callee) => ?_
    cases callee <;> exact .pure _
  · split
    · exact step_countFree hE fuel f _
    · exact .pure _

/-! ### Runs -/

omit hE in
/-- Unwinding does not read the count. -/
theorem unwind_countFree (frames : List Frame) : CountFree (unwind frames) := by
  -- the value for the handler is a variant over a record of three texts, all of them new
  have herror (e : Option RuntimeError) : CountFree (errorValue e) :=
    .bind (.onHeap _) fun _ => .bind (.onHeap _) fun _ => .bind (.onHeap _) fun _ =>
      .bind (.bind (.onHeap _) fun _ => .pure _) fun _ => .onHeap _
  induction frames with
  | nil => exact .pure _
  | cons f below ih =>
    unfold unwind
    split
    · exact .bind .context fun _ => .bind (.onContext _) fun _ => .bind (herror _) fun _ => .pure _
    · split
      · exact .pure _
      · exact .bind (.onHeap _) fun _ => ih

omit hE in
/-- Recovering from a stop does not read the count. -/
theorem recover_countFree (m : Machine) (stop : Stop) : CountFree (m.recover stop) := by
  cases stop with
  | abort a => exact .bind (.onHeap _) fun _ => .pure _
  | interrupt i =>
    refine .bind (unwind_countFree _) fun (handled, frames) => ?_
    cases handled <;> exact .pure _

/-- Stopping does not read the count. -/
theorem halt_countFree (fuel : Nat) (m : Machine) (stop : Stop) :
    CountFree (m.halt E fuel stop) := by
  unfold Machine.halt
  split
  · refine .bind (.outcome (resume_countFree hE fuel)) fun outcome => ?_
    split
    · exact .pure _
    · exact .pure _
    · exact recover_countFree _ _
  · exact recover_countFree _ _

/-- Leaving a frame does not read the count. -/
theorem leave_countFree (fuel : Nat) (m : Machine) (kind : FrameKind) (below : List Frame)
    (v : Value) : CountFree (m.leave E fuel kind below v) := by
  unfold Machine.leave
  split
  · exact .pure _
  · split
    · exact .pure _
    · exact .bind (.onHeap _) fun _ => .pure _
  · refine .bind (.outcome (.ofEval (settle_countFree hE fuel _ _))) fun outcome => ?_
    split
    · exact .pure _
    · exact .pure _
    · exact halt_countFree hE fuel _ _

/-- A turn does not read the count. -/
theorem turn_countFree (fuel : Nat) (m : Machine) : CountFree (m.turn E fuel) := by
  unfold Machine.turn
  split
  · exact .bind (.onHeap _) fun _ => .pure _
  · refine .bind (.outcome (advance_countFree hE fuel _)) fun outcome => ?_
    split
    · exact .pure _
    · exact .pure _
    · exact .pure _
    · exact .pure _
    · exact leave_countFree hE fuel _ _ _ _
    · exact halt_countFree hE fuel _ _

/-- A round checks the budget of its own machine only. -/
theorem round_countFree (fuel : Nat) (m : Machine) : CountFree (m.round E fuel) := by
  unfold Machine.round
  split
  · exact .bind (.onHeap _) fun _ => .pure _
  -- here the instructions are counted, while the limit looks at the steps of the machine
  · exact .bind .countInstruction fun _ => turn_countFree hE fuel _

/-- Whole runs do not read the count. -/
theorem execute_countFree (fuel : Nat) (m : Machine) : CountFree (m.execute E fuel) := by
  induction fuel generalizing m with
  | zero => exact .throw _
  | succ fuel ih =>
    refine .bind (round_countFree hE fuel m) fun round => ?_
    split
    · exact ih _
    · exact .pure _

/-- A run on a machine of its own does not read the count. -/
theorem invokeChunk_countFree (fuel : Nat) (program : Program) (chunk : Nat)
    (locals : List Value) : CountFree (invokeChunk E fuel program chunk locals) := by
  refine .bind (.bind .context fun c => ?_) fun (result, _) => ?_
  · split
    · exact .pure _
    · split
      · exact .bind (.onContext _) fun _ => .pure _
      · refine .bind (execute_countFree hE fuel _) fun result => ?_
        split
        · exact .pure _
        · exact .pure _
        · exact .bind (.onContext _) fun _ => .pure _
  · cases result with
    | ok v => exact .pure _
    | error i => exact .throw _

/-! ### Operations -/

/-- Applying what was bound does not read the count. -/
theorem applyFrom_countFree (fuel : Nat) (a : Application) : CountFree (applyFrom E fuel a) := by
  induction fuel generalizing a with
  | zero => exact .throw _
  | succ fuel ih =>
    have hcomplete : CountFree (a.complete E fuel) := by
      cases a with
      | value v rest => exact .pure _
      | enter program chunk locals rest =>
        exact .bind (invokeChunk_countFree hE fuel _ _ _) fun _ => .pure _
    refine .bind hcomplete fun (v, rest) => ?_
    dsimp only
    split
    · exact .pure _
    · exact .bind (hE _) fun _ => .bind (bindValue_countFree hE fuel _ _) fun _ => ih _

/-- Applying a function does not read the count. -/
theorem applyFunction_countFree (fuel : Nat) (f : Ref .function) (args : List Value) :
    CountFree (applyFunction E fuel f args) :=
  .bind (bind_countFree hE fuel f args) fun _ => applyFrom_countFree hE fuel _

/-- Running the computation behind a thunk does not read the count. -/
theorem deferredRun_countFree (fuel : Nat) (d : Deferred) : CountFree (d.run E fuel) := by
  cases d with
  | native code => exact .withMode _ (hostCode_countFree hE code)
  | call f => exact applyFunction_countFree hE fuel f []

/-- Evaluating a thunk at once does not read the count. -/
theorem forceNow_countFree (fuel : Nat) (waiting : List (Ref .thunk)) (t : Ref .thunk) :
    CountFree (forceNow E fuel waiting t) := by
  induction fuel generalizing waiting t with
  | zero => exact .throw _
  | succ fuel ih =>
    refine .bind (.releasing _ (claim_countFree t)) fun claimed => ?_
    split
    · exact .onHeap _
    · refine .bind (.releasing _ (deferredRun_countFree hE fuel _)) fun v => ?_
      split
      · exact ih _ _
      · exact .onHeap _

/-- Forcing to the end does not read the count. -/
theorem forceFrom_countFree (fuel : Nat) (v : Value) : CountFree (forceFrom E fuel v) := by
  induction fuel generalizing v with
  | zero => exact .throw _
  | succ fuel ih =>
    simp only [forceFrom]
    split
    · refine .bind (.bind .heap fun h => ?_) fun v => ih v
      split
      · exact .pure _
      · refine .bind .context fun c => ?_
        split
        · exact forceNow_countFree hE fuel _ _
        · exact .bind (.onContext _) fun _ => .throw _
    · exact .pure _

/-- Forcing does not read the count. -/
theorem force_countFree (fuel : Nat) (v : Value) : CountFree (force E fuel v) :=
  .bind .ensureLive fun _ => forceFrom_countFree hE fuel v

/-- No operation reads the count if the requests of host code do not. -/
theorem perform_countFree (fuel : Nat) (o : Operation) : CountFree (perform E fuel o) := by
  -- only a call runs code of its own; whatever else an operation does, it does around its forces
  cases o with
  | call callee args =>
    refine .bind (force_countFree hE fuel callee) fun callee => ?_
    split
    · exact applyFunction_countFree hE fuel _ _
    · exact Parallel.countFree_of_forceless fun _ => .foreignCall _ _
    · exact .fail _
  | _ =>
    have hparallel := @Parallel.perform_standard E E fuel fuel (Nat.le_refl fuel)
    exact (hparallel (by simp)).countFree (force_countFree hE fuel)

end Engine

/-- No operation depends on how many instructions have been counted. -/
theorem engine_countFree (level : Nat) (o : Operation) : CountFree (engine level o) := by
  induction level generalizing o with
  | zero => exact .throw _
  | succ level ih => exact perform_countFree ih level o

end LazyMachine
