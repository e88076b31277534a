import LazyMachine.Boundary
import LazyMachine.Proofs.Parallel

/-!
# More fuel keeps answers

`Approximates x y` says that `y` answers like `x` wherever `x` does not run out of fuel. Every way
to compose evaluations keeps it, so an evaluation at one level is approximated by the same
evaluation at every lower level: `engine_approximates` for operations, `round_approximates` for a
round of the machine and `run_approximates` for a run of a program.
-/

namespace LazyMachine

variable {ε α β : Type}

/-- Interrupts among which there is one for lack of fuel. -/
class Exhaustible (ε : Type) where
  /-- The interrupt for lack of fuel. -/
  exhausted : ε

/-- Evaluations are interrupted for lack of fuel. -/
instance : Exhaustible Interrupt := ⟨.exhausted⟩

/-- Steps are stopped by that interrupt. -/
instance : Exhaustible Stop := ⟨.interrupt .exhausted⟩

/-- Wherever `x` does not run out of fuel, `y` has the same outcome in the same world. -/
def Approximates [Exhaustible ε] (x y : EStateM ε World α) : Prop :=
  ∀ w, x w = y w ∨ ∃ w', x w = .error Exhaustible.exhausted w'

namespace Approximates

section Composition

variable [Exhaustible ε]

theorem refl (x : EStateM ε World α) : Approximates x x := fun _ => .inl rfl

theorem cut (y : EStateM ε World α) : Approximates (throw Exhaustible.exhausted) y :=
  fun w => .inr ⟨w, rfl⟩

/-- Sequences of approximations approximate sequences. -/
theorem bind {x y : EStateM ε World α} {f g : α → EStateM ε World β} (hx : Approximates x y)
    (hf : ∀ a, Approximates (f a) (g a)) : Approximates (x >>= f) (y >>= g) := by
  intro w
  simp only [Bind.bind, EStateM.bind]
  rcases hx w with h | ⟨w', h⟩
  · rw [h]
    cases y w with
    | ok a w' => exact hf a w'
    | error e w' => exact .inl rfl
  · rw [h]
    exact .inr ⟨w', rfl⟩

/-- A handler that passes lack of fuel on keeps the approximation. -/
theorem tryCatch {x y : EStateM ε World α} {f g : ε → EStateM ε World α} (hx : Approximates x y)
    (hf : ∀ e, Approximates (f e) (g e))
    (hcut : ∀ w, ∃ w', f Exhaustible.exhausted w = .error Exhaustible.exhausted w') :
    Approximates (tryCatch x f) (tryCatch y g) := by
  intro w
  simp only [MonadExcept.tryCatch, tryCatchThe, MonadExceptOf.tryCatch, EStateM.tryCatch,
    EStateM.Backtrackable.restore, EStateM.dummyRestore]
  rcases hx w with h | ⟨w', h⟩
  · rw [h]
    cases y w with
    | ok a w' => exact .inl rfl
    | error e w' => exact hf e w'
  · rw [h]
    exact .inr (hcut w')

end Composition

/-- A context of its own keeps an approximation. -/
theorem isolated {x y : Eval α} (c : Context) (hx : Approximates x y) :
    Approximates (Eval.isolated c x) (Eval.isolated c y) := by
  intro w
  simp only [Eval.isolated]
  rcases hx { w with context := c } with h | ⟨w', h⟩
  · rw [h]
    exact .inl rfl
  · rw [h]
    exact .inr ⟨_, rfl⟩

/-- Steps made of an approximation approximate steps. -/
theorem ofEval {x y : Eval α} (hx : Approximates x y) :
    Approximates (Step.ofEval x) (Step.ofEval y) := by
  intro w
  simp only [Step.ofEval]
  rcases hx w with h | ⟨w', h⟩
  · rw [h]
    exact .inl rfl
  · rw [h]
    exact .inr ⟨_, rfl⟩

/-- Outcomes of approximating steps approximate outcomes. -/
theorem outcome {x y : Step α} (hx : Approximates x y) : Approximates x.outcome y.outcome := by
  intro w
  simp only [Step.outcome]
  rcases hx w with h | ⟨w', h⟩
  · rw [h]
    exact .inl rfl
  · rw [h]
    exact .inr ⟨_, rfl⟩

/-- Giving a chain back after an interrupt keeps an approximation. -/
theorem releasing {x y : Eval α} (chain : List (Ref .thunk)) (hx : Approximates x y) :
    Approximates (LazyMachine.releasing chain x) (LazyMachine.releasing chain y) :=
  tryCatch hx (fun _ => refl _) fun _ => ⟨_, rfl⟩

/-- Another mode keeps an approximation. -/
theorem withMode {x y : Eval α} (mode : ForceMode) (hx : Approximates x y) :
    Approximates (LazyMachine.withMode mode x) (LazyMachine.withMode mode y) := by
  refine bind (refl _) fun c => bind (refl _) fun _ => bind ?_ fun v => refl _
  exact tryCatch hx (fun _ => refl _) fun _ => ⟨_, rfl⟩

/-- An outcome other than lack of fuel is kept. -/
theorem eq_of_ne [Exhaustible ε] {x y : EStateM ε World α} (h : Approximates x y) {w : World}
    (hne : ∀ w', x w ≠ .error Exhaustible.exhausted w') : y w = x w := by
  rcases h w with heq | ⟨w', heq⟩
  · exact heq.symm
  · exact absurd heq (hne w')

/-- A value is kept. -/
theorem eq_ok [Exhaustible ε] {x y : EStateM ε World α} (h : Approximates x y) {w w' : World}
    {a : α} (hx : x w = .ok a w') : y w = .ok a w' := by
  rw [← hx]
  exact h.eq_of_ne fun w'' => by simp [hx]

/-- What an evaluation leads to, if that excludes lack of fuel, is kept. -/
theorem leads [Exhaustible ε] {x y : EStateM ε World α} (h : Approximates x y) {w : World}
    {Q : Except ε α → World → Prop} (hx : Leads x w Q)
    (hcut : ∀ w', ¬ Q (.error Exhaustible.exhausted) w') : Leads y w Q :=
  hx.of_eq (h.eq_of_ne fun w' heq => hcut w' (hx.of_error heq))

end Approximates

/-- Operations composed alike approximate each other if their forces do. -/
theorem Parallel.approximates {wide : Prop} {ev ev' : Evaluator}
    (hforce : ∀ v, Approximates (ev.force v) (ev'.force v)) {x y : Eval α}
    (h : Parallel (.crashing wide) ev ev' x y) : Approximates x y := by
  induction h with
  | cut y => exact .cut y
  | pure | fail | crash | live | heap | add => exact .refl _
  | answer h => exact h.elim
  | force v => exact hforce v
  | report e _ ih => exact .bind (.isolated {} ih) fun _ => .refl _
  | bind _ _ ihx ihf => exact .bind ihx ihf

/-! ### Binding and driving -/

section Machine

variable {E E' : Engine} (hE : ∀ o, Approximates (E o) (E' o))

include hE

/-- Host code has the same outcome with more fuel behind its requests. -/
theorem hostCode_approximates (code : HostCode) : Approximates (code.run E) (code.run E') := by
  induction code with
  | done | stop | fail => exact .refl _
  | perform o next ih => exact .bind (hE o) ih
  | readVariable name next ih => exact .bind (.refl _) fun _ => ih _
  | count t next ih => exact .bind (.refl _) fun _ => ih
  | latch i next ih => exact .bind (.refl _) fun _ => .bind (.refl _) fun _ => ih _
  | makeList items next ih => exact .bind (.refl _) ih
  | makeThunk body next _ ih => exact .bind (.refl _) ih
  | makeFunction name arity body next _ ih => exact .bind (.refl _) ih
  | makeNaturals first next ih => exact .bind (.refl _) fun _ => .bind (.refl _) fun _ => ih _

/-- Forcing arguments has the same outcome with more fuel. -/
theorem forceAll_approximates (vs : List Value) :
    Approximates (forceAll E vs) (forceAll E' vs) := by
  induction vs with
  | nil => exact .refl _
  | cons v vs ih => exact .bind (hE _) fun _ => .bind ih fun _ => .refl _

/-- Choosing a clause has the same outcome with more fuel. -/
theorem select_approximates (t : OverloadTable) (args : List Value) :
    Approximates (t.select E args) (t.select E' args) :=
  .bind (forceAll_approximates hE args) fun _ => .refl _

/-- Binding a function has the same outcome with more fuel. -/
theorem bind_approximates {fuel fuel' : Nat} (hle : fuel ≤ fuel') (f : Ref .function)
    (args : List Value) : Approximates (bind E fuel f args) (bind E' fuel' f args) := by
  induction fuel generalizing fuel' f args with
  | zero => exact .cut _
  | succ fuel ih =>
    obtain ⟨k, rfl⟩ := Nat.exists_eq_add_of_lt hle
    refine .bind (.refl _) fun _ => .bind (.refl _) fun h => ?_
    dsimp only
    split
    · exact .refl _
    · split
      · exact .bind (hostCode_approximates hE _) fun _ => .refl _
      · exact .refl _
      · refine .bind (select_approximates hE _ _) fun selected => ?_
        exact .bind (ih (Nat.le_add_right fuel k) _ _) fun _ => .refl _

/-- Binding the computation behind a thunk has the same outcome with more fuel. -/
theorem deferredBind_approximates {fuel fuel' : Nat} (hle : fuel ≤ fuel') (d : Deferred) :
    Approximates (d.bind E fuel) (d.bind E' fuel') := by
  cases d with
  | native code => exact .bind (.withMode _ (hostCode_approximates hE code)) fun _ => .refl _
  | call f => exact bind_approximates hE hle f []

/-- Driving a thunk has the same outcome with more fuel. -/
theorem drive_approximates {fuel fuel' : Nat} (hle : fuel ≤ fuel') (waiting : List (Ref .thunk))
    (t : Ref .thunk) : Approximates (drive E fuel waiting t) (drive E' fuel' waiting t) := by
  induction fuel generalizing fuel' waiting t with
  | zero => exact .cut _
  | succ fuel ih =>
    obtain ⟨k, rfl⟩ := Nat.exists_eq_add_of_lt hle
    refine .bind (.refl _) fun claimed => ?_
    split
    · exact .refl _
    · next d =>
      refine .bind (.releasing _ (deferredBind_approximates hE (Nat.le_add_right fuel k) d))
        fun application => ?_
      split
      · exact .refl _
      · refine .bind (.refl _) fun resolved => ?_
        split
        · exact ih (Nat.le_add_right fuel k) _ _
        · exact .refl _

/-- Settling a chain has the same outcome with more fuel. -/
theorem settle_approximates {fuel fuel' : Nat} (hle : fuel ≤ fuel') (chain : List (Ref .thunk))
    (v : Value) : Approximates (settle E fuel chain v) (settle E' fuel' chain v) := by
  refine .bind (.refl _) fun resolved => ?_
  split
  · exact drive_approximates hE hle _ _
  · exact .refl _

/-- Waking up has the same outcome with more fuel. -/
theorem resume_approximates {fuel fuel' : Nat} (hle : fuel ≤ fuel') :
    Approximates (resume E fuel) (resume E' fuel') := by
  induction fuel generalizing fuel' with
  | zero => exact .cut _
  | succ fuel ih =>
    obtain ⟨k, rfl⟩ := Nat.exists_eq_add_of_lt hle
    refine .bind (.refl _) fun c => .bind (.refl _) fun _ => ?_
    split
    · exact .refl _
    · refine .tryCatch (.ofEval (drive_approximates hE (Nat.le_add_right fuel k) _ _)) ?_ ?_
      · intro stop
        split
        · exact ih (Nat.le_add_right fuel k)
        · exact .refl _
      · exact fun w => ⟨w, rfl⟩

/-! ### Instructions -/

/-- Binding a callee has the same outcome with more fuel. -/
theorem bindValue_approximates {fuel fuel' : Nat} (hle : fuel ≤ fuel') (callee : Value)
    (args : List Value) :
    Approximates (bindValue E fuel callee args) (bindValue E' fuel' callee args) := by
  unfold bindValue
  split
  · exact bind_approximates hE hle _ _
  · exact .refl _
  · exact .refl _

/-- A call has the same outcome with more fuel. -/
theorem apply_approximates {fuel fuel' : Nat} (hle : fuel ≤ fuel') (f : Frame) (count : Nat) :
    Approximates (f.apply E fuel count) (f.apply E' fuel' count) := by
  refine .bind (.refl (increment Word.bound count)) fun need => ?_
  refine .bind (.refl (f.operands need)) fun _ => ?_
  dsimp only
  split
  · exact .refl _
  · refine .bind (.ofEval (hE _)) fun callee => ?_
    exact .bind (.ofEval (bindValue_approximates hE hle _ _)) fun _ => .refl _

/-- An operation on the top of the stack has the same outcome with more fuel. -/
theorem onTop_approximates (f : Frame) (o : Value → Operation) :
    Approximates (f.onTop E o) (f.onTop E' o) := by
  unfold Frame.onTop
  split
  · exact .bind (.ofEval (hE _)) fun _ => .refl _
  · exact .refl _

/-- An operation on the two values on top has the same outcome with more fuel. -/
theorem onTwo_approximates (f : Frame) (o : Value → Value → Operation) :
    Approximates (f.onTwo E o) (f.onTwo E' o) := by
  unfold Frame.onTwo
  split
  · exact .bind (.ofEval (hE _)) fun _ => .refl _
  · exact .refl _

/-- An instruction has the same outcome with more fuel. -/
theorem step_approximates {fuel fuel' : Nat} (hle : fuel ≤ fuel') (f : Frame) (instr : Instr) :
    Approximates (f.step E fuel instr) (f.step E' fuel' instr) := by
  cases instr with
  | binary | index | cons => exact onTwo_approximates hE _ _
  | unary | length | head | tail | isNil | empty | tag | untag | convert | force =>
    exact onTop_approximates hE _ _
  | render => exact .bind (.refl _) fun c => onTop_approximates hE _ _
  | setIndex =>
    simp only [Frame.step]
    split
    · exact .bind (.ofEval (hE _)) fun _ => .refl _
    · exact .refl _
  | call count => exact .bind (apply_approximates hE hle f count) fun _ => .refl _
  | jumpIfFalse target =>
    simp only [Frame.step]
    split
    · exact .bind (.ofEval (hE _)) fun _ => .refl _
    · exact .refl _
  | _ => exact .refl _

/-- Advancing a frame has the same outcome with more fuel. -/
theorem advance_approximates {fuel fuel' : Nat} (hle : fuel ≤ fuel') (f : Frame) :
    Approximates (f.advance E fuel) (f.advance E' fuel') := by
  unfold Frame.advance
  split
  · exact .bind (apply_approximates hE hle _ _) fun _ => .refl _
  · split
    · exact step_approximates hE hle f _
    · exact .refl _

/-! ### Runs -/

/-- Stopping has the same outcome with more fuel. -/
theorem halt_approximates {fuel fuel' : Nat} (hle : fuel ≤ fuel') (m : Machine) (stop : Stop) :
    Approximates (m.halt E fuel stop) (m.halt E' fuel' stop) := by
  unfold Machine.halt
  split
  · exact .bind (.outcome (resume_approximates hE hle)) fun _ => .refl _
  · exact .refl _

/-- Leaving a frame has the same outcome with more fuel. -/
theorem leave_approximates {fuel fuel' : Nat} (hle : fuel ≤ fuel') (m : Machine) (kind : FrameKind)
    (below : List Frame) (v : Value) :
    Approximates (m.leave E fuel kind below v) (m.leave E' fuel' kind below v) := by
  unfold Machine.leave
  split
  · exact .refl _
  · exact .refl _
  · refine .bind (.outcome (.ofEval (settle_approximates hE hle _ _))) fun outcome => ?_
    split
    · exact .refl _
    · exact .refl _
    · exact halt_approximates hE hle _ _

/-- A turn has the same outcome with more fuel. -/
theorem turn_approximates {fuel fuel' : Nat} (hle : fuel ≤ fuel') (m : Machine) :
    Approximates (m.turn E fuel) (m.turn E' fuel') := by
  unfold Machine.turn
  split
  · exact .refl _
  · refine .bind (.outcome (advance_approximates hE hle _)) fun outcome => ?_
    split
    · exact .refl _
    · exact .refl _
    · exact .refl _
    · exact .refl _
    · exact leave_approximates hE hle _ _ _ _
    · exact halt_approximates hE hle _ _

/-- A round has the same outcome with more fuel. -/
theorem round_approximates {fuel fuel' : Nat} (hle : fuel ≤ fuel') (m : Machine) :
    Approximates (m.round E fuel) (m.round E' fuel') := by
  unfold Machine.round
  split
  · exact .refl _
  · exact .bind (.refl _) fun _ => turn_approximates hE hle _

/-- A run has the same outcome with more fuel. -/
theorem execute_approximates {fuel fuel' : Nat} (hle : fuel ≤ fuel') (m : Machine) :
    Approximates (m.execute E fuel) (m.execute E' fuel') := by
  induction fuel generalizing fuel' m with
  | zero => exact .cut _
  | succ fuel ih =>
    obtain ⟨k, rfl⟩ := Nat.exists_eq_add_of_lt hle
    refine .bind (round_approximates hE (Nat.le_add_right fuel k) m) fun round => ?_
    split
    · exact ih (Nat.le_add_right fuel k) _
    · exact .refl _

/-- A run from a chunk has the same outcome with more fuel. -/
theorem invoke_approximates {fuel fuel' : Nat} (hle : fuel ≤ fuel') (m : Machine)
    (program : Program) (chunk : Nat) (locals : List Value) :
    Approximates (m.invoke E fuel program chunk locals)
      (m.invoke E' fuel' program chunk locals) := by
  unfold Machine.invoke
  refine .bind (.refl _) fun c => ?_
  split
  · exact .refl _
  · split
    · exact .refl _
    · exact .bind (execute_approximates hE hle _) fun _ => .refl _

/-- A run on a machine of its own has the same outcome with more fuel. -/
theorem invokeChunk_approximates {fuel fuel' : Nat} (hle : fuel ≤ fuel') (program : Program)
    (chunk : Nat) (locals : List Value) :
    Approximates (invokeChunk E fuel program chunk locals)
      (invokeChunk E' fuel' program chunk locals) :=
  .bind (invoke_approximates hE hle _ _ _ _) fun _ => .refl _

/-! ### Operations -/

/-- Completing an application has the same outcome with more fuel. -/
theorem complete_approximates {fuel fuel' : Nat} (hle : fuel ≤ fuel') (a : Application) :
    Approximates (a.complete E fuel) (a.complete E' fuel') := by
  cases a with
  | value v rest => exact .refl _
  | enter program chunk locals rest =>
    exact .bind (invokeChunk_approximates hE hle _ _ _) fun _ => .refl _

/-- Applying what was bound has the same outcome with more fuel. -/
theorem applyFrom_approximates {fuel fuel' : Nat} (hle : fuel ≤ fuel') (a : Application) :
    Approximates (applyFrom E fuel a) (applyFrom E' fuel' a) := by
  induction fuel generalizing fuel' a with
  | zero => exact .cut _
  | succ fuel ih =>
    obtain ⟨k, rfl⟩ := Nat.exists_eq_add_of_lt hle
    have hk := Nat.le_add_right fuel k
    refine .bind (complete_approximates hE hk a) fun result => ?_
    dsimp only
    split
    · exact .refl _
    · exact .bind (hE _) fun callee => .bind (bindValue_approximates hE hk _ _) fun _ => ih hk _

/-- Applying a function has the same outcome with more fuel. -/
theorem applyFunction_approximates {fuel fuel' : Nat} (hle : fuel ≤ fuel') (f : Ref .function)
    (args : List Value) :
    Approximates (applyFunction E fuel f args) (applyFunction E' fuel' f args) :=
  .bind (bind_approximates hE hle _ _) fun _ => applyFrom_approximates hE hle _

/-- Running the computation behind a thunk has the same outcome with more fuel. -/
theorem deferredRun_approximates {fuel fuel' : Nat} (hle : fuel ≤ fuel') (d : Deferred) :
    Approximates (d.run E fuel) (d.run E' fuel') := by
  cases d with
  | native code => exact .withMode _ (hostCode_approximates hE code)
  | call f => exact applyFunction_approximates hE hle f []

/-- Evaluating a thunk at once has the same outcome with more fuel. -/
theorem forceNow_approximates {fuel fuel' : Nat} (hle : fuel ≤ fuel')
    (waiting : List (Ref .thunk)) (t : Ref .thunk) :
    Approximates (forceNow E fuel waiting t) (forceNow E' fuel' waiting t) := by
  induction fuel generalizing fuel' waiting t with
  | zero => exact .cut _
  | succ fuel ih =>
    obtain ⟨k, rfl⟩ := Nat.exists_eq_add_of_lt hle
    have hk := Nat.le_add_right fuel k
    refine .bind (.refl _) fun claimed => ?_
    split
    · exact .refl _
    · next d =>
      refine .bind (.releasing _ (deferredRun_approximates hE hk d)) fun v => ?_
      split
      · exact ih hk _ _
      · exact .refl _

/-- Forcing a thunk has the same outcome with more fuel. -/
theorem forceThunk_approximates {fuel fuel' : Nat} (hle : fuel ≤ fuel') (t : Ref .thunk) :
    Approximates (forceThunk E fuel t) (forceThunk E' fuel' t) := by
  refine .bind (.refl _) fun h => ?_
  split
  · exact .refl _
  · refine .bind (.refl _) fun c => ?_
    split
    · exact forceNow_approximates hE hle [] t
    · exact .refl _

/-- Forcing to the end has the same outcome with more fuel. -/
theorem forceFrom_approximates {fuel fuel' : Nat} (hle : fuel ≤ fuel') (v : Value) :
    Approximates (forceFrom E fuel v) (forceFrom E' fuel' v) := by
  induction fuel generalizing fuel' v with
  | zero => exact .cut _
  | succ fuel ih =>
    obtain ⟨k, rfl⟩ := Nat.exists_eq_add_of_lt hle
    have hk := Nat.le_add_right fuel k
    simp only [forceFrom]
    split
    · exact .bind (forceThunk_approximates hE hk _) fun v => ih hk v
    · exact .refl _

/-- Forcing a value has the same outcome with more fuel. -/
theorem force_approximates {fuel fuel' : Nat} (hle : fuel ≤ fuel') (v : Value) :
    Approximates (force E fuel v) (force E' fuel' v) :=
  .bind (.refl _) fun _ => forceFrom_approximates hE hle v

/-- Calling a value has the same outcome with more fuel. -/
theorem call_approximates {fuel fuel' : Nat} (hle : fuel ≤ fuel') (callee : Value)
    (args : List Value) : Approximates (call E fuel callee args) (call E' fuel' callee args) := by
  refine .bind (force_approximates hE hle callee) fun callee => ?_
  split
  · exact applyFunction_approximates hE hle _ _
  · exact .refl _
  · exact .refl _

/-- Operations with more fuel, on an engine that answers more, answer like those with less. -/
theorem perform_approximates {fuel fuel' : Nat} (hle : fuel ≤ fuel') (o : Operation) :
    Approximates (perform E fuel o) (perform E' fuel' o) := by
  cases o with
  | call callee args => exact call_approximates hE hle callee args
  | _ => exact (Parallel.perform_standard hle (by simp)).approximates (force_approximates hE hle)

end Machine

/-- The engine of a level answers like those of lower levels. -/
theorem engine_approximates {level level' : Nat} (hle : level ≤ level') (o : Operation) :
    Approximates (engine level o) (engine level' o) := by
  induction level generalizing level' o with
  | zero => exact .cut _
  | succ level ih =>
    obtain ⟨k, rfl⟩ := Nat.exists_eq_add_of_lt hle
    exact perform_approximates (ih (Nat.le_add_right level k)) (Nat.le_add_right level k) o

/-- A run of a program at a level answers like those at lower levels. -/
theorem run_approximates {level level' : Nat} (hle : level ≤ level') (m : Machine)
    (program : Program) : Approximates (m.run level program) (m.run level' program) := by
  unfold Machine.run
  split
  · exact .refl _
  · exact .bind (execute_approximates (engine_approximates hle) hle _) fun _ => .refl _

end LazyMachine
