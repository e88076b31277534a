import LazyMachine.Proofs.Flow
import LazyMachine.Proofs.Parallel

/-!
# Disciplines of evaluation

Many properties of evaluations have one shape: on certain worlds to start from, a value leaves a
world in one relation to the world before, and an interrupt in another. Such a property is a
`Discipline`. It is lawful if these relations compose, and if it admits what code does by itself: it
adds objects, fails, counts, runs host code in eager mode, and reports a failure. The rest is done
by the operations that code performs.

So the lemmas below go through the code once for every lawful discipline: if the operations of an
engine keep to it, and host code and foreign values where they do (`Discipline.Hosted`), so do the
binding of arguments, single instructions (`advance_keepsTo`), application, and every operation
(`perform_keepsTo`). In the standard embedding, foreign values are composed of the same steps as
everything else, and so is host code, step by step (`Discipline.LawfulCode`). What a discipline says
of claims on thunks, in driving and forcing them and in the rounds of a machine, is left to the
modules that use it.
-/

namespace LazyMachine

variable {α β : Type}

/-- An interrupt that an evaluation is meant to end with: neither lack of fuel nor a crash. -/
def Interrupt.Regular (i : Interrupt) : Prop :=
  i = .failed ∨ i = .suspended

/-- Running out of fuel is not regular. -/
@[simp]
theorem Interrupt.not_regular_exhausted : ¬ Interrupt.exhausted.Regular := by
  simp [Interrupt.Regular]

/-- A crash is not regular. -/
@[simp]
theorem Interrupt.not_regular_crashed : ¬ Interrupt.crashed.Regular := by
  simp [Interrupt.Regular]

/-- The world with another mode of forcing. -/
def World.inMode (w : World) (mode : ForceMode) : World :=
  { w with context := { w.context with mode } }

/-- The world with another heap. -/
def World.withHeap (w : World) (heap : Heap) : World :=
  { w with heap }

/-- What host code goes on with. -/
inductive HostCode.Continues : HostCode → HostCode → Prop
  | perform {o : Operation} {next : Value → HostCode} (v : Value) :
      Continues (.perform o next) (next v)
  | readVariable {name : String} {next : Value → HostCode} (v : Value) :
      Continues (.readVariable name next) (next v)
  | count {t : Tally} {next : HostCode} : Continues (.count t next) next
  | latch {i : Nat} {next : Bool → HostCode} (b : Bool) : Continues (.latch i next) (next b)
  | makeList {items : List Value} {next : Value → HostCode} (v : Value) :
      Continues (.makeList items next) (next v)
  | makeThunk {body : HostCode} {next : Value → HostCode} (v : Value) :
      Continues (.makeThunk body next) (next v)
  | makeFunction {name : String} {arity : Nat} {body : List Value → HostCode}
      {next : Value → HostCode} (v : Value) :
      Continues (.makeFunction name arity body next) (next v)
  | makeNaturals {first : Int32} {next : Value → HostCode} (v : Value) :
      Continues (.makeNaturals first next) (next v)

/-- What is demanded of evaluations. -/
structure Discipline where
  /-- The worlds on which they start. -/
  start : World → Prop
  /-- What a value leaves. -/
  done : World → World → Prop
  /-- What an interrupt leaves. -/
  stopped : Interrupt → World → World → Prop
  /-- The host code that keeps to it. -/
  code : HostCode → Prop

namespace Discipline

/-- A discipline that composes and admits what code does by itself. -/
class Lawful (D : Discipline) : Prop where
  refl {w : World} : D.start w → D.done w w
  trans {w₁ w₂ w₃ : World} : D.done w₁ w₂ → D.done w₂ w₃ → D.done w₁ w₃
  stop {w₁ w₂ w₃ : World} {i : Interrupt} :
    D.done w₁ w₂ → D.stopped i w₂ w₃ → D.stopped i w₁ w₃
  next {w w' : World} : D.start w → D.done w w' → D.start w'
  /-- Nothing is done on a context that is not live. -/
  dead {w : World} {i : Interrupt} :
    D.start w → w.context.interrupt? = some i → D.stopped i w w
  fail {w : World} (e : RuntimeError) :
    D.start w → D.stopped .failed w { w with context := w.context.fail e }
  /-- Objects other than thunks and functions are added. -/
  grow {w : World} {h : Heap} : D.start w → w.heap.Grows h → h.functions = w.heap.functions →
    D.done w (w.withHeap h)
  /-- A function over a chunk is made. -/
  enclose {w : World} (name : String) (arity : Nat) (program : Program) (chunk : Nat)
    (captures : List Value) : D.start w →
    D.done w (w.withHeap (w.heap.addFunction ⟨name, arity, [], .code program chunk captures⟩).2)
  /-- A function is applied to fewer arguments than it lacks. -/
  curry {w : World} {args : List Value} (f : Ref .function) : D.start w →
    args.length < (w.heap.function f).remaining →
    D.done w (w.withHeap (w.heap.addFunction
      { w.heap.function f with applied := (w.heap.function f).applied ++ args }).2)
  /-- A thunk over a function is made. -/
  delay {w : World} (f : Ref .function) : D.start w →
    D.done w (w.withHeap (w.heap.addThunk (.waiting (.call f))).2)
  /-- Host code of the heap keeps to the discipline. -/
  body {w : World} {f : Ref .function} {code : List Value → HostCode} (args : List Value) :
    D.start w → (w.heap.function f).body = .native code → D.code (code args)
  /-- Host code behind a thunk runs in eager mode, and the mode is set back afterwards. -/
  eager {w : World} : D.start w → D.start (w.inMode .eager)
  eager_done {w w' : World} : D.start w → D.done (w.inMode .eager) w' →
    D.done w (w'.inMode w.context.mode)
  eager_stopped {w w' : World} {i : Interrupt} : D.start w →
    i.Regular → D.stopped i (w.inMode .eager) w' →
    D.stopped i w (w'.inMode w.context.mode)
  /-- What is reported is found out on a fresh context. -/
  aside {w : World} : D.start w → D.start { w with context := {} }
  report {w w' : World} (e : RuntimeError) : D.start w →
    (D.done { w with context := {} } w' ∨ ∃ i, D.stopped i { w with context := {} } w') →
    D.stopped .failed w { w' with context := w.context.fail e }

/-- A lawful discipline that host code keeps to step by step. -/
class LawfulCode (D : Discipline) : Prop extends D.Lawful where
  code_next {code next : HostCode} : D.code code → code.Continues next → D.code next
  code_stop {w : World} {i : Interrupt} : D.start w → D.code (.stop i) →
    i.Regular → D.stopped i w w
  code_count {w : World} {t : Tally} {next : HostCode} : D.start w → D.code (.count t next) →
    D.done w { w with host := w.host.count t }
  code_latch {w : World} (i : Nat) : D.start w →
    D.done w { w with host := w.host.setLatch i }
  code_makeThunk {w : World} {body : HostCode} {next : Value → HostCode} : D.start w →
    D.code (.makeThunk body next) →
    D.done w (w.withHeap (w.heap.addThunk (.waiting (.native body))).2)
  code_makeFunction {w : World} {name : String} {arity : Nat} {body : List Value → HostCode}
    {next : Value → HostCode} : D.start w → D.code (.makeFunction name arity body next) →
    D.done w (w.withHeap (w.heap.addFunction ⟨name, arity, [], .native body⟩).2)
  code_makeNaturals {w : World} {first : Int32} {next : Value → HostCode} : D.start w →
    D.code (.makeNaturals first next) →
    D.done w (w.withHeap (w.heap.addThunk
      (.waiting (.native (.count .runs (.makeNaturals (first + 1) .done))))).2)

end Discipline

/-- The evaluation keeps to a discipline, if its outcome is regular. -/
def Eval.KeepsTo (D : Discipline) (x : Eval α) : Prop :=
  ∀ w, D.start w → Leads x w fun
    | .ok _, w' => D.done w w'
    | .error i, w' => i.Regular → D.stopped i w w'

/-- The step keeps to a discipline, if its outcome is regular, and yields only values with `P`. -/
def Step.KeepsTo (D : Discipline) (P : α → Prop) (x : Step α) : Prop :=
  ∀ w, D.start w → Leads x w fun
    | .ok a, w' => D.done w w' ∧ P a
    | .error (.abort _), w' => D.done w w'
    | .error (.interrupt i), w' => i.Regular → D.stopped i w w'

section Discipline

variable {D : Discipline} [D.Lawful]

open Discipline (Lawful)

/-! ### Composition -/

namespace Eval.KeepsTo

theorem pure (a : α) : (Pure.pure a : Eval α).KeepsTo D :=
  fun _ hw => Lawful.refl hw

omit [D.Lawful] in
theorem cut {i : Interrupt} (hi : ¬ i.Regular) :
    (throw i : Eval α).KeepsTo D :=
  fun _ _ hreg => absurd hreg hi

theorem fail (e : RuntimeError) : (Eval.fail e : Eval α).KeepsTo D :=
  fun _ hw _ => Lawful.fail e hw

theorem heap : Eval.heap.KeepsTo D :=
  fun _ hw => Lawful.refl hw

theorem context : Eval.context.KeepsTo D :=
  fun _ hw => Lawful.refl hw

theorem get : (MonadState.get : Eval World).KeepsTo D :=
  fun _ hw => Lawful.refl hw

omit [D.Lawful] in
theorem onHeap {f : Heap → α × Heap}
    (hf : ∀ w : World, D.start w → D.done w (w.withHeap (f w.heap).2)) :
    (Eval.onHeap f).KeepsTo D :=
  fun w hw => hf w hw

/-- An evaluation goes on from what a value has left. -/
theorem after {x : Eval α} {w w₁ : World} (hx : x.KeepsTo D) (hw : D.start w) (h : D.done w w₁) :
    Leads x w₁ fun
      | .ok _, w' => D.done w w'
      | .error i, w' => i.Regular → D.stopped i w w' := by
  refine (hx w₁ (Lawful.next hw h)).imp fun r w' h' => ?_
  cases r with
  | ok b => exact Lawful.trans h h'
  | error i => exact fun hreg => Lawful.stop h (h' hreg)

/-- The composition of evaluations that keep to it. -/
theorem bind {x : Eval α} {f : α → Eval β} (hx : x.KeepsTo D) (hf : ∀ a, (f a).KeepsTo D) :
    (x >>= f).KeepsTo D := by
  intro w hw
  rw [leads_bind]
  refine (hx w hw).imp fun r w' h => ?_
  cases r with
  | error i => exact h
  | ok a => exact (hf a).after hw h

/-- A context that is not live interrupts before anything is done. -/
theorem ensureLive : Eval.ensureLive.KeepsTo D := by
  intro w hw
  simp only [Eval.ensureLive, leads_bind, leads_context]
  cases hc : w.context.interrupt? with
  | none => exact Lawful.refl hw
  | some i => exact fun _ => Lawful.dead hw hc

/-- Host code that runs in eager mode. -/
theorem withMode {x : Eval α} (hx : x.KeepsTo D) : (withMode .eager x).KeepsTo D := by
  intro w hw
  simp only [LazyMachine.withMode, leads_bind, leads_context, leads_onContext, leads_tryCatch]
  refine (hx (w.inMode .eager) (Lawful.eager hw)).imp fun r w' h => ?_
  cases r with
  | ok a => exact Lawful.eager_done hw h
  | error i => exact fun hreg => Lawful.eager_stopped hw hreg (h hreg)

/-- A failure that reports what an evaluation comes to on a fresh context. -/
theorem report {x : Eval α} (hx : x.KeepsTo D) (e : Except Interrupt α × Context → RuntimeError) :
    (Eval.isolated {} x >>= fun o => (Eval.fail (e o) : Eval β)).KeepsTo D := by
  intro w hw
  rw [leads_bind]
  refine leads_isolated ?_ fun i w' hi hreg => absurd hreg hi
  refine (hx { w with context := {} } (Lawful.aside hw)).imp fun r w' h hreg _ => ?_
  cases r with
  | ok a => exact @Lawful.report D _ w w' _ hw (.inl h)
  | error i => exact @Lawful.report D _ w w' _ hw (.inr ⟨i, h hreg⟩)

end Eval.KeepsTo

/-- What is composed of forces and further steps that keep to a discipline keeps to it. -/
theorem Parallel.keepsTo {extra : Extra} {ev ev' : Evaluator}
    (hforce : ∀ v, (ev.force v).KeepsTo D)
    (hanswer : ∀ {α : Type} {x y : Eval α}, extra.answers x y → x.KeepsTo D) {x y : Eval α}
    (hx : Parallel extra ev ev' x y) : x.KeepsTo D := by
  induction hx with
  | cut | crash => exact .cut (by simp)
  | pure a => exact .pure a
  | fail e => exact .fail e
  | answer h => exact hanswer h
  | live => exact .ensureLive
  | heap => exact .heap
  | add hf hfunctions => exact .onHeap fun w hw => Lawful.grow hw (hf w.heap) (hfunctions w.heap)
  | force v => exact hforce v
  | report e _ ih => exact .report ih e
  | bind _ _ ihx ihf => exact .bind ihx ihf

theorem Parallel.keepsTo_of_forceless {x : Eval α}
    (hx : ∀ ev : Evaluator, Parallel .none ev ev x x) : x.KeepsTo D :=
  -- whatever the evaluator forces, it is not asked to
  (hx .spent).keepsTo (fun _ => .cut (by simp)) False.elim

namespace Step.KeepsTo

variable {P : α → Prop} {Q : β → Prop}

theorem pure {a : α} (ha : P a) : (Pure.pure a : Step α).KeepsTo D P :=
  fun _ hw => ⟨Lawful.refl hw, ha⟩

theorem abort (a : Abort) : (throw (.abort a) : Step α).KeepsTo D P :=
  fun _ hw => Lawful.refl hw

omit [D.Lawful] in
theorem cut {i : Interrupt} (hi : ¬ i.Regular) :
    (throw (.interrupt i) : Step α).KeepsTo D P :=
  fun _ _ hreg => absurd hreg hi

theorem fail (e : RuntimeError) : (Step.ofEval (Eval.fail e : Eval α)).KeepsTo D P :=
  fun _ hw _ => Lawful.fail e hw

omit [D.Lawful] in
/-- An evaluation as a step. -/
theorem ofEval {x : Eval α} (hx : x.KeepsTo D) : (Step.ofEval x).KeepsTo D fun _ => True := by
  intro w hw
  rw [leads_ofEval]
  refine (hx w hw).imp fun r w' h => ?_
  cases r with
  | ok a => exact ⟨h, trivial⟩
  | error i => exact h

/-- The composition of steps that keep to it; the second has what the first yields. -/
theorem bind {x : Step α} {f : α → Step β} (hx : x.KeepsTo D P)
    (hf : ∀ a, P a → (f a).KeepsTo D Q) : (x >>= f).KeepsTo D Q := by
  intro w hw
  rw [leads_bind]
  refine (hx w hw).imp fun r w' h => ?_
  match r with
  | .error (.abort a) => exact h
  | .error (.interrupt i) => exact h
  | .ok a =>
    refine (hf a h.2 w' (Lawful.next hw h.1)).imp fun r w'' h' => ?_
    match r with
    | .ok b => exact ⟨Lawful.trans h.1 h'.1, h'.2⟩
    | .error (.abort a) => exact Lawful.trans h.1 h'
    | .error (.interrupt i) => exact fun hreg => Lawful.stop h.1 (h' hreg)

/-- A step that starts with an evaluation. -/
theorem bindEval {x : Eval α} {f : α → Step β} (hx : x.KeepsTo D)
    (hf : ∀ a, (f a).KeepsTo D Q) : ((Step.ofEval x) >>= f).KeepsTo D Q :=
  (ofEval hx).bind fun a _ => hf a

end Step.KeepsTo

/-- A new thunk is a step on the heap, with a value made of its result. -/
theorem makeThunk_bind (t : Thunk) (f : Value → Eval α) :
    (Eval.makeThunk t >>= f) = (Eval.onHeap (·.addThunk t) >>= fun r => f (.lazy r)) := rfl

/-- The value for a handler is made of new objects. -/
theorem errorValue_keepsTo (e : Option RuntimeError) : (errorValue e).KeepsTo D := by
  refine Parallel.keepsTo_of_forceless fun _ => ?_
  refine .bind (.makeStr _) fun kind => .bind (.makeStr _) fun op => ?_
  refine .bind (.makeStr _) fun message => .bind (.makeRecord _) fun record => ?_
  exact .makeVariant _ record

/-! ### What the host adds -/

/-- The evaluators that foreign values are given with the operations of an engine. -/
inductive Evaluator.From [Embedding] (E : Engine) : Evaluator → Prop
  | perform (fuel : Nat) : From E ⟨fuel, LazyMachine.force E fuel, E⟩
  | bind (fuel : Nat) : From E ⟨fuel, fun v => E (.force v), E⟩

/-- Where the operations of an engine keep to the discipline, so does host code, and so do the
answers of foreign values if what they force does. -/
class Discipline.Hosted [Embedding] (D : Discipline) (E : Engine) : Prop where
  code : (∀ o, (E o).KeepsTo D) → ∀ code, D.code code → (Embedding.run E code).KeepsTo D
  answer {ev : Evaluator} : (∀ o, (E o).KeepsTo D) → ev.From E → (∀ v, (ev.force v).KeepsTo D) →
    ∀ {α : Type} {x y : Eval α}, ForeignAnswers ev ev x y → x.KeepsTo D

open Discipline (LawfulCode Hosted)

omit [D.Lawful] in
/-- Host code keeps to a discipline step by step, if the operations that it performs do. -/
theorem hostCode_keepsTo [D.LawfulCode] {E : Engine} (hE : ∀ o, (E o).KeepsTo D)
    {code : HostCode} (hcode : D.code code) : (code.run E).KeepsTo D := by
  induction code with
  | done v => exact .pure v
  | stop i => exact fun w hw hreg => LawfulCode.code_stop hw hcode hreg
  | fail e => exact .fail e
  | perform o next ih => exact .bind (hE o) fun v => ih v (LawfulCode.code_next hcode (.perform v))
  | readVariable name next ih =>
    exact .bind .get fun _ => ih _ (LawfulCode.code_next hcode (.readVariable _))
  | count t next ih =>
    have hcount : (Eval.onHost (·.count t)).KeepsTo D := fun w hw => LawfulCode.code_count hw hcode
    exact .bind hcount fun _ => ih (LawfulCode.code_next hcode .count)
  | latch i next ih =>
    have hlatch : (Eval.onHost (·.setLatch i)).KeepsTo D := fun w hw => LawfulCode.code_latch i hw
    exact .bind .get fun _ => .bind hlatch fun _ => ih _ (LawfulCode.code_next hcode (.latch _))
  | makeList items next ih =>
    refine .bind (Parallel.keepsTo_of_forceless fun _ => .makeList items) fun v => ?_
    exact ih v (LawfulCode.code_next hcode (.makeList v))
  | makeThunk body next _ ih =>
    -- only the step on the heap is one of the discipline, not the value made of its result
    rw [HostCode.run, makeThunk_bind]
    refine .bind (.onHeap fun w hw => LawfulCode.code_makeThunk hw hcode) fun r => ?_
    exact ih _ (LawfulCode.code_next hcode (.makeThunk _))
  | makeFunction name arity body next _ ih =>
    have hmake : (Eval.makeFunction ⟨name, arity, [], .native body⟩).KeepsTo D :=
      .bind (.onHeap fun w hw => LawfulCode.code_makeFunction hw hcode) fun _ => .pure _
    exact .bind hmake fun v => ih v (LawfulCode.code_next hcode (.makeFunction v))
  | makeNaturals first next ih =>
    rw [HostCode.run, makeThunk_bind]
    refine .bind (.onHeap fun w hw => LawfulCode.code_makeNaturals hw hcode) fun tail => ?_
    refine .bind (Parallel.keepsTo_of_forceless fun _ => .makeCell _ trivial) fun c => ?_
    exact ih _ (LawfulCode.code_next hcode (.makeNaturals _))

/-- In the standard embedding the operations alone have to keep to the discipline. -/
instance {C : Discipline} [C.LawfulCode] {E : Engine} : C.Hosted E where
  code hE _ hcode := hostCode_keepsTo hE hcode
  answer _ _ hforce _ _ _ h :=
    have hparallel : Parallel .none _ _ _ _ := Parallel.answered (Nat.le_refl _) h
    hparallel.keepsTo hforce False.elim

section Engine

variable [Embedding] {E : Engine} [D.Hosted E] (hE : ∀ o, (E o).KeepsTo D)

include hE

/-! ### Binding -/

omit [Embedding] [D.Hosted E] in
/-- Forcing one value after the other. -/
theorem forceAll_keepsTo (vs : List Value) : (forceAll E vs).KeepsTo D := by
  induction vs with
  | nil => exact .pure _
  | cons v vs ih => exact .bind (hE _) fun _ => .bind ih fun _ => .pure _

omit [Embedding] [D.Hosted E] in
/-- Selecting a clause comes down to forces. -/
theorem select_keepsTo (t : OverloadTable) (args : List Value) :
    (t.select E args).KeepsTo D := by
  refine .bind (forceAll_keepsTo hE args) fun forced => ?_
  split
  · exact .pure _
  · exact .fail _

/-- Binding runs host code, makes partial applications and selects clauses. -/
theorem bind_keepsTo (fuel : Nat) (f : Ref .function) (args : List Value) :
    (bind E fuel f args).KeepsTo D := by
  induction fuel generalizing f args with
  | zero => exact .cut (by simp)
  | succ fuel ih =>
    -- from here on the world is fixed: the function is the one that its heap has
    refine .bind .ensureLive fun _ w hw => ?_
    simp only [leads_bind, leads_heap]
    split
    · next hlt =>
      split
      · exact Eval.KeepsTo.pure _ w hw
      · exact Lawful.curry f hw hlt
    · split
      · next hbody =>
        refine Eval.KeepsTo.bind (Hosted.code hE _ ?_) (fun _ => .pure _) w hw
        exact Lawful.body _ hw hbody
      · exact Eval.KeepsTo.pure _ w hw
      · refine Eval.KeepsTo.bind (select_keepsTo hE _ _) (fun selected => ?_) w hw
        exact .bind (ih _ _) fun _ => .pure _

/-- What a thunk defers is bound, in eager mode if it is host code. -/
theorem deferredBind_keepsTo (fuel : Nat) {d : Deferred}
    (hd : ∀ code, d = .native code → D.code code) : (d.bind E fuel).KeepsTo D := by
  cases d with
  | native code => exact .bind (Hosted.code hE code (hd code rfl)).withMode fun _ => .pure _
  | call f => exact bind_keepsTo hE fuel f []

/-- A foreign value answers in place of a function. -/
theorem bindValue_keepsTo (fuel : Nat) (callee : Value) (args : List Value) :
    (bindValue E fuel callee args).KeepsTo D := by
  unfold bindValue
  split
  · exact bind_keepsTo hE fuel _ _
  · exact .bind (Hosted.answer hE (.bind fuel) (fun v => hE _) (.call _ _)) fun _ => .pure _
  · exact .fail _

/-! ### Instructions -/

omit [Embedding] hE in
/-- Taking operands off the stack changes nothing else. -/
theorem operands_keepsTo (f : Frame) (n : Nat) : (f.operands n).KeepsTo D fun _ => True := by
  unfold Frame.operands
  split
  · exact .pure trivial
  · exact .abort _

omit [Embedding] hE in
/-- A number that the host cannot count to ends the step irregularly. -/
theorem increment_keepsTo (bound n : Nat) : (increment bound n).KeepsTo D fun _ => True := by
  unfold increment
  split
  · exact .pure trivial
  · exact .cut (by simp)

omit [Embedding] hE in
/-- What an application comes to is pushed, or entered as a new frame. -/
theorem receive_keepsTo (f : Frame) (base : List Value) (a : Application) :
    (f.receive base a).KeepsTo D fun r =>
      r.1.control = f.control ∧ ∀ callee ∈ r.2, callee.Entered := by
  unfold Frame.receive
  split
  · exact .pure ⟨f.control_pushResult base _ _, by simp⟩
  · split
    · next callee hcallee =>
      refine .pure ⟨rfl, ?_⟩
      rintro _ ⟨⟩
      exact ⟨Frame.started_of_enter? hcallee, _, Frame.kind_of_enter? hcallee⟩
    · exact .abort _

/-- A call leaves the position of its frame. -/
theorem apply_keepsTo (fuel : Nat) (f : Frame) (count : Nat) :
    (f.apply E fuel count).KeepsTo D fun r =>
      r.1.control = f.control ∧ ∀ callee ∈ r.2, callee.Entered := by
  refine .bind (increment_keepsTo _ count) fun need _ => ?_
  refine .bind (operands_keepsTo f need) fun (slots, base) _ => ?_
  dsimp only
  split
  · exact .abort _
  · refine .bindEval (hE _) fun callee => ?_
    exact .bindEval (bindValue_keepsTo hE fuel callee _) fun a => receive_keepsTo f base a

omit [Embedding] hE in
/-- Captures are put into a new function. -/
theorem capture_keepsTo (f : Frame) (chunk captures : Nat) :
    (f.capture chunk captures).KeepsTo D fun _ => True := by
  refine .bind (operands_keepsTo f captures) fun (values, base) _ => ?_
  dsimp only
  split
  · exact .bindEval (.onHeap fun w hw => Lawful.enclose _ _ _ _ _ hw) fun g => .pure trivial
  · exact .abort _

omit [Embedding] [D.Hosted E] in
/-- An operation on the top of the stack goes on to the next instruction. -/
theorem onTop_keepsTo {f : Frame} {instr : Instr} (hinstr : f.Executes instr)
    (hhandlers : f.handlersAfter instr = f.handlers) (o : Value → Operation) :
    (f.onTop E o).KeepsTo D (Flow.Follows f) := by
  unfold Frame.onTop
  split
  · exact .bindEval (hE _) fun v => .pure (.next hinstr (by rw [hhandlers]; rfl))
  · exact .abort _

omit [Embedding] [D.Hosted E] in
/-- So does one on the topmost two. -/
theorem onTwo_keepsTo {f : Frame} {instr : Instr} (hinstr : f.Executes instr)
    (hhandlers : f.handlersAfter instr = f.handlers) (o : Value → Value → Operation) :
    (f.onTwo E o).KeepsTo D (Flow.Follows f) := by
  unfold Frame.onTwo
  split
  · exact .bindEval (hE _) fun v => .pure (.next hinstr (by rw [hhandlers]; rfl))
  · exact .abort _

/-- An instruction goes on in its frame, next to it or where it says. -/
theorem step_keepsTo (fuel : Nat) {f : Frame} {instr : Instr} (hinstr : f.Executes instr) :
    (f.step E fuel instr).KeepsTo D (Flow.Follows f) := by
  have forceless {α : Type} {x : Eval α} (hx : ∀ ev : Evaluator, Parallel .none ev ev x x) :
      x.KeepsTo D := Parallel.keepsTo_of_forceless hx
  cases instr with
  | push literal =>
    exact .bindEval (forceless fun _ => .literal literal) fun v => .pure (.next hinstr rfl)
  | load | pop | dup | swap =>
    dsimp only [Frame.step]
    split
    · exact .pure (.next hinstr rfl)
    · exact .abort _
  | store slot =>
    dsimp only [Frame.step]
    split
    · split
      · exact .bind (increment_keepsTo _ slot) fun _ _ => .pure (.next hinstr rfl)
      · exact .pure (.next hinstr rfl)
    · exact .abort _
  | binary | index | cons => exact onTwo_keepsTo hE hinstr rfl _
  | unary | length | head | tail | isNil | empty | tag | untag | convert | force =>
    exact onTop_keepsTo hE hinstr rfl _
  | render => exact .bindEval .context fun c => onTop_keepsTo hE hinstr rfl _
  | setIndex =>
    dsimp only [Frame.step]
    split
    · exact .bindEval (hE _) fun v => .pure (.next hinstr rfl)
    · exact .abort _
  | makeList count =>
    refine .bind (operands_keepsTo f count) fun (items, base) _ => ?_
    exact .bindEval (forceless fun _ => .makeList items) fun v => .pure (.next hinstr rfl)
  | makeRecord names =>
    refine .bind (operands_keepsTo f names.length) fun (items, base) _ => ?_
    exact .bindEval (forceless fun _ => .makeRecord _) fun v => .pure (.next hinstr rfl)
  | makeVariant tag =>
    dsimp only [Frame.step]
    split
    · exact .bindEval (forceless fun _ => .makeVariant tag _) fun v => .pure (.next hinstr rfl)
    · exact .abort _
  | delay chunk captures =>
    refine .bind (capture_keepsTo f chunk captures) fun (g, base) _ => ?_
    have hdelay : (Eval.makeThunk (.waiting (.call g))).KeepsTo D :=
      .bind (.onHeap fun w hw => Lawful.delay g hw) fun _ => .pure _
    exact .bindEval hdelay fun v => .pure (.next hinstr rfl)
  | closure chunk captures =>
    exact .bind (capture_keepsTo f chunk captures) fun (g, base) _ => .pure (.next hinstr rfl)
  | call count =>
    refine .bind (apply_keepsTo hE fuel f count) fun (caller, callee) h => ?_
    cases callee with
    | none => exact .pure (.next hinstr h.1)
    | some callee =>
      have hcaller := congrArg (fun c => (c.1, c.2.1 + 1, c.2.2)) h.1
      exact .pure (.call hinstr hcaller (h.2 callee rfl))
  | jump target => exact .pure (.jump (.inl hinstr) rfl)
  | jumpIfFalse target =>
    dsimp only [Frame.step]
    split
    · refine .bindEval (hE _) fun v => ?_
      split
      · exact .pure (.next hinstr rfl)
      · exact .pure (.jump (.inr hinstr) rfl)
      · exact .fail _
    · exact .abort _
  | attempt | endAttempt => exact .pure (.next hinstr rfl)
  | ret => exact .pure (.leave _)

/-- The same of whatever the frame does next. -/
theorem advance_keepsTo (fuel : Nat) (f : Frame) :
    (f.advance E fuel).KeepsTo D (Flow.Follows f) := by
  unfold Frame.advance
  split
  · next count hcount =>
    have hpending : f.pendingCall ≠ none := by simp [hcount]
    refine .bind (apply_keepsTo hE fuel _ _) fun (caller, callee) h => ?_
    cases callee with
    | none => exact .pure (.stay hpending h.1)
    | some callee => exact .pure (.pending hpending h.1 (h.2 callee rfl))
  · next hpending =>
    split
    · next instr hinstr => exact step_keepsTo hE fuel ⟨hpending, hinstr⟩
    · exact .pure (.leave _)

/-! ### Application -/

section Application

variable (hinvoke : ∀ fuel program chunk locals,
  (invokeChunk E fuel program chunk locals).KeepsTo D)

include hinvoke

/-- Applications follow each other as long as arguments are left. -/
theorem applyFrom_keepsTo (fuel : Nat) (a : Application) : (applyFrom E fuel a).KeepsTo D := by
  induction fuel generalizing a with
  | zero => exact .cut (by simp)
  | succ fuel ih =>
    have hcomplete : (a.complete E fuel).KeepsTo D := by
      cases a with
      | value v rest => exact .pure _
      | enter program chunk locals rest =>
        exact .bind (hinvoke fuel program chunk locals) fun _ => .pure _
    refine .bind hcomplete fun (v, rest) => ?_
    dsimp only
    split
    · exact .pure _
    · refine .bind (hE _) fun callee => ?_
      exact .bind (bindValue_keepsTo hE fuel callee rest) fun a => ih a

/-- Application is binding and what follows it. -/
theorem applyFunction_keepsTo (fuel : Nat) (f : Ref .function) (args : List Value) :
    (applyFunction E fuel f args).KeepsTo D :=
  .bind (bind_keepsTo hE fuel f args) fun a => applyFrom_keepsTo hE hinvoke fuel a

/-- What a thunk defers is run to its end. -/
theorem deferredRun_keepsTo (fuel : Nat) {d : Deferred}
    (hd : ∀ code, d = .native code → D.code code) : (d.run E fuel).KeepsTo D := by
  cases d with
  | native code => exact (Hosted.code hE code (hd code rfl)).withMode
  | call f => exact applyFunction_keepsTo hE hinvoke fuel f []

end Application

/-! ### Operations -/

omit [D.Hosted E] hE in
/-- Forcing goes on thunk by thunk. -/
theorem force_keepsTo (hthunk : ∀ fuel t, (forceThunk E fuel t).KeepsTo D) (fuel : Nat)
    (v : Value) : (force E fuel v).KeepsTo D := by
  have hfrom : (forceFrom E fuel v).KeepsTo D := by
    induction fuel generalizing v with
    | zero => exact .cut (by simp)
    | succ fuel ih =>
      unfold forceFrom
      split
      · exact .bind (hthunk fuel _) fun v => ih v
      · exact .pure _
  exact .bind .ensureLive fun _ => hfrom

/-- Every operation comes down to the runs of code and the forces of thunks in it. -/
theorem perform_keepsTo (hthunk : ∀ fuel t, (forceThunk E fuel t).KeepsTo D)
    (hinvoke : ∀ fuel program chunk locals, (invokeChunk E fuel program chunk locals).KeepsTo D)
    (fuel : Nat) (o : Operation) : (perform E fuel o).KeepsTo D := by
  cases o with
  | call callee args =>
    refine .bind (force_keepsTo hthunk fuel callee) fun v => ?_
    split
    · exact applyFunction_keepsTo hE hinvoke fuel _ args
    · exact Hosted.answer hE (.perform fuel) (force_keepsTo hthunk fuel) (.call _ args)
    · exact .fail _
  | _ =>
    -- all other operations are in the catalogue of compositions
    let ev : Evaluator := ⟨fuel, force E fuel, E⟩
    have hanswers := @Parallel.answering_steps ev ev _ True
    refine (@Parallel.perform _ _ E E fuel fuel hanswers (Nat.le_refl fuel) _ (fun _ => trivial)
      (by simp)).keepsTo (force_keepsTo hthunk fuel) fun h => ?_
    exact Hosted.answer hE (.perform fuel) (force_keepsTo hthunk fuel) h

end Engine

end Discipline

end LazyMachine
