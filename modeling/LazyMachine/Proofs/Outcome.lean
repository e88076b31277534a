import LazyMachine.Boundary
import Mathlib.Data.List.Forall2
import Mathlib.Logic.Relation
import Mathlib.Tactic.Common

/-!
# Outcomes of evaluations

An evaluation maps a world to an outcome and a world. This module reads that map off the way in
which evaluations are composed:

* `Leads x w Q` says that the outcome of `x` on `w` and the world after it satisfy `Q`. It has one
  equation for each way to compose evaluations, so that a property of a composed evaluation comes
  down to properties of its parts.
* `Regular r` says that `r` is an outcome that an evaluation is meant to have: a value, a failure or
  a suspension, but neither lack of fuel nor a crash.
* `Eval.Preserves R x` says that `x` relates the heaps before and after it by `R` whenever its
  outcome is regular. For a reflexive and transitive `R` it passes from the parts to the whole.
-/

namespace LazyMachine

variable {ε α β : Type}

/-- The outcome of `x` on the world `w`, with the world after it, satisfies `Q`. -/
def Leads (x : EStateM ε World α) (w : World) (Q : Except ε α → World → Prop) : Prop :=
  match x w with
  | .ok a w' => Q (.ok a) w'
  | .error e w' => Q (.error e) w'

namespace Leads

variable {x : EStateM ε World α} {w w' : World} {Q Q' : Except ε α → World → Prop}

theorem imp (h : Leads x w Q) (hQ : ∀ r w', Q r w' → Q' r w') : Leads x w Q' := by
  unfold Leads at *
  split <;> simp_all

/-- An outcome that satisfies two conditions satisfies both together. -/
theorem and (h : Leads x w Q) (h' : Leads x w Q') : Leads x w fun r w' => Q r w' ∧ Q' r w' := by
  unfold Leads at *
  split <;> simp_all

/-- An evaluation has some outcome, so what follows from every one that it may have holds. -/
theorem elim {p : Prop} (h : Leads x w Q) (hp : ∀ r w', Q r w' → p) : p := by
  unfold Leads at h
  split at h
  · exact hp _ _ h
  · exact hp _ _ h

/-- What `x` leads to holds of a value that it yields. -/
theorem of_ok {a : α} (h : Leads x w Q) (hx : x w = .ok a w') : Q (.ok a) w' := by
  unfold Leads at h
  rwa [hx] at h

/-- What `x` leads to holds of an interrupt that ends it. -/
theorem of_error {e : ε} (h : Leads x w Q) (hx : x w = .error e w') : Q (.error e) w' := by
  unfold Leads at h
  rwa [hx] at h

/-- An evaluation leads to whatever holds of its value and of its interrupt. -/
theorem intro (hok : ∀ a w', x w = .ok a w' → Q (.ok a) w')
    (herror : ∀ e w', x w = .error e w' → Q (.error e) w') : Leads x w Q := by
  unfold Leads
  split
  next a w' h => exact hok a w' h
  next e w' h => exact herror e w' h

/-- The outcome is the value found. -/
theorem of_eq_ok {a : α} (hx : x w = .ok a w') (h : Q (.ok a) w') : Leads x w Q := by
  unfold Leads
  rwa [hx]

/-- The outcome is the interrupt raised. -/
theorem of_eq_error {e : ε} (hx : x w = .error e w') (h : Q (.error e) w') : Leads x w Q := by
  unfold Leads
  rwa [hx]

theorem of_eq {y : EStateM ε World α} (h : Leads y w' Q) (hxy : x w = y w') : Leads x w Q := by
  unfold Leads at *
  rwa [hxy]

/-- An evaluation that leads to one value and one world only. -/
theorem eq_ok {a : α} (h : Leads x w fun r w'' => r = .ok a ∧ w'' = w') : x w = .ok a w' := by
  unfold Leads at h
  split at h
  · next hx =>
    obtain ⟨⟨⟩, rfl⟩ := h
    exact hx
  · exact nomatch h.1

end Leads

section Composition

variable {w : World}

/-- A constant leads to itself in the same world. -/
@[simp]
theorem leads_pure {a : α} {Q : Except ε α → World → Prop} :
    Leads (pure a) w Q ↔ Q (.ok a) w := Iff.rfl

/-- Raising an interrupt leads to it in the same world. -/
@[simp]
theorem leads_throw {e : ε} {Q : Except ε α → World → Prop} :
    Leads (throw e) w Q ↔ Q (.error e) w := Iff.rfl

/-- A composed evaluation goes on with the second part if the first yields a value, and otherwise
ends with the interrupt of the first. -/
@[simp]
theorem leads_bind {x : EStateM ε World α} {f : α → EStateM ε World β}
    {Q : Except ε β → World → Prop} :
    Leads (x >>= f) w Q ↔ Leads x w fun
      | .ok a, w' => Leads (f a) w' Q
      | .error e, w' => Q (.error e) w' := by
  simp only [Leads, Bind.bind, EStateM.bind]
  cases x w <;> rfl

/-- A handler takes over wherever the evaluation is interrupted. -/
@[simp]
theorem leads_tryCatch {x : EStateM ε World α} {f : ε → EStateM ε World α}
    {Q : Except ε α → World → Prop} :
    Leads (tryCatch x f) w Q ↔ Leads x w fun
      | .ok a, w' => Q (.ok a) w'
      | .error e, w' => Leads (f e) w' Q := by
  simp only [Leads, tryCatch, tryCatchThe, MonadExceptOf.tryCatch, EStateM.tryCatch,
    EStateM.Backtrackable.restore, EStateM.dummyRestore]
  cases x w <;> rfl

/-- Looking at the heap leads to the heap. -/
@[simp]
theorem leads_heap {Q : Except Interrupt Heap → World → Prop} :
    Leads Eval.heap w Q ↔ Q (.ok w.heap) w := Iff.rfl

/-- Looking at the context leads to the context. -/
@[simp]
theorem leads_context {Q : Except Interrupt Context → World → Prop} :
    Leads Eval.context w Q ↔ Q (.ok w.context) w := Iff.rfl

/-- A change of the heap leads to the changed heap. -/
@[simp]
theorem leads_onHeap {f : Heap → α × Heap} {Q : Except Interrupt α → World → Prop} :
    Leads (Eval.onHeap f) w Q ↔ Q (.ok (f w.heap).1) { w with heap := (f w.heap).2 } := Iff.rfl

/-- A change of the context leads to the changed context. -/
@[simp]
theorem leads_onContext {f : Context → Context} {Q : Except Interrupt Unit → World → Prop} :
    Leads (Eval.onContext f) w Q ↔ Q (.ok ()) { w with context := f w.context } := Iff.rfl

/-- Counting leads to one instruction more. -/
@[simp]
theorem leads_countInstruction {Q : Except Interrupt Unit → World → Prop} :
    Leads Eval.countInstruction w Q ↔ Q (.ok ()) { w with executed := w.executed + 1 } := Iff.rfl

/-- A failure is raised after it was recorded. -/
@[simp]
theorem leads_fail {e : RuntimeError} {Q : Except Interrupt α → World → Prop} :
    Leads (Eval.fail e) w Q ↔ Q (.error .failed) { w with context := w.context.fail e } := Iff.rfl

/-- A suspension is raised after it was recorded. -/
@[simp]
theorem leads_suspend {t : Ref .thunk} {Q : Except Interrupt α → World → Prop} :
    Leads (Eval.suspend t) w Q ↔
      Q (.error .suspended) { w with context := w.context.suspend t } := Iff.rfl

/-- The lift of the monad is the step made of an evaluation. -/
@[simp]
theorem Step.liftM_eq_ofEval (x : Eval α) : (liftM x : Step α) = Step.ofEval x := rfl

/-- An evaluation as a step of the machine ends with the same interrupt. -/
@[simp]
theorem leads_ofEval {x : Eval α} {Q : Except Stop α → World → Prop} :
    Leads (Step.ofEval x) w Q ↔ Leads x w fun
      | .ok a, w' => Q (.ok a) w'
      | .error i, w' => Q (.error (.interrupt i)) w' := by
  simp only [Leads, Step.ofEval]
  cases x w <;> rfl

end Composition

/-! ### Outcomes as equations -/

section Equations

variable {w w₁ : World}

/-- After a value the continuation runs in the world reached. -/
theorem bind_ok {x : EStateM ε World α} {f : α → EStateM ε World β} {a : α}
    (hx : x w = .ok a w₁) : (x >>= f) w = f a w₁ := by
  simp only [Bind.bind, EStateM.bind, hx]

/-- Evaluations that agree in a world may be exchanged in front of a continuation. -/
theorem bind_eq_bind {x y : EStateM ε World α} {f : α → EStateM ε World β}
    (h : x w = y w₁) : (x >>= f) w = (y >>= f) w₁ := by
  simp only [Bind.bind, EStateM.bind, h]

/-- An interrupt ends a sequence. -/
theorem bind_error {x : EStateM ε World α} {f : α → EStateM ε World β} {e : ε}
    (hx : x w = .error e w₁) : (x >>= f) w = .error e w₁ := by
  simp only [Bind.bind, EStateM.bind, hx]

/-- A composed evaluation that yields a value does so in two parts. -/
theorem of_bind_ok {x : EStateM ε World α} {f : α → EStateM ε World β} {b : β}
    (h : (x >>= f) w = .ok b w₁) : ∃ a w₂, x w = .ok a w₂ ∧ f a w₂ = .ok b w₁ := by
  simp only [Bind.bind, EStateM.bind] at h
  cases hx : x w with
  | ok a w₂ =>
    rw [hx] at h
    exact ⟨a, w₂, rfl, h⟩
  | error e w₂ =>
    rw [hx] at h
    cases h

/-- Reading the heap leaves the world as it is. -/
theorem Eval.heap_apply (w : World) : Eval.heap w = .ok w.heap w :=
  rfl

theorem Eval.context_apply (w : World) : Eval.context w = .ok w.context w :=
  rfl

/-- A change of the context changes nothing else. -/
theorem Eval.onContext_apply (f : Context → Context) (w : World) :
    Eval.onContext f w = .ok () { w with context := f w.context } :=
  rfl

/-- On a live context the entry check changes nothing. -/
theorem Eval.ensureLive_ok (hlive : w.context.interrupt? = none) :
    Eval.ensureLive w = .ok () w := by
  rw [Eval.ensureLive, bind_ok (Eval.context_apply w), hlive]
  rfl

/-- A value found on a context of its own is found next to the present one. -/
theorem Eval.isolated_ok {own : Context} {x : Eval α} {a : α}
    (hx : x { w with context := own } = .ok a w₁) :
    Eval.isolated own x w = .ok (.ok a, w₁.context) { w₁ with context := w.context } := by
  simp only [Eval.isolated, hx]

/-- Where following forced thunks comes to an end, that is the value behind them. -/
theorem Heap.resolve_of_resolve? {h : Heap} {v u : Value} (hu : h.resolve? v = some u) :
    h.resolve v = u ∧ ∀ t, u = .lazy t → h.memo? t = none := by
  unfold resolve? at hu
  split at hu
  · next t ht =>
    split at hu
    · cases hu
    · next hmemo =>
      cases hu
      refine ⟨ht, ?_⟩
      rintro _ ⟨⟩
      simpa using hmemo
  · next hlazy =>
    cases hu
    exact ⟨rfl, fun t ht => absurd ht (hlazy t)⟩

/-- They come to an end at a value that is not lazy, -/
theorem Heap.resolve?_of_evaluated {h : Heap} {v : Value} (hv : (h.resolve v).isLazy = false) :
    h.resolve? v = some (h.resolve v) := by
  unfold resolve?
  split
  · next hlazy => rw [hlazy] at hv; cases hv
  · rfl

/-- at once if the value itself is not lazy, -/
theorem Heap.resolve?_of_not_lazy {h : Heap} {v : Value} (hv : v.isLazy = false) :
    h.resolve? v = some v := by
  cases v <;> first | rfl | cases hv

/-- and at a thunk without a value. -/
theorem Heap.resolve?_of_memo?_eq_none {h : Heap} {v : Value} {t : Ref .thunk}
    (hv : h.resolve v = .lazy t) (ht : h.memo? t = none) : h.resolve? v = some (.lazy t) := by
  rw [resolve?, hv]
  simp [ht]

/-- A look for something leads to it, or to lack of fuel if there is none. -/
@[simp]
theorem leads_find {f : Heap → Option α} {Q : Except Interrupt α → World → Prop} :
    Leads (Eval.find f) w Q ↔
      match f w.heap with
      | some a => Q (.ok a) w
      | none => Q (.error .exhausted) w := by
  rw [Eval.find, leads_bind, leads_heap]
  dsimp only
  cases f w.heap <;> rfl

/-- What starts with resolving a value goes on with the value behind forced thunks, unless there is
no end to them. -/
theorem leads_resolve_bind {v : Value} {f : Value → Eval α} {Q : Except Interrupt α → World → Prop}
    (hcut : Q (.error .exhausted) w)
    (hf : ∀ u, w.heap.resolve? v = some u → Leads (f u) w Q) :
    Leads (Eval.resolve v >>= f) w Q := by
  rw [leads_bind, Eval.resolve, leads_find]
  split
  · next u hu => exact hf u hu
  · exact hcut

/-- What is there is found without a change of the world. -/
theorem Eval.find_ok {f : Heap → Option α} {a : α} (hf : f w.heap = some a) :
    Eval.find f w = .ok a w := by
  rw [find, bind_ok (heap_apply w), hf]
  rfl

/-- Looking for what is not there does not end. -/
theorem Eval.find_error {f : Heap → Option α} (hf : f w.heap = none) :
    Eval.find f w = .error .exhausted w := by
  rw [find, bind_ok (heap_apply w), hf]
  rfl

/-- Following memos to their end changes nothing. -/
theorem Eval.resolve_ok {v u : Value} (hu : w.heap.resolve? v = some u) :
    Eval.resolve v w = .ok u w :=
  find_ok hu

/-- Forcing a lazy value comes to the value of its thunk, if it has one. -/
theorem forceFrom_lazy (E : Engine) (fuel : Nat) {t : Ref .thunk} {v : Value}
    (hmemo : w.heap.memo? t = some v) :
    forceFrom E (fuel + 1) (.lazy t) w = forceFrom E fuel v w := by
  have hforce : forceThunk E fuel t w = .ok v w := by
    rw [forceThunk, bind_ok (Eval.heap_apply w), hmemo]
    rfl
  exact bind_ok hforce

/-- A value that is not lazy is forced by itself. -/
theorem forceFrom_of_not_lazy (E : Engine) (fuel : Nat) {v : Value} (hv : v.isLazy = false) :
    forceFrom E (fuel + 1) v = Pure.pure v := by
  cases v <;> first | rfl | cases hv

/-- A step made of an evaluation yields its value. -/
theorem Step.ofEval_ok {y : Eval α} {a : α} (hy : y w = .ok a w₁) :
    Step.ofEval y w = .ok a w₁ := by
  rw [Step.ofEval, hy]

/-- A step made of an evaluation stops with its interrupt. -/
theorem Step.ofEval_error {y : Eval α} {i : Interrupt} (hy : y w = .error i w₁) :
    Step.ofEval y w = .error (.interrupt i) w₁ := by
  rw [Step.ofEval, hy]

/-- Steps made of a sequence are a sequence of steps. -/
theorem Step.ofEval_bind {y : Eval α} {f : α → Eval β} :
    Step.ofEval (y >>= f) = Step.ofEval y >>= fun a => Step.ofEval (f a) := by
  funext w
  simp only [Step.ofEval, Bind.bind, EStateM.bind]
  cases y w <;> rfl

end Equations

/-- An outcome that an evaluation is meant to have: neither lack of fuel nor a crash. -/
def Regular : Except Interrupt α → Prop
  | .ok _ => True
  | .error i => i = .failed ∨ i = .suspended

/-- A value is a regular outcome. -/
@[simp]
theorem regular_ok (a : α) : Regular (.ok a) := trivial

/-- A failure is a regular outcome. -/
@[simp]
theorem regular_failed : Regular (.error .failed : Except Interrupt α) := .inl rfl

/-- A suspension is a regular outcome. -/
@[simp]
theorem regular_suspended : Regular (.error .suspended : Except Interrupt α) := .inr rfl

/-- Lack of fuel is not regular. -/
@[simp]
theorem not_regular_exhausted : ¬ Regular (.error .exhausted : Except Interrupt α) := by
  simp [Regular]

/-- A crash is not regular. -/
@[simp]
theorem not_regular_crashed : ¬ Regular (.error .crashed : Except Interrupt α) := by
  simp [Regular]

/-- A context is not live because of a failure or of a suspension. -/
theorem Context.interrupt?_regular {c : Context} {i : Interrupt} (h : c.interrupt? = some i) :
    i = .failed ∨ i = .suspended := by
  unfold Context.interrupt? at h
  split at h
  · cases h
  · split at h
    · exact .inl (Option.some.inj h).symm
    · exact .inr (Option.some.inj h).symm

/-- The regular ends of a step: aborts, failures and suspensions. -/
def Stop.Regular : Stop → Prop
  | .abort _ => True
  | .interrupt i => i = .failed ∨ i = .suspended

/-- An outcome that a step is meant to have. -/
def Step.Regular : Except Stop α → Prop
  | .ok _ => True
  | .error stop => stop.Regular

section Outcome

variable {x : Step α} {w w₁ : World}

/-- The outcome of a step that yields a value is the value. -/
theorem Step.outcome_ok {a : α} (hx : x w = .ok a w₁) : x.outcome w = .ok (.ok a) w₁ := by
  rw [Step.outcome, hx]

/-- The outcome of a step that stops regularly is the stop. -/
theorem Step.outcome_stop {stop : Stop} (hx : x w = .error stop w₁) (hstop : stop.Regular) :
    x.outcome w = .ok (.error stop) w₁ := by
  rw [Step.outcome, hx]
  cases stop with
  | abort a => rfl
  | interrupt i => rcases hstop with rfl | rfl <;> rfl

/-- Lack of fuel and crashes are no outcome of a step but interrupts. -/
theorem Step.outcome_cut {i : Interrupt} (hx : x w = .error (.interrupt i) w₁)
    (hi : ¬ Stop.Regular (.interrupt i)) : x.outcome w = .error i w₁ := by
  rw [Step.outcome, hx]
  cases i with
  | failed => exact absurd (.inl rfl) hi
  | suspended => exact absurd (.inr rfl) hi
  | _ => rfl

end Outcome

/-- What the outcome of a step is good for is shown for its regular outcomes only: lack of fuel and
crashes end the evaluation that asks for it. -/
theorem leads_outcome {x : Step α} {w : World} {Q : Except Interrupt (Except Stop α) → World → Prop}
    (hx : Leads x w fun r w' => Step.Regular r → Q (.ok r) w')
    (hcut : ∀ i w', ¬ Regular (.error i : Except Interrupt α) → Q (.error i) w') :
    Leads x.outcome w Q := by
  simp only [Leads, Step.outcome] at *
  cases h : x w with
  | ok a w' =>
    rw [h] at hx
    exact hx trivial
  | error s w' =>
    rw [h] at hx
    cases s with
    | abort a => exact hx trivial
    | interrupt i =>
      cases i with
      | failed => exact hx (.inl rfl)
      | suspended => exact hx (.inr rfl)
      | exhausted => exact hcut _ _ (by simp)
      | crashed => exact hcut _ _ (by simp)

/-- Running an evaluation on a context of its own leaves the present context and turns failures and
suspensions into values. -/
theorem leads_isolated {c : Context} {x : Eval α} {w : World}
    {Q : Except Interrupt (Except Interrupt α × Context) → World → Prop}
    (hx : Leads x { w with context := c } fun r w' =>
      Regular r → Q (.ok (r, w'.context)) { w' with context := w.context })
    (hcut : ∀ i w', ¬ Regular (.error i : Except Interrupt α) → Q (.error i) w') :
    Leads (Eval.isolated c x) w Q := by
  simp only [Leads, Eval.isolated] at *
  cases h : x { w with context := c } with
  | ok a w' =>
    rw [h] at hx
    exact hx trivial
  | error i w' =>
    rw [h] at hx
    cases i with
    | failed => exact hx (.inl rfl)
    | suspended => exact hx (.inr rfl)
    | exhausted => exact hcut _ _ (by simp)
    | crashed => exact hcut _ _ (by simp)

/-- `x` relates the heaps before and after it by `R`, if its outcome is regular. -/
def Eval.Preserves (R : Heap → Heap → Prop) (x : Eval α) : Prop :=
  ∀ w, Leads x w fun r w' => Regular r → R w.heap w'.heap

namespace Eval.Preserves

variable {R : Heap → Heap → Prop} [IsPreorder Heap R]

theorem of_eq {x : Eval α} (hx : ∀ w, Leads x w fun _ w' => w'.heap = w.heap) : x.Preserves R := by
  intro w
  refine (hx w).imp fun r w' hw _ => ?_
  rw [hw]
  exact refl_of R _

theorem pure (a : α) : (Pure.pure a : Eval α).Preserves R := .of_eq fun _ => by simp

theorem throw (i : Interrupt) : (MonadExcept.throw i : Eval α).Preserves R :=
  .of_eq fun _ => by simp

/-- A suspension is recorded in the context only. -/
theorem suspend (t : Ref .thunk) : (Eval.suspend t : Eval α).Preserves R := .of_eq fun _ => by simp

theorem heap : Eval.heap.Preserves R := .of_eq fun _ => by simp

theorem context : Eval.context.Preserves R := .of_eq fun _ => by simp

/-- Looking for something on the heap does not change it. -/
theorem find {f : Heap → Option α} : (Eval.find f).Preserves R :=
  .of_eq fun w => by rw [leads_find]; split <;> rfl

theorem onContext (f : Context → Context) : (Eval.onContext f).Preserves R :=
  .of_eq fun _ => by simp

omit [IsPreorder Heap R] in
theorem onHeap {f : Heap → α × Heap} (hf : ∀ h, R h (f h).2) : (Eval.onHeap f).Preserves R := by
  intro w
  simpa using hf w.heap

/-- A transitive relation is preserved by what follows in sequence. -/
theorem bind {x : Eval α} {f : α → Eval β} (hx : x.Preserves R) (hf : ∀ a, (f a).Preserves R) :
    (x >>= f).Preserves R := by
  intro w
  rw [leads_bind]
  refine (hx w).imp fun r w' hr => ?_
  cases r with
  | error i => exact hr
  | ok a => exact (hf a w').imp fun r w'' h hreg => trans_of R (hr trivial) (h hreg)

end Eval.Preserves

/-- The step relates the heaps before and after it by `R`, if its outcome is regular, and yields
only values with `P`. -/
def Step.Yields (R : Heap → Heap → Prop) (P : α → Prop) (x : Step α) : Prop :=
  ∀ w, Leads x w fun r w' => (Step.Regular r → R w.heap w'.heap) ∧ ∀ a, r = .ok a → P a

namespace Step.Yields

variable {R : Heap → Heap → Prop} {P : α → Prop}

/-- A step made of an evaluation preserves what the evaluation preserves. -/
theorem ofEval {x : Eval α} (hx : x.Preserves R) : (Step.ofEval x).Yields R fun _ => True := by
  intro w
  rw [leads_ofEval]
  refine (hx w).imp fun r w' h => ?_
  cases r with
  | ok a => exact ⟨fun _ => h trivial, fun _ _ => trivial⟩
  | error i => exact ⟨h, fun _ _ => trivial⟩

/-- The outcome of a step is related in the same way. -/
theorem outcome {x : Step α} (hx : x.Yields R P) : x.outcome.Preserves R :=
  fun w => leads_outcome ((hx w).imp fun _ _ h hreg _ => h.1 hreg) fun _ _ hi hreg => absurd hreg hi

theorem imp {P' : α → Prop} {x : Step α} (hx : x.Yields R P) (hP : ∀ a, P a → P' a) :
    x.Yields R P' :=
  fun w => (hx w).imp fun _ _ h => ⟨h.1, fun a ha => hP a (h.2 a ha)⟩

theorem throw [IsPreorder Heap R] (stop : Stop) :
    (MonadExcept.throw stop : Step α).Yields R P := by
  intro w
  simp only [leads_throw]
  exact ⟨fun _ => refl_of R _, fun b hb => by cases hb⟩

end Step.Yields

/-! ### Runs that are computed -/

/-- Whether a run of a machine ends with this integer, whatever the machine and the world are. -/
def Eval.endsWithInt (x : Eval (Answer Value × Machine)) (w : World) (i : Int32) : Bool :=
  match x w with
  | .ok (.ok (.int j), _) _ => j == i
  | _ => false

/-- A run that is computed to end with an integer ends with it. -/
theorem Eval.exists_of_endsWithInt {x : Eval (Answer Value × Machine)} {w : World} {i : Int32}
    (h : x.endsWithInt w i = true) : ∃ m w', x w = .ok (.ok (.int i), m) w' := by
  unfold endsWithInt at h
  split at h
  · next j m w' hx =>
    rw [eq_of_beq h] at hx
    exact ⟨m, w', hx⟩
  · cases h

end LazyMachine
