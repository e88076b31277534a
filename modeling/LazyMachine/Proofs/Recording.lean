import LazyMachine.Proofs.Discipline
import LazyMachine.Proofs.Ownership

/-!
# Contexts record interrupts

An operation that is interrupted leaves the reason on the context: a failure is recorded there, and
a suspension names the thunk to be forced. An operation that yields a value leaves the context as it
is, whatever was caught and reset on the way. The host could break this, by code that stops without
a record for one. So this is said of heaps whose code is of a class `H`, which is up to the host
(`Heap.Within`), as a lawful discipline (`Discipline.recording`). The evaluations that keep to it
are the faithful ones (`Eval.Faithful`).

In the standard embedding, the honest code is such a class: it never stops without a record
(`HostCode.Honest`).
-/

namespace LazyMachine

variable {α β : Type}

/-! ### Contexts -/

namespace Context

/-- The contexts that come from a fresh one by reports, suspensions and what the host takes off
them. -/
inductive Reachable : Context → Prop
  | fresh (mode : ForceMode) (format : Format) : Reachable { mode, format }
  | fail {c : Context} (e : RuntimeError) : Reachable c → Reachable (c.fail e)
  | suspend {c : Context} (t : Ref .thunk) : Reachable c → Reachable (c.suspend t)
  | takeError {c : Context} : Reachable c → Reachable c.takeError.2
  | takePending {c : Context} : Reachable c → Reachable c.takePending.2
  | reset {c : Context} : Reachable c → Reachable c.reset

/-- Nothing is recorded. -/
structure Live (c : Context) : Prop where
  failed : c.failed = false
  error : c.error = none
  pending : c.pending = none

variable {c : Context}

/-- A context is marked as failed exactly while something is recorded on it. -/
theorem Reachable.failed_iff (hc : c.Reachable) :
    c.failed = true ↔ c.error.isSome ∨ c.pending.isSome := by
  induction hc with
  | fresh mode format => simp
  | @fail c e _ ih =>
    cases herror : c.error <;> simp [Context.fail, herror]
  | suspend t _ ih => simp [Context.suspend]
  | takeError _ ih => simp [Context.takeError]
  | @takePending c _ ih =>
    unfold Context.takePending
    cases hpending : c.pending with
    | none => simpa [hpending] using ih
    | some t => simp_all
  | reset _ ih => simp [Context.reset]

/-- On a context that does not interrupt, nothing is recorded. -/
theorem Reachable.live (hc : c.Reachable) (hlive : c.interrupt? = none) : c.Live := by
  have hfailed : c.failed = false := by
    unfold interrupt? at hlive
    split at hlive
    · next h => simpa using h
    · split at hlive <;> cases hlive
  have hnone := mt hc.failed_iff.mpr (by simp [hfailed])
  rw [not_or, Option.not_isSome_iff_eq_none, Option.not_isSome_iff_eq_none] at hnone
  exact ⟨hfailed, hnone.1, hnone.2⟩

/-- A live context does not interrupt. -/
theorem Live.interrupt? (hc : c.Live) : c.interrupt? = none := by
  rw [Context.interrupt?, hc.failed]
  rfl

/-- Whatever the mode, nothing is recorded. -/
theorem Live.withMode (hc : c.Live) (mode : ForceMode) : ({ c with mode } : Context).Live :=
  ⟨hc.failed, hc.error, hc.pending⟩

/-- A reset takes back the one failure. -/
theorem Live.reset_fail (hc : c.Live) (e : RuntimeError) : (c.fail e).reset = c := by
  obtain ⟨failed, error, pending, mode, format⟩ := c
  obtain ⟨⟨⟩, ⟨⟩, ⟨⟩⟩ := hc
  rfl

/-- Taking the pending thunk takes back the suspension. -/
theorem Live.takePending_suspend (hc : c.Live) (t : Ref .thunk) :
    (c.suspend t).takePending = (some t, c) := by
  obtain ⟨failed, error, pending, mode, format⟩ := c
  obtain ⟨⟨⟩, ⟨⟩, ⟨⟩⟩ := hc
  rfl

end Context

/-! ### Host code that records what stops it -/

/-- The code, and whatever it makes of other code, stops only with a record. -/
def HostCode.Honest : HostCode → Prop
  | .done _ => True
  | .stop i => i ≠ .failed ∧ i ≠ .suspended
  | .fail _ => True
  | .perform _ next => ∀ v, (next v).Honest
  | .readVariable _ next => ∀ v, (next v).Honest
  | .count _ next => next.Honest
  | .latch _ next => ∀ b, (next b).Honest
  | .makeList _ next => ∀ v, (next v).Honest
  | .makeThunk body next => body.Honest ∧ ∀ v, (next v).Honest
  | .makeFunction _ _ body next => (∀ args, (body args).Honest) ∧ ∀ v, (next v).Honest
  | .makeNaturals _ next => ∀ v, (next v).Honest

/-- The host code of the computation is of the class. -/
def Deferred.Within (H : HostCode → Prop) : Deferred → Prop
  | .native code => H code
  | .call _ => True

/-- The host code of the thunk is of the class. -/
def Thunk.Within (H : HostCode → Prop) (t : Thunk) : Prop :=
  match t.state with
  | .waiting d | .running d => d.Within H
  | .done => True

/-- The host code of the function is of the class, for whatever arguments. -/
def Function.Within (H : HostCode → Prop) (f : Function) : Prop :=
  match f.body with
  | .native code => ∀ args, H (code args)
  | _ => True

/-- The computation is honest. -/
abbrev Deferred.Honest (d : Deferred) : Prop :=
  d.Within HostCode.Honest

/-- The thunk is honest. -/
abbrev Thunk.Honest (t : Thunk) : Prop :=
  t.Within HostCode.Honest

/-- The function is honest. -/
abbrev Function.Honest (f : Function) : Prop :=
  f.Within HostCode.Honest

namespace Heap

/-- All thunks have `p`, and all functions have `q`. -/
structure Each (p : Thunk → Prop) (q : Function → Prop) (h : Heap) : Prop where
  thunks : ∀ (i : Nat) (t : Thunk), h.thunks[i]? = some t → p t
  functions : ∀ (i : Nat) (f : Function), h.functions[i]? = some f → q f

namespace Each

variable {h h' : Heap} {p : Thunk → Prop} {q : Function → Prop}

/-- A thunk that was never made counts as one with the default value. -/
theorem thunk (hh : h.Each p q) (hdefault : p default) (t : Ref .thunk) : p (h.thunk t) := by
  rw [Heap.thunk, Array.getD_eq_getD_getElem?]
  cases hi : h.thunks[t.index]? with
  | none => exact hdefault
  | some s => exact hh.thunks _ _ hi

/-- A function that was never made counts as the default one. -/
theorem function (hh : h.Each p q) (hdefault : q default) (f : Ref .function) :
    q (h.function f) := by
  rw [Heap.function, Array.getD_eq_getD_getElem?]
  cases hi : h.functions[f.index]? with
  | none => exact hdefault
  | some g => exact hh.functions _ _ hi

theorem congr (hh : h.Each p q) (hthunks : h'.thunks = h.thunks)
    (hfunctions : h'.functions = h.functions) : h'.Each p q where
  thunks i t ht := hh.thunks i t (hthunks ▸ ht)
  functions i f hf := hh.functions i f (hfunctions ▸ hf)

/-- A new thunk has to have the property. -/
theorem addThunk (hh : h.Each p q) {t : Thunk} (ht : p t) : (h.addThunk t).2.Each p q where
  thunks i s hs := by
    rw [Heap.addThunk, Array.getElem?_push] at hs
    split at hs
    · cases hs
      exact ht
    · exact hh.thunks i s hs
  functions := hh.functions

/-- A new function has to have the property. -/
theorem addFunction (hh : h.Each p q) {f : Function} (hf : q f) :
    (h.addFunction f).2.Each p q where
  thunks := hh.thunks
  functions i g hg := by
    rw [Heap.addFunction, Array.getElem?_push] at hg
    split at hg
    · cases hg
      exact hf
    · exact hh.functions i g hg

/-- What takes the place of a thunk has to have the property. -/
theorem setThunk (hh : h.Each p q) (t : Ref .thunk) {s : Thunk} (hs : p s) :
    (h.setThunk t s).Each p q where
  thunks i u hu := by
    rw [getElem?_setThunk] at hu
    split at hu
    · cases hu
      exact hs
    · exact hh.thunks i u hu
  functions := hh.functions

/-- Releasing a chain keeps the property, if waiting thunks have it when running ones do. -/
theorem releaseChain (hh : h.Each p q) (hdefault : p default)
    (hp : ∀ d, p (.running d) → p (.waiting d)) (chain : List (Ref .thunk)) :
    (h.releaseChain chain).Each p q := by
  induction chain generalizing h with
  | nil => exact hh
  | cons r rs ih =>
    refine ih ?_
    unfold release
    split
    · next d hd =>
      have hrunning := hh.thunk hdefault r
      rw [hd] at hrunning
      exact hh.setThunk r (hp d hrunning)
    · exact hh

/-- Completing a chain keeps the property, if all forced thunks have it. -/
theorem completeChain (hh : h.Each p q) (hp : ∀ v, p (.forced v)) (chain : List (Ref .thunk))
    (v : Value) : (h.completeChain chain v).2.Each p q := by
  induction chain with
  | nil => exact hh
  | cons r rs ih =>
    have hfold : h.completeChain (r :: rs) v =
        (h.completeChain rs v).2.complete r (h.completeChain rs v).1 := rfl
    exact hfold ▸ ih.setThunk r (hp _)

end Each

/-- The host code of the heap is of the class, with that of functions that were never made. -/
structure Within (H : HostCode → Prop) (h : Heap) : Prop
    extends h.Each (Thunk.Within H) (Function.Within H) where
  unit : H (.done .unit)

/-- No host code of the heap stops without a record. -/
abbrev Honest (h : Heap) : Prop :=
  h.Within HostCode.Honest

/-- Functions that were never made are honest. -/
theorem honest_of {h : Heap} (hthunks : ∀ (i : Nat) (t : Thunk), h.thunks[i]? = some t → t.Honest)
    (hfunctions : ∀ (i : Nat) (f : Function), h.functions[i]? = some f → f.Honest) : h.Honest :=
  ⟨⟨hthunks, hfunctions⟩, trivial⟩

namespace Within

variable {H : HostCode → Prop} {h h' : Heap}

/-- The thunk of any reference has code of the class. -/
theorem thunk (hh : h.Within H) (t : Ref .thunk) : (h.thunk t).Within H :=
  hh.toEach.thunk trivial t

/-- The function of any reference has code of the class. -/
theorem function (hh : h.Within H) (f : Ref .function) : (h.function f).Within H :=
  hh.toEach.function (fun _ => hh.unit) f

theorem congr (hh : h.Within H) (hthunks : h'.thunks = h.thunks)
    (hfunctions : h'.functions = h.functions) : h'.Within H :=
  ⟨hh.toEach.congr hthunks hfunctions, hh.unit⟩

/-- A new thunk over code of the class. -/
theorem addThunk (hh : h.Within H) {t : Thunk} (ht : t.Within H) : (h.addThunk t).2.Within H :=
  ⟨hh.toEach.addThunk ht, hh.unit⟩

/-- A new function over code of the class. -/
theorem addFunction (hh : h.Within H) {f : Function} (hf : f.Within H) :
    (h.addFunction f).2.Within H :=
  ⟨hh.toEach.addFunction hf, hh.unit⟩

/-- A thunk replaced by one over code of the class. -/
theorem setThunk (hh : h.Within H) (t : Ref .thunk) {s : Thunk} (hs : s.Within H) :
    (h.setThunk t s).Within H :=
  ⟨hh.toEach.setThunk t hs, hh.unit⟩

/-- Released thunks have the code that they had. -/
theorem releaseChain (hh : h.Within H) (chain : List (Ref .thunk)) :
    (h.releaseChain chain).Within H :=
  ⟨hh.toEach.releaseChain trivial (fun _ hd => hd) chain, hh.unit⟩

/-- Completed thunks have no code. -/
theorem completeChain (hh : h.Within H) (chain : List (Ref .thunk)) (v : Value) :
    (h.completeChain chain v).2.Within H :=
  ⟨hh.toEach.completeChain (fun _ => trivial) chain v, hh.unit⟩

end Within

/-- Releasing thunks leaves their values. -/
theorem memo?_releaseChain (h : Heap) (chain : List (Ref .thunk)) (t : Ref .thunk) :
    (h.releaseChain chain).memo? t = h.memo? t := by
  have hreleased (s : Thunk) : s.released.memo? = s.memo? := by cases s <;> simp [Thunk.released]
  rw [memo?, memo?, Heap.thunk, Heap.thunk, Array.getD_eq_getD_getElem?,
    Array.getD_eq_getD_getElem?, getElem?_releaseChain]
  split
  · cases h.thunks[t.index]? with
    | none => rfl
    | some s => exact hreleased s
  · rfl

end Heap

/-! ### Faithful evaluations -/

/-- What an interrupt leaves in place of the live context `c`: a failure is recorded, and a
suspension, which only the cooperative mode knows, names a thunk without a value. -/
def Interrupt.Recorded (c : Context) (w : World) : Interrupt → Prop
  | .failed => ∃ e, w.context = c.fail e
  | .suspended => c.mode = .cooperative ∧ ∃ t, w.context = c.suspend t ∧ w.heap.memo? t = none
  | _ => True

/-- What an outcome leaves in place of the live context `c`, which a value leaves as it is. -/
def Recorded (c : Context) : Except Interrupt α → World → Prop
  | .ok _, w => w.context = c
  | .error i, w => i.Recorded c w

/-- On a live context and a heap of code of the class, the evaluation records what interrupts it,
and otherwise yields what has `P`; the code on the heap is of the class afterwards. -/
def Eval.Faithful (H : HostCode → Prop) (x : Eval α) (P : α → Prop) : Prop :=
  ∀ w : World, w.heap.Within H → w.context.Live → Leads x w fun r w' => Regular r →
    w'.heap.Within H ∧ Recorded w.context r w' ∧ ∀ a, r = .ok a → P a

namespace Eval.Faithful

variable {H : HostCode → Prop} {P : α → Prop} {Q : β → Prop} {x : Eval α}

theorem pure {a : α} (ha : P a) : (Pure.pure a : Eval α).Faithful H P :=
  fun _ hh _ _ => ⟨hh, rfl, by rintro _ ⟨⟩; exact ha⟩

theorem cut {i : Interrupt} (hi : ¬ Regular (.error i : Except Interrupt α)) :
    (throw i : Eval α).Faithful H P :=
  fun _ _ _ hreg => absurd hreg hi

theorem fail (e : RuntimeError) : (Eval.fail e : Eval α).Faithful H P :=
  fun _ hh _ _ => ⟨hh, ⟨e, rfl⟩, by rintro _ ⟨⟩⟩

theorem heap : Eval.heap.Faithful H (Heap.Within H) :=
  fun _ hh _ _ => ⟨hh, rfl, by rintro _ ⟨⟩; exact hh⟩

theorem onHeap {f : Heap → α × Heap} (hf : ∀ h : Heap, h.Within H → (f h).2.Within H) :
    (Eval.onHeap f).Faithful H fun _ => True :=
  fun w hh _ _ => ⟨hf w.heap hh, rfl, fun _ _ => trivial⟩

/-- A value leaves the context live, so that the next evaluation starts as the first did. -/
theorem bind {f : α → Eval β} (hx : x.Faithful H P) (hf : ∀ a, P a → (f a).Faithful H Q) :
    (x >>= f).Faithful H Q := by
  intro w hh hlive
  rw [leads_bind]
  refine (hx w hh hlive).imp fun r w' h => ?_
  cases r with
  | error i => exact fun hreg => ⟨(h hreg).1, (h hreg).2.1, by rintro _ ⟨⟩⟩
  | ok a =>
    obtain ⟨hh', hsame, ha⟩ := h trivial
    have hsame : w'.context = w.context := hsame
    rw [← hsame]
    exact hf a (ha a rfl) w' hh' (hsame ▸ hlive)

/-- Releasing a chain after an interrupt leaves the record of it. -/
theorem releasing (hx : x.Faithful H P) (chain : List (Ref .thunk)) :
    (releasing chain x).Faithful H P := by
  intro w hh hlive
  simp only [LazyMachine.releasing, leads_tryCatch]
  refine (hx w hh hlive).imp fun r w' h => ?_
  cases r with
  | ok a => exact h
  | error i =>
    intro hreg
    obtain ⟨hh', hrec, -⟩ := h hreg
    refine ⟨hh'.releaseChain chain, ?_, by rintro _ ⟨⟩⟩
    rcases hreg with rfl | rfl
    · exact hrec
    · obtain ⟨hmode, t, ht, hmemo⟩ := hrec
      exact ⟨hmode, t, ht, by rw [Heap.memo?_releaseChain, hmemo]⟩

end Eval.Faithful

/-- To record interrupts on the context, and to leave code of the class on the heap. -/
def Discipline.recording (H : HostCode → Prop) : Discipline where
  start w := w.heap.Within H ∧ w.context.Live
  done w w' := w'.heap.Within H ∧ w'.context = w.context
  stopped i w w' := w'.heap.Within H ∧ i.Recorded w.context w'
  code := H

/-- To record interrupts, and to leave honest code on the heap. -/
abbrev Discipline.honesty : Discipline :=
  .recording HostCode.Honest

/-- Code has its own ways to fail and to add to the heap, and they record what they do. -/
instance {H : HostCode → Prop} : (Discipline.recording H).Lawful where
  refl hw := ⟨hw.1, rfl⟩
  trans h h' := ⟨h'.1, h'.2.trans h.2⟩
  stop h h' := ⟨h'.1, h.2 ▸ h'.2⟩
  next hw h := ⟨h.1, h.2 ▸ hw.2⟩
  dead hw hc := by
    rw [hw.2.interrupt?] at hc
    cases hc
  fail e hw := ⟨hw.1, e, rfl⟩
  grow hw hgrows hfunctions := ⟨hw.1.congr hgrows.thunks hfunctions, rfl⟩
  enclose _ _ _ _ _ hw := ⟨hw.1.addFunction trivial, rfl⟩
  curry f hw _ := ⟨hw.1.addFunction (hw.1.function f), rfl⟩
  delay _ hw := ⟨hw.1.addThunk trivial, rfl⟩
  body {w f code} args hw hbody := by
    have hf := hw.1.function f
    rw [Function.Within, hbody] at hf
    exact hf args
  eager hw := ⟨hw.1, hw.2.withMode _⟩
  -- the mode that was in force before is put back behind the run
  eager_done {w w'} _ h := by
    refine ⟨h.1, ?_⟩
    show { w'.context with mode := w.context.mode } = w.context
    rw [h.2]
    rfl
  eager_stopped {w w' i} _ hreg h := by
    refine ⟨h.1, ?_⟩
    rcases hreg with rfl | rfl
    · obtain ⟨e, he⟩ := h.2
      refine ⟨e, ?_⟩
      show { w'.context with mode := w.context.mode } = w.context.fail e
      rw [he]
      rfl
    -- in eager mode nothing is suspended
    · exact absurd h.2.1 (by simp [World.inMode])
  aside hw := ⟨hw.1, rfl, rfl, rfl⟩
  report e _ h := ⟨h.elim (·.1) fun ⟨_, h⟩ => h.1, e, rfl⟩

/-- Honest code stays honest, and records what it stops with. -/
instance : Discipline.honesty.LawfulCode where
  code_next hcode hnext := by
    cases hnext with
    | count => exact hcode
    | makeThunk v => exact hcode.2 v
    | makeFunction v => exact hcode.2 v
    | perform v => exact hcode v
    | readVariable v => exact hcode v
    | latch b => exact hcode b
    | makeList v => exact hcode v
    | makeNaturals v => exact hcode v
  code_stop _ hcode hreg := by
    rcases hreg with rfl | rfl
    · exact absurd rfl hcode.1
    · exact absurd rfl hcode.2
  code_count hw _ := ⟨hw.1, rfl⟩
  code_latch _ hw := ⟨hw.1, rfl⟩
  code_makeThunk hw hcode := ⟨hw.1.addThunk hcode.1, rfl⟩
  code_makeFunction hw hcode := ⟨hw.1.addFunction hcode.1, rfl⟩
  code_makeNaturals hw _ := ⟨hw.1.addThunk fun _ => trivial, rfl⟩

/-- To keep to the discipline is to be faithful, whatever the values are like. -/
theorem Eval.keepsTo_recording {H : HostCode → Prop} {x : Eval α} :
    x.KeepsTo (.recording H) ↔ x.Faithful H fun _ => True := by
  constructor
  · intro h w hh hlive
    refine (h w ⟨hh, hlive⟩).imp fun r w' h => ?_
    cases r with
    | ok a => exact fun _ => ⟨h.1, h.2, fun _ _ => trivial⟩
    | error i => exact fun hreg => ⟨(h hreg).1, (h hreg).2, fun _ _ => trivial⟩
  · intro h w hw
    refine (h w hw.1 hw.2).imp fun r w' h => ?_
    cases r with
    | ok a => exact ⟨(h trivial).1, (h trivial).2.1⟩
    | error i => exact fun hreg => ⟨(h hreg).1, (h hreg).2.1⟩

/-- What is composed without any force is faithful. -/
theorem Parallel.faithful_of_forceless {H : HostCode → Prop} {x : Eval α}
    (hx : ∀ ev : Evaluator, Parallel .none ev ev x x) : x.Faithful H fun _ => True :=
  Eval.keepsTo_recording.mp (Parallel.keepsTo_of_forceless hx)

end LazyMachine
