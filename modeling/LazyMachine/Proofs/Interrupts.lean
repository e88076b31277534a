import LazyMachine.Proofs.Recording
import LazyMachine.Proofs.Settling

/-!
# Every interrupt is on the context

The way around the engine for `Eval.Faithful`. With the operations of an engine all code is
faithful, since that is a lawful discipline; what is left is the driving of thunks and the rounds of
a machine, which keeps the context live from one to the next. A round may end with a failure on the
context only if the run ends with it, since a handler takes it off; a suspended instruction is
resumed in the same round.

What the host's code and foreign values do is assumed to be faithful (`Embedding.Faithful`), and
nothing else of it; in the standard embedding it is, for honest code (`standard_faithful`).
`interrupts_recorded` states the outcome for operations, applications and invocations.
-/

namespace LazyMachine

variable {α β : Type} {H : HostCode → Prop}

/-! ### Faithful steps -/

/-- What the end of a step leaves in place of the live context `c`; an abort records nothing. -/
def Stop.Recorded (c : Context) (w : World) : Stop → Prop
  | .abort _ => w.context = c
  | .interrupt i => i.Recorded c w

/-- On a live context and a heap of code of the class, the step records what interrupts it. -/
def Step.Faithful (H : HostCode → Prop) (x : Step α) : Prop :=
  ∀ w : World, w.heap.Within H → w.context.Live → Leads x w fun r w' => Step.Regular r →
    w'.heap.Within H ∧ match r with
      | .ok _ => w'.context = w.context
      | .error stop => stop.Recorded w.context w'

/-- A faithful evaluation is a faithful step. -/
theorem Step.Faithful.ofEval {P : α → Prop} {x : Eval α} (hx : x.Faithful H P) :
    (Step.ofEval x).Faithful H := by
  intro w hh hlive
  rw [leads_ofEval]
  refine (hx w hh hlive).imp fun r w' h => ?_
  cases r with
  | ok a => exact fun _ => ⟨(h trivial).1, (h trivial).2.1⟩
  | error i => exact fun hreg => ⟨(h hreg).1, (h hreg).2.1⟩

/-- Steps that keep to the discipline are faithful. -/
theorem Step.KeepsTo.faithful {P : α → Prop} {x : Step α} (hx : x.KeepsTo (.recording H) P) :
    x.Faithful H := by
  intro w hh hlive
  refine (hx w ⟨hh, hlive⟩).imp fun r w' h => ?_
  match r with
  | .ok a => exact fun _ => h.1
  | .error (.abort a) => exact fun _ => h
  | .error (.interrupt i) => exact h

/-- Claiming a thunk gives code of the class to run. -/
theorem claim_faithful (t : Ref .thunk) : (claim t).Faithful H fun
    | .ready _ => True
    | .run d => d.Within H := by
  refine Eval.Faithful.heap.bind fun h hh => ?_
  have ht := hh.thunk t
  cases hs : h.thunk t with
  | valued s v => exact .pure trivial
  | waiting d =>
    rw [hs] at ht
    refine .bind (.onHeap fun h hh => hh.setThunk t ht) fun _ _ => .pure ht
  | running d => exact .fail _
  | spent => exact .fail _

/-- Completing a chain leaves the context. -/
theorem completeChain_faithful (chain : List (Ref .thunk)) (v : Value) :
    (completeChain chain v).Faithful H fun _ => True :=
  .onHeap fun _ hh => hh.completeChain chain v

/-- Releasing a chain leaves the context. -/
theorem releaseChain_faithful (chain : List (Ref .thunk)) :
    (releaseChain chain).Faithful H fun _ => True :=
  .onHeap fun _ hh => hh.releaseChain chain

/-- Making the value for a handler adds objects only. -/
theorem errorValue_faithful (e : Option RuntimeError) : (errorValue e).Faithful H fun _ => True :=
  Eval.keepsTo_recording.mp (errorValue_keepsTo e)

/-- A round leaves the context live, unless it ends the run with a failure. -/
def RoundRecorded (H : HostCode → Prop) (c : Context) (r : Except Interrupt Machine.Round)
    (w : World) : Prop :=
  match r with
  | .ok (.running _) => w.heap.Within H ∧ w.context = c
  | .ok (.ended .failed _) => w.heap.Within H ∧ ∃ e, w.context = c.fail e
  | .ok (.ended _ _) => w.heap.Within H ∧ w.context = c
  | .error i => ¬ Regular (.error i : Except Interrupt Unit)

section Engine

variable [Embedding] {E : Engine} [(Discipline.recording H).Hosted E]
  (hE : ∀ o, (E o).Faithful H fun _ => True)

include hE

/-- Binding what a thunk defers is faithful if its code is of the class. -/
theorem deferredBind_faithful (fuel : Nat) {d : Deferred} (hd : d.Within H) :
    (d.bind E fuel).Faithful H fun _ => True :=
  Eval.keepsTo_recording.mp (deferredBind_keepsTo (fun o => Eval.keepsTo_recording.mpr (hE o)) fuel
    (by rintro code rfl; exact hd))

/-- Whatever a frame does next is faithful. -/
theorem advance_faithful (fuel : Nat) (f : Frame) : (f.advance E fuel).Faithful H :=
  (advance_keepsTo (fun o => Eval.keepsTo_recording.mpr (hE o)) fuel f).faithful

/-! ### Driving thunks -/

/-- Driving goes on along the chain, which is released if it is interrupted. -/
theorem drive_faithful (fuel : Nat) (waiting : List (Ref .thunk)) (t : Ref .thunk) :
    (drive E fuel waiting t).Faithful H fun _ => True := by
  induction fuel generalizing waiting t with
  | zero => exact .cut (by simp)
  | succ fuel ih =>
    refine .bind ((claim_faithful t).releasing waiting) fun claimed hclaimed => ?_
    cases claimed with
    | ready v => exact .bind (completeChain_faithful _ v) fun _ _ => .pure trivial
    | run d =>
      refine .bind ((deferredBind_faithful hE fuel hclaimed).releasing _) fun a _ => ?_
      cases a with
      | enter program chunk locals rest =>
        dsimp only
        split
        · exact .pure trivial
        · exact .bind (releaseChain_faithful _) fun _ _ => .fail _
      | value v rest =>
        refine .bind (Parallel.faithful_of_forceless fun _ => .resolve v) fun u _ => ?_
        split
        · exact ih _ _
        · exact .bind (completeChain_faithful _ _) fun _ _ => .pure trivial

/-- The result of a thunk's frame is handed on along the chain. -/
theorem settle_faithful (fuel : Nat) (chain : List (Ref .thunk)) (v : Value) :
    (settle E fuel chain v).Faithful H fun _ => True := by
  refine .bind (Parallel.faithful_of_forceless fun _ => .resolve v) fun u _ => ?_
  split
  · exact drive_faithful hE fuel chain _
  · exact .bind (completeChain_faithful _ _) fun _ _ => .pure trivial

/-- Resuming takes the pending thunk off the context, which is live again, and ends without another
one. -/
theorem resume_faithful {c : Context} {w : World} {t : Ref .thunk} (fuel : Nat)
    (hh : w.heap.Within H) (hlive : c.Live) (hc : w.context = c.suspend t) :
    Leads (resume E fuel) w fun r w' => Step.Regular r → w'.heap.Within H ∧ match r with
      | .ok _ => w'.context = c
      | .error stop => stop.Recorded c w' ∧ stop ≠ .interrupt .suspended := by
  induction fuel generalizing w t with
  | zero => simp [resume, Step.Regular, Stop.Regular]
  | succ fuel ih =>
    simp only [resume, leads_bind, Step.liftM_eq_ofEval, leads_ofEval, leads_context,
      leads_onContext, hc, hlive.takePending_suspend, leads_tryCatch]
    refine (drive_faithful hE fuel [] t { w with context := c } hh hlive).imp fun r w' h => ?_
    match r with
    | .ok f => exact fun _ => ⟨(h trivial).1, (h trivial).2.1⟩
    | .error .suspended =>
      obtain ⟨hh', ⟨-, t', ht', -⟩, -⟩ := h (.inr rfl)
      exact ih hh' ht'
    | .error .failed =>
      obtain ⟨hh', hrec, -⟩ := h (.inl rfl)
      exact fun _ => ⟨hh', hrec, by simp⟩
    | .error .exhausted => exact fun hreg => absurd hreg (by simp [Step.Regular, Stop.Regular])
    | .error .crashed => exact fun hreg => absurd hreg (by simp [Step.Regular, Stop.Regular])

/-! ### Rounds -/

omit [Embedding] hE in
/-- A handler takes the failure off the context; without one it stays there. -/
theorem unwind_faithful {c : Context} {w : World} {e : RuntimeError} (frames : List Frame)
    (hh : w.heap.Within H) (hlive : c.Live) (hc : w.context = c.fail e) :
    Leads (unwind frames) w fun
      | .ok (true, _), w' => w'.heap.Within H ∧ w'.context = c
      | .ok (false, _), w' => w'.heap.Within H ∧ w'.context = c.fail e
      | .error _, _ => False := by
  induction frames generalizing w with
  | nil => exact ⟨hh, hc⟩
  | cons f below ih =>
    unfold unwind
    split
    · simp only [leads_bind, leads_context, leads_onContext, hc, hlive.reset_fail]
      refine ((errorValue_leads _ _).and
        (errorValue_faithful _ { w with context := c } hh hlive)).imp fun r w' h => ?_
      obtain ⟨⟨⟨v, rfl⟩, -⟩, h⟩ := h
      exact ⟨(h trivial).1, (h trivial).2.1⟩
    · split
      · exact ⟨hh, hc⟩
      · exact ih (hh.releaseChain _) hc

omit [Embedding] hE in
/-- An abort leaves the context. -/
theorem abandon_faithful {w : World} (m : Machine) (a : Abort) (hh : w.heap.Within H) :
    Leads (m.abandon a) w (RoundRecorded H w.context) :=
  ⟨hh.releaseChain _, rfl⟩

omit [Embedding] hE in
/-- After an interrupt other than a suspension, the run goes on at a handler or ends with the
record. -/
theorem recover_faithful {c : Context} {w : World} (m : Machine) {stop : Stop}
    (hh : w.heap.Within H) (hlive : c.Live) (hstop : stop.Recorded c w) (hreg : stop.Regular)
    (hne : stop ≠ .interrupt .suspended) : Leads (m.recover stop) w (RoundRecorded H c) := by
  cases stop with
  | abort a =>
    have hc : w.context = c := hstop
    rw [← hc]
    exact abandon_faithful m a hh
  | interrupt i =>
    cases i with
    | failed =>
      obtain ⟨e, he⟩ := hstop
      simp only [Machine.recover, leads_bind]
      refine (unwind_faithful m.frames hh hlive he).imp fun r w' h => ?_
      rcases r with i | ⟨_ | _, frames⟩
      · exact h.elim
      · exact ⟨h.1, e, h.2⟩
      · exact h
    | suspended => exact absurd rfl hne
    | exhausted => exact absurd hreg (by simp [Stop.Regular])
    | crashed => exact absurd hreg (by simp [Stop.Regular])

/-- A suspended instruction is resumed; whatever else ends a step is recovered from. -/
theorem halt_faithful {c : Context} {w : World} (fuel : Nat) (m : Machine) {stop : Stop}
    (hh : w.heap.Within H) (hlive : c.Live) (hstop : stop.Recorded c w) (hreg : stop.Regular) :
    Leads (m.halt E fuel stop) w (RoundRecorded H c) := by
  unfold Machine.halt
  split
  · obtain ⟨-, t, ht, -⟩ := hstop
    rw [leads_bind]
    refine leads_outcome ((resume_faithful hE fuel hh hlive ht).imp fun r w' h hreg => ?_)
      fun i w' hi => hi
    match r with
    | .ok none => exact h hreg
    | .ok (some f) => exact h hreg
    | .error stop => exact recover_faithful m (h hreg).1 hlive (h hreg).2.1 hreg (h hreg).2.2
  · next hne => exact recover_faithful m hh hlive hstop hreg hne

/-- Leaving a frame hands its result over, which may drive further thunks. -/
theorem leave_faithful {w : World} (fuel : Nat) (m : Machine) (kind : FrameKind)
    (below : List Frame) (v : Value) (hh : w.heap.Within H) (hlive : w.context.Live) :
    Leads (m.leave E fuel kind below v) w (RoundRecorded H w.context) := by
  unfold Machine.leave
  split
  · exact ⟨hh, rfl⟩
  · split
    · exact ⟨hh, rfl⟩
    · exact abandon_faithful _ _ hh
  · next chain =>
    rw [leads_bind]
    have hsettle := Step.Faithful.ofEval (settle_faithful hE fuel chain v)
    refine leads_outcome ((hsettle w hh hlive).imp fun r w' h hreg => ?_) fun i w' hi => hi
    match r with
    | .ok none => exact h hreg
    | .ok (some f) => exact h hreg
    | .error stop => exact halt_faithful hE fuel _ (h hreg).1 hlive (h hreg).2 hreg

/-- A round goes on with the context that it started with. -/
theorem round_faithful {w : World} (fuel : Nat) (m : Machine) (hh : w.heap.Within H)
    (hlive : w.context.Live) : Leads (m.round E fuel) w (RoundRecorded H w.context) := by
  have hturn (w : World) (m : Machine) (hh : w.heap.Within H) (hlive : w.context.Live) :
      Leads (m.turn E fuel) w (RoundRecorded H w.context) := by
    unfold Machine.turn
    split
    · exact abandon_faithful m _ hh
    · next f below _ =>
      rw [leads_bind]
      refine leads_outcome ((advance_faithful hE fuel f w hh hlive).imp fun r w' h hreg => ?_)
        fun i w' hi => hi
      -- whatever the flow, the advance has kept the context or recorded the interrupt
      obtain ⟨hh', hrec⟩ := h hreg
      match r with
      | .ok (.next g) => exact ⟨hh', hrec⟩
      | .ok (.stay g) => exact ⟨hh', hrec⟩
      | .ok (.jump g target) => exact ⟨hh', hrec⟩
      | .ok (.enter caller callee) => exact ⟨hh', hrec⟩
      | .ok (.leave v) =>
        have hrec : w'.context = w.context := hrec
        rw [← hrec]
        exact leave_faithful hE fuel m _ below v hh' (hrec ▸ hlive)
      | .error stop => exact halt_faithful hE fuel m hh' hlive hrec hreg
  unfold Machine.round
  split
  · exact abandon_faithful m _ hh
  · exact hturn { w with executed := w.executed + 1 } _ hh hlive

/-- A run ends with a failure on the context, or leaves it as it was. -/
theorem execute_faithful {w : World} (fuel : Nat) (m : Machine) (hh : w.heap.Within H)
    (hlive : w.context.Live) :
    Leads (m.execute E fuel) w fun
      | .ok (.failed, _), w' => w'.heap.Within H ∧ ∃ e, w'.context = w.context.fail e
      | .ok _, w' => w'.heap.Within H ∧ w'.context = w.context
      | .error i, _ => ¬ Regular (.error i : Except Interrupt Unit) := by
  induction fuel generalizing m w with
  | zero => simp [Machine.execute]
  | succ fuel ih =>
    simp only [Machine.execute, leads_bind]
    refine (round_faithful hE fuel m hh hlive).imp fun r w' h => ?_
    rcases r with i | m | ⟨v | _ | a, m⟩
    · exact h
    · obtain ⟨hh', hsame⟩ := h
      rw [← hsame]
      exact ih m hh' (hsame ▸ hlive)
    · exact h
    · exact h
    · exact h

/-- The invocation of a chunk ends with what it hands back on the context. -/
theorem invoke_faithful {w : World} (fuel : Nat) (m : Machine) (program : Program) (chunk : Nat)
    (locals : List Value) (hh : w.heap.Within H) (hlive : w.context.Live) :
    Leads (m.invoke E fuel program chunk locals) w fun
      | .ok (r, _), w' => w'.heap.Within H ∧ Recorded w.context r w'
      | .error i, _ => ¬ Regular (.error i : Except Interrupt Unit) := by
  simp only [Machine.invoke, leads_bind, leads_context, hlive.interrupt?]
  split
  · exact ⟨hh, _, rfl⟩
  · rw [leads_bind]
    refine (execute_faithful hE fuel _ hh hlive).imp fun r w' h => ?_
    rcases r with i | ⟨v | _ | a, m'⟩
    · exact h
    · exact h
    · exact h
    · obtain ⟨hh', hsame⟩ := h
      refine ⟨hh', .fault "Call" a.message, ?_⟩
      show w'.context.fail _ = _
      rw [hsame]

/-! ### Operations -/

/-- A run of a chunk on a machine of its own is faithful. -/
theorem invokeChunk_faithful (fuel : Nat) (program : Program) (chunk : Nat) (locals : List Value) :
    (invokeChunk E fuel program chunk locals).Faithful H fun _ => True := by
  intro w hh hlive
  simp only [invokeChunk, leads_bind]
  refine (invoke_faithful hE fuel {} program chunk locals hh hlive).imp fun r w' h => ?_
  match r with
  | .ok (.ok v, m') => exact fun _ => ⟨h.1, h.2, fun _ _ => trivial⟩
  | .ok (.error i, m') => exact fun _ => ⟨h.1, h.2, fun _ _ => trivial⟩
  | .error i => exact fun hreg => absurd hreg h

/-- Application is faithful. -/
theorem applyFunction_faithful (fuel : Nat) (f : Ref .function) (args : List Value) :
    (applyFunction E fuel f args).Faithful H fun _ => True :=
  Eval.keepsTo_recording.mp (applyFunction_keepsTo (fun o => Eval.keepsTo_recording.mpr (hE o))
    (fun fuel p c l => Eval.keepsTo_recording.mpr (invokeChunk_faithful hE fuel p c l)) fuel f args)

/-- Running what a thunk defers is faithful if its code is of the class. -/
theorem deferredRun_faithful (fuel : Nat) {d : Deferred} (hd : d.Within H) :
    (d.run E fuel).Faithful H fun _ => True :=
  Eval.keepsTo_recording.mp (deferredRun_keepsTo (fun o => Eval.keepsTo_recording.mpr (hE o))
    (fun fuel p c l => Eval.keepsTo_recording.mpr (invokeChunk_faithful hE fuel p c l)) fuel
    (by rintro code rfl; exact hd))

/-- Evaluating a chain at once is faithful. -/
theorem forceNow_faithful (fuel : Nat) (waiting : List (Ref .thunk)) (t : Ref .thunk) :
    (forceNow E fuel waiting t).Faithful H fun _ => True := by
  induction fuel generalizing waiting t with
  | zero => exact .cut (by simp)
  | succ fuel ih =>
    refine .bind ((claim_faithful t).releasing waiting) fun claimed hclaimed => ?_
    cases claimed with
    | ready v => exact completeChain_faithful waiting v
    | run d =>
      refine .bind ((deferredRun_faithful hE fuel hclaimed).releasing _) fun v _ => ?_
      split
      · exact ih _ _
      · exact completeChain_faithful _ _

/-- Only here is an evaluation suspended: a thunk without a value is met in cooperative mode. -/
theorem forceThunk_faithful (fuel : Nat) (t : Ref .thunk) :
    (forceThunk E fuel t).Faithful H fun _ => True := by
  intro w hh hlive
  simp only [forceThunk, leads_bind, leads_heap]
  split
  · exact fun _ => ⟨hh, rfl, fun _ _ => trivial⟩
  · next hmemo =>
    simp only [leads_bind, leads_context]
    split
    · exact forceNow_faithful hE fuel [] t w hh hlive
    · next hmode => exact fun _ => ⟨hh, ⟨hmode, t, rfl, hmemo⟩, fun _ _ => trivial⟩

/-- Every operation is faithful if those of the engine are. -/
theorem perform_faithful (fuel : Nat) (o : Operation) :
    (perform E fuel o).Faithful H fun _ => True :=
  Eval.keepsTo_recording.mp (perform_keepsTo (fun o => Eval.keepsTo_recording.mpr (hE o))
    (fun fuel t => Eval.keepsTo_recording.mpr (forceThunk_faithful hE fuel t))
    (fun fuel p c l => Eval.keepsTo_recording.mpr (invokeChunk_faithful hE fuel p c l)) fuel o)

end Engine

/-- What is left to the host is faithful: where the operations record what interrupts them, so do
runs of code of the class and the answers of foreign values, and they leave only code of the class
on the heap. -/
structure Embedding.Faithful [Embedding] (H : HostCode → Prop) : Prop where
  run {level : Nat} : (∀ o, (engine level o).Faithful H fun _ => True) →
    ∀ code, H code → (Embedding.run (engine level) code).Faithful H fun _ => True
  answer {level : Nat} {ev : Evaluator} : (∀ o, (engine level o).Faithful H fun _ => True) →
    ev.From (engine level) → (∀ v, (ev.force v).Faithful H fun _ => True) →
    ∀ {α : Type} {x y : Eval α}, ForeignAnswers ev ev x y → x.Faithful H fun _ => True

/-- So the host keeps to the discipline at every level. -/
theorem Embedding.Faithful.hosted [Embedding] (hhost : Embedding.Faithful H) (level : Nat) :
    (Discipline.recording H).Hosted (engine level) where
  code hE code hcode := Eval.keepsTo_recording.mpr
    (hhost.run (fun o => Eval.keepsTo_recording.mp (hE o)) code hcode)
  answer hE hev hforce _ _ _ h := Eval.keepsTo_recording.mpr
    (hhost.answer (fun o => Eval.keepsTo_recording.mp (hE o)) hev
      (fun v => Eval.keepsTo_recording.mp (hforce v)) h)

/-- In the standard embedding, foreign values answer by what they force. -/
theorem ForeignAnswers.faithful {ev : Evaluator} {x y : Eval α} (h : ForeignAnswers ev ev x y)
    (hforce : ∀ v, (ev.force v).Faithful H fun _ => True) : x.Faithful H fun _ => True :=
  have hparallel : Parallel .none ev ev x y := Parallel.answered (Nat.le_refl _) h
  Eval.keepsTo_recording.mp
    (hparallel.keepsTo (fun v => Eval.keepsTo_recording.mpr (hforce v)) False.elim)

/-- Honest code runs faithfully. -/
theorem HostCode.Honest.faithful {code : HostCode} (hcode : code.Honest) {E : Engine}
    (hE : ∀ o, (E o).Faithful HostCode.Honest fun _ => True) :
    (code.run E).Faithful HostCode.Honest fun _ => True :=
  Eval.keepsTo_recording.mp (hostCode_keepsTo (fun o => Eval.keepsTo_recording.mpr (hE o)) hcode)

/-- In the standard embedding it is, for honest code. -/
theorem Embedding.standard_faithful : Embedding.Faithful HostCode.Honest where
  run hE _ hcode := hcode.faithful hE
  answer _ _ hforce _ _ _ h := h.faithful hforce

/-- The operations of every level are faithful if what is left to the host is. -/
theorem engine_faithful [Embedding] (hhost : Embedding.Faithful H) (level : Nat) (o : Operation) :
    (engine level o).Faithful H fun _ => True := by
  induction level generalizing o with
  | zero => exact .cut (by simp)
  | succ level ih =>
    have := hhost.hosted level
    exact perform_faithful ih level o

/-! ### What the context tells about an outcome -/

/-- The context of the world fits the outcome of an evaluation that started with the context `c`. -/
def Accounted (c : Context) : Except Interrupt α → World → Prop
  | .ok _, w => w.context = c
  | .error .failed, w =>
    w.context.failed = true ∧ w.context.error.isSome ∧ w.context.pending = none ∧
      w.context.mode = c.mode ∧ w.context.format = c.format
  | .error .suspended, w =>
    c.mode = .cooperative ∧ w.context.failed = true ∧ w.context.error = none ∧
      (∃ t, w.context.pending = some t ∧ w.heap.memo? t = none) ∧
      w.context.mode = c.mode ∧ w.context.format = c.format
  | .error _, _ => True

/-- What is recorded on a live context is all there is on it. -/
theorem Recorded.accounted {c : Context} (hlive : c.Live) {r : Except Interrupt α} {w : World}
    (hr : Recorded c r w) : Accounted c r w := by
  match r with
  | .ok a => exact hr
  | .error .failed =>
    obtain ⟨e, he⟩ := hr
    simp [Accounted, he, Context.fail, hlive.error, hlive.pending]
  | .error .suspended =>
    obtain ⟨hmode, t, ht, hmemo⟩ := hr
    simp [Accounted, ht, Context.suspend, hmode, hlive.error, hmemo]
  | .error .exhausted => trivial
  | .error .crashed => trivial

/-- After a faithful evaluation the context fits the outcome. -/
theorem Eval.Faithful.accounted {P : α → Prop} {x : Eval α} (hx : x.Faithful H P) {w : World}
    (hh : w.heap.Within H) (hlive : w.context.Live) : Leads x w (Accounted w.context) := by
  refine (hx w hh hlive).imp fun r w' h => ?_
  match r with
  | .ok a => exact (h trivial).2.1.accounted hlive
  | .error .failed => exact (h (.inl rfl)).2.1.accounted hlive
  | .error .suspended => exact (h (.inr rfl)).2.1.accounted hlive
  | .error .exhausted => trivial
  | .error .crashed => trivial

/-- In every reachable context a failure or a pending thunk is recorded iff the context is not live.
On every live one, and with code and foreign values of the host that keep to the same rule, what
operations, applications of functions and invocations of chunks leave on the context fits their
outcome. -/
theorem interrupts_recorded [Embedding] (hhost : Embedding.Faithful H) {w : World}
    (hw : w.heap.Within H) (hreachable : w.context.Reachable)
    (hlive : w.context.interrupt? = none) (level fuel : Nat) :
    (∀ o, Leads (engine level o) w (Accounted w.context)) ∧
    (∀ f args, Leads (applyFunction (engine level) fuel f args) w (Accounted w.context)) ∧
    (∀ (m : Machine) program chunk locals,
      Leads (m.invoke (engine level) fuel program chunk locals) w fun
        | .ok (r, _), w' => Accounted w.context r w'
        | .error i, _ => i ≠ .failed ∧ i ≠ .suspended) ∧
    ∀ c : Context, c.Reachable → (c.failed = true ↔ c.error.isSome ∨ c.pending.isSome) := by
  have hlive := hreachable.live hlive
  have hE := engine_faithful hhost level
  have := hhost.hosted level
  refine ⟨fun o => (hE o).accounted hw hlive,
    fun f args => (applyFunction_faithful hE fuel f args).accounted hw hlive,
    fun m program chunk locals => ?_, fun c hc => hc.failed_iff⟩
  refine (invoke_faithful hE fuel m program chunk locals hw hlive).imp fun r w' h => ?_
  match r with
  | .ok (r, m') => exact h.2.accounted hlive
  | .error i => exact not_or.mp h

/-- An embedding in which host code that fails is reset and yields unit, and foreign values apply
the first function of the heap. -/
@[reducible]
def Embedding.lenient : Embedding where
  toForeignText := .standard
  binary _ f op l r := f.binary op l r
  unary _ f op := f.unary op
  equal _ f other := return f.equal other
  length _ f := f.length
  get ev _ key := ev.force key
  call ev _ args := ev.perform (.call (.function ⟨0⟩) args)
  convert _ f target := f.convert target
  run E code := tryCatch (code.run E) fun
    | .failed => do
      Eval.onContext (·.reset)
      return .unit
    | i => throw i

/-- Whoever resets what has failed leaves the context as it was. -/
theorem Embedding.lenient_run_faithful {code : HostCode} (hcode : code.Honest) {E : Engine}
    (hE : ∀ o, (E o).Faithful HostCode.Honest fun _ => True) :
    (Embedding.lenient.run E code).Faithful HostCode.Honest fun _ => True := by
  intro w hw hlive
  refine leads_tryCatch.mpr ?_
  refine (hcode.faithful hE w hw hlive).imp fun r w' h => ?_
  match r with
  | .ok v => exact h
  | .error .failed =>
    obtain ⟨hw', ⟨e, he⟩, -⟩ := h (.inl rfl)
    refine fun _ => ⟨hw', ?_, fun _ _ => trivial⟩
    show w'.context.reset = w.context
    rw [he, hlive.reset_fail]
  | .error .suspended => exact h
  | .error .exhausted => exact h
  | .error .crashed => exact h

/-- Foreign values that perform operations are as faithful as these. -/
theorem Embedding.lenient_faithful : @Embedding.Faithful .lenient HostCode.Honest :=
  @Embedding.Faithful.mk .lenient _ (fun hE _ hcode => lenient_run_faithful hcode hE)
    fun hE hev hforce _ _ _ h => by
      cases h with
      | text format f => exact (ForeignAnswers.text format f).faithful hforce
      | binary f op l r => exact (ForeignAnswers.binary f op l r).faithful hforce
      | unary f op => exact (ForeignAnswers.unary f op).faithful hforce
      | equal f other => exact (ForeignAnswers.equal f other).faithful hforce
      | length f => exact (ForeignAnswers.length f).faithful hforce
      | get f key => exact hforce key
      | call f args => cases hev <;> exact hE _
      | convert f target => exact (ForeignAnswers.convert f target).faithful hforce

/-- A thunk of the host that fails once, and a function that forces it. -/
def World.flaky (mode : ForceMode) : World where
  heap :=
    { thunks := #[.waiting (.native (.latch 0 fun set =>
        if set then .done (.int 1) else .fail (.divideByZero "Divide" "Int")))]
      functions := #[⟨"force", 0, [], .native fun _ => .perform (.force (.lazy ⟨0⟩)) .done⟩] }
  context := { mode }
  host := { latches := #[false] }

/-- Applied by a foreign value in cooperative mode, the function is suspended, and the thunk is
named; in eager mode its failure is reset. -/
theorem interrupts_recorded_flaky :
    @Embedding.Faithful .lenient HostCode.Honest ∧ (World.flaky .cooperative).heap.Honest ∧
      (World.flaky .cooperative).context.Reachable ∧
      (World.flaky .cooperative).context.interrupt? = none ∧
      Leads (@engine .lenient 5 (.call (.foreign ⟨0, .sealed⟩) [])) (World.flaky .cooperative)
        (Accounted (World.flaky .cooperative).context) ∧
      (∃ w', @engine .lenient 5 (.call (.foreign ⟨0, .sealed⟩) []) (World.flaky .cooperative) =
        .error .suspended w' ∧ w'.context.pending = some ⟨0⟩) ∧
      ∃ w', @engine .lenient 6 (.call (.foreign ⟨0, .sealed⟩) []) (World.flaky .eager) =
        .ok .unit w' := by
  have hhonest : (World.flaky .cooperative).heap.Honest := by
    refine Heap.honest_of ?_ ?_
    · intro i t ht
      match i with
      | 0 =>
        cases ht
        intro set
        cases set <;> trivial
      | i + 1 => cases ht
    · intro i f hf
      match i with
      | 0 =>
        cases hf
        exact fun _ _ => trivial
      | i + 1 => cases hf
  have hreachable : (World.flaky .cooperative).context.Reachable := .fresh _ _
  refine ⟨Embedding.lenient_faithful, hhonest, hreachable, rfl, ?_, ⟨_, rfl, rfl⟩, ⟨_, rfl⟩⟩
  exact (@interrupts_recorded HostCode.Honest .lenient Embedding.lenient_faithful _ hhonest
    hreachable rfl 5 5).1 _

end LazyMachine
