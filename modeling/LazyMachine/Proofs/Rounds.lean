import LazyMachine.Proofs.Cooperation

/-!
# Rounds on a store

What a round of the cooperative machine does from each configuration: failures are handled or passed
down, results are handed to whatever waits for them, thunks are driven and instructions executed.
-/

namespace LazyMachine

variable {p : Program} {format : Format}

open Machine (Round)

namespace Conf

variable {s : Store p} {h : Heap} {e : RuntimeError} {f : Frame} {below frames : List Frame}

/-! ### Failures -/

/-- Where no frame is left, a failure ends the run. -/
theorem fail_nil : (fail e []).Turns format h (.ended (.failed e) []) h :=
  ⟨0, fun _ _ _ _ _ _ hw => by rw [← hw.heap]; rfl⟩

/-- A frame without handlers is dropped. -/
theorem fail_unhandled (hf : f.handlers = []) :
    (fail e (f :: below)).Becomes format h (drop e f.kind below) h := by
  refine ⟨0, 0, fun level fuel _ _ m w hw => ?_⟩
  rw [← hw.heap]
  simp only [turn, Machine.recover, Machine.withFrames, unwind, hf, Frame.chain_eq]
  cases f.kind <;> rfl

/-- A failure that drops the entry frame ends the run. -/
theorem drop_entry : (drop e .entry below).Turns format h (.ended (.failed e) below) h :=
  ⟨0, fun _ _ _ _ _ _ hw => by rw [← hw.heap]; rfl⟩

/-- A failure that drops a called frame goes on to its caller. -/
theorem drop_call {rest : List Value} :
    (drop e (.call rest) below).Becomes format h (fail e below) h :=
  ⟨0, 0, fun _ _ _ _ _ _ hw => by rw [← hw.heap]; rfl⟩

/-- The thunks that wait for the result of a dropped frame are released. -/
theorem drop_thunk {chain : List (Ref .thunk)} :
    (drop e (.thunk chain) below).Becomes format h (fail e below) (h.releaseChain chain) :=
  ⟨0, 0, fun _ _ _ _ _ _ hw => by rw [← hw.heap]; rfl⟩

/-! ### Results -/

/-- The result of the entry frame ends the run. -/
theorem leave_entry {v : Value} :
    (leave .entry below v).Turns format h (.ended (.done v) below) h :=
  ⟨0, fun _ _ _ _ _ _ hw => by rw [← hw.heap]; rfl⟩

/-- The result of a called frame is pushed for its caller. -/
theorem leave_call {rest : List Value} {v : Value} :
    (leave (.call rest) (f :: below) v).Turns format h
      (.running (f.pushResult f.stack v rest :: below)) h :=
  ⟨0, fun _ _ _ _ _ _ hw => by rw [← hw.heap]; rfl⟩

/-- There is always a caller; without one the run is aborted. -/
theorem leave_call_nil {rest : List Value} {v : Value} :
    (leave (.call rest) [] v).Turns format h (.ended (.aborted .noFrame) []) h :=
  ⟨0, fun _ _ _ _ _ _ hw => by rw [← hw.heap]; rfl⟩

/-- A value that is not lazy is published in the chain. -/
theorem leave_thunk {chain : List (Ref .thunk)} {v : Value} (hv : v.isLazy = false) :
    (leave (.thunk chain) below v).Turns format h (.running below) (h.completeChain chain v).2 := by
  refine ⟨0, fun level fuel _ _ m w hw => ?_⟩
  have hsettle : settle (engine level) fuel chain v w =
      .ok none { w with heap := (h.completeChain chain v).2 } := by
    rw [settle, bind_ok (Eval.resolve_ok (Heap.resolve?_of_not_lazy hv)), ← hw.heap]
    cases v <;> first | rfl | cases hv
  rw [turn, Machine.leave, bind_ok (Step.outcome_ok (Step.ofEval_ok hsettle))]
  rfl

/-- A lazy value is driven in turn. -/
theorem leave_lazy {bounds : List ℚ} {chain : List (Ref .thunk)} {t : Ref .thunk}
    (ht : s.Fits bounds (.lazy t)) :
    (leave (.thunk chain) below (.lazy t)).Becomes format s.heap (drive chain t below) s.heap := by
  cases hmemo : s.heap.memo? t with
  | none =>
    have hresolve : s.heap.resolve? (.lazy t) = some (.lazy t) :=
      Heap.resolve?_of_memo?_eq_none (by simp [Heap.resolve, Heap.follow, hmemo]) hmemo
    refine ⟨0, 0, fun level fuel _ _ m w hw => ?_⟩
    have hsettle : settle (engine level) fuel chain (.lazy t) w =
        LazyMachine.drive (engine level) fuel chain t w := by
      rw [settle, bind_ok (Eval.resolve_ok (hw.heap ▸ hresolve))]
    have houtcome : (Step.ofEval (settle (engine level) fuel chain (.lazy t))).outcome w =
        (Step.ofEval (LazyMachine.drive (engine level) fuel chain t)).outcome w := by
      rw [Step.outcome, Step.outcome, Step.ofEval, Step.ofEval, hsettle]
    have hself : { w with heap := s.heap } = w := by rw [← hw.heap]
    rw [hself, Nat.add_zero, turn, turn, Machine.leave]
    exact bind_eq_bind houtcome
  | some u =>
    -- the thunk has a value, which is published in the chain either way
    obtain ⟨hforced, hu, -⟩ := s.under_memo ht hmemo
    have hthunk := s.heap.thunk_of_getElem? t hforced
    have hresolve : s.heap.resolve? (.lazy t) = some u := by
      rw [s.resolve?_eq ht, Heap.resolve, Heap.follow, hmemo]
      cases s.heap.thunks.size <;> cases u <;> first | rfl | cases hu
    refine ⟨1, 0, fun level fuel _ hfuel m w hw => ?_⟩
    obtain ⟨rest, rfl⟩ : ∃ rest, fuel = rest + 1 := ⟨fuel - 1, by omega⟩
    have hsettle : settle (engine level) (rest + 1) chain (.lazy t) w =
        .ok none { w with heap := (s.heap.completeChain chain u).2 } := by
      rw [settle, bind_ok (Eval.resolve_ok (hw.heap ▸ hresolve)), ← hw.heap]
      cases u <;> first | rfl | cases hu
    have hdrive : LazyMachine.drive (engine level) (rest + 1) chain t w =
        .ok none { w with heap := (s.heap.completeChain chain u).2 } := by
      rw [LazyMachine.drive, bind_ok (releasing_ok (claim_forced (by rw [hw.heap, hthunk]))),
        ← Heap.completeChain_append_forced hthunk, ← hw.heap]
      rfl
    rw [← hw.heap]
    simp only [turn, Machine.leave, Bind.bind, EStateM.bind, Step.outcome, Step.ofEval, hsettle,
      hdrive, Nat.add_zero]

/-! ### Thunks -/

section Driving

variable {chain : List (Ref .thunk)} {t : Ref .thunk} {h' : Heap}

/-- The chain has its value at once, or a frame is entered for it. -/
theorem drive_ok {x : Option Frame}
    (hdrive : ∀ E fuel (w : World), w.heap = h → w.context.interrupt? = none →
      LazyMachine.drive E (fuel + 2) chain t w = .ok x { w with heap := h' }) :
    (drive chain t frames).Turns format h (.running (x.toList ++ frames)) h' := by
  refine ⟨2, fun level fuel _ hfuel m w hw => ?_⟩
  obtain ⟨rest, rfl⟩ : ∃ rest, fuel = rest + 2 := ⟨fuel - 2, by omega⟩
  rw [turn, bind_ok (Step.outcome_ok (Step.ofEval_ok (hdrive _ rest w hw.heap hw.live)))]
  cases x <;> rfl

/-- If a chain cannot be driven, the run fails. -/
theorem drive_fails
    (hdrive : ∀ E fuel (w : World), w.heap = h → w.context.interrupt? = none →
      LazyMachine.drive E (fuel + 2) chain t w = Eval.fail e { w with heap := h' }) :
    (drive chain t frames).Becomes format h (fail e frames) h' := by
  refine ⟨0, 2, fun level fuel _ _ m w hw => ?_⟩
  have hfails := Step.ofEval_error (hdrive (engine level) fuel w hw.heap hw.live)
  rw [turn, bind_ok (Step.outcome_stop hfails (.inl rfl))]
  rfl

end Driving

end Conf

/-! ### Instructions -/

/-- The frames that take the place of the top frame after an instruction. -/
def Flow.frames : Flow → List Frame
  | .next f => [{ f with pc := f.pc + 1 }]
  | .stay f => [f]
  | .jump f target => [{ f with pc := target }]
  | .enter caller callee => [callee, caller]
  | .leave _ => []

section Turn

variable {E : Engine} {fuel : Nat} {w w' : World} {f : Frame} {below : List Frame}

/-- The frames of an instruction that does not leave its frame take the place of the top frame. -/
theorem turn_flow {flow : Flow} (hadvance : f.advance E fuel w = .ok flow w')
    (hflow : ∀ v, flow ≠ .leave v) (m : Machine) :
    (m.withFrames (f :: below)).turn E fuel w =
      .ok (.running (m.withFrames (flow.frames ++ below))) w' := by
  rw [Machine.turn, Machine.withFrames]
  dsimp only
  rw [bind_ok (Step.outcome_ok hadvance)]
  cases flow with
  | leave v => exact absurd rfl (hflow v)
  | _ => rfl

/-- A frame that is left hands its result over. -/
theorem turn_leave {v : Value} (hadvance : f.advance E fuel w = .ok (.leave v) w') (m : Machine) :
    (m.withFrames (f :: below)).turn E fuel w = m.leave E fuel f.kind below v w' := by
  rw [Machine.turn, Machine.withFrames]
  dsimp only
  rw [bind_ok (Step.outcome_ok hadvance)]
  rfl

/-- A regular stop of a step halts it. -/
theorem turn_stop {stop : Stop} (hadvance : f.advance E fuel w = .error stop w')
    (hstop : stop.Regular) (m : Machine) :
    (m.withFrames (f :: below)).turn E fuel w =
      (m.withFrames (f :: below)).halt E fuel stop w' := by
  rw [Machine.turn, Machine.withFrames]
  dsimp only
  rw [bind_ok (Step.outcome_stop hadvance hstop)]

/-- An irregular one ends the run. -/
theorem turn_cut {i : Interrupt} (hadvance : f.advance E fuel w = .error (.interrupt i) w')
    (hi : ¬ Stop.Regular (.interrupt i)) (m : Machine) :
    (m.withFrames (f :: below)).turn E fuel w = .error i w' := by
  rw [Machine.turn, Machine.withFrames]
  dsimp only
  rw [bind_error (Step.outcome_cut hadvance hi)]

end Turn

namespace Conf

variable {s s₁ : Store p} {h' : Heap} {e : RuntimeError} {f : Frame} {below : List Frame}
  {L n : Nat}

/-- An answer of an instruction holds at all higher levels. -/
theorem advance_lift {level fuel : Nat} {w : World} {r : EStateM.Result Stop World Flow}
    (hadvance : f.advance (engine L) n w = r)
    (hr : ∀ w', r ≠ .error (.interrupt .exhausted) w') (hlevel : L ≤ level) (hfuel : n ≤ fuel) :
    f.advance (engine level) fuel w = r := by
  rw [← hadvance]
  refine (advance_approximates (engine_approximates hlevel) hfuel f).eq_of_ne fun w' => ?_
  rw [hadvance]
  exact hr w'

/-- The machine goes where an instruction leads. -/
theorem run_flow {flow : Flow} (hadvance : ∀ w, w.At h format False →
      f.advance (engine L) n w = .ok flow { w with heap := h' }) (hflow : ∀ v, flow ≠ .leave v) :
    (run (f :: below)).Turns format h (.running (flow.frames ++ below)) h' := by
  refine ⟨max L n, fun level fuel hlevel hfuel m w hw => ?_⟩
  have hlift := advance_lift (hadvance w hw) (by simp) (le_of_max_le_left hlevel)
    (le_of_max_le_right hfuel)
  exact turn_flow hlift hflow m

/-- It leaves a frame where an instruction does. -/
theorem run_leave {v : Value} (hadvance : ∀ w, w.At h format False →
      f.advance (engine L) n w = .ok (.leave v) { w with heap := h' }) :
    (run (f :: below)).Becomes format h (leave f.kind below v) h' := by
  refine ⟨max L n, 0, fun level fuel hlevel hfuel m w hw => ?_⟩
  have hlift := advance_lift (hadvance w hw) (by simp) (le_of_max_le_left hlevel)
    (le_of_max_le_right hfuel)
  exact turn_leave hlift m

/-- It fails where an instruction does. -/
theorem run_fails (hadvance : ∀ w, w.At h format False →
      f.advance (engine L) n w = Step.ofEval (Eval.fail e) { w with heap := h' }) :
    (run (f :: below)).Becomes format h (fail e (f :: below)) h' := by
  refine ⟨max L n, 0, fun level fuel hlevel hfuel m w hw => ?_⟩
  have hlift := advance_lift (hadvance w hw) (fun _ => nofun) (le_of_max_le_left hlevel)
    (le_of_max_le_right hfuel)
  exact turn_stop hlift (.inl rfl) m

/-- It is aborted where an instruction is, with all chains released. -/
theorem run_aborts {a : Abort} (hadvance : ∀ w, w.At h format False →
      f.advance (engine L) n w = .error (.abort a) w) :
    (run (f :: below)).Turns format h (.ended (.aborted a) [])
      (h.releaseChain (claimsOf (f :: below))) := by
  refine ⟨max L n, fun level fuel hlevel hfuel m w hw => ?_⟩
  have hlift := advance_lift (hadvance w hw) (by simp) (le_of_max_le_left hlevel)
    (le_of_max_le_right hfuel)
  rw [← hw.heap]
  exact turn_stop hlift trivial m

/-- It crashes where an instruction does. -/
theorem run_crashes (hadvance : ∀ w, w.At h format False →
      f.advance (engine L) n w = .error (.interrupt .crashed) w) :
    (run (f :: below)).Turns format h .crashed h := by
  refine ⟨max L n, fun level fuel hlevel hfuel m w hw => ?_⟩
  have hlift := advance_lift (hadvance w hw) (by simp) (le_of_max_le_left hlevel)
    (le_of_max_le_right hfuel)
  rw [← hw.heap]
  exact turn_cut hlift (by simp [Stop.Regular]) m

/-- The thunk that an instruction is suspended on is taken off the context and driven. -/
theorem resume_suspend {E : Engine} {fuel : Nat} {t : Ref .thunk} {w : World} {strict : Prop}
    (hw : w.At h format strict) :
    resume E (fuel + 1) { w with context := w.context.suspend t } =
      (tryCatch (Step.ofEval (LazyMachine.drive E fuel [] t)) fun
        | .interrupt .suspended => resume E fuel
        | stop => throw stop : Step (Option Frame)) w := by
  obtain ⟨heap, context, host, executed⟩ := w
  have hcontext := hw.context
  dsimp only at hcontext
  rw [hcontext]
  rfl

/-- The machine drives the thunk that an instruction is suspended on. -/
theorem resume_suspended {E : Engine} {fuel : Nat} {t : Ref .thunk} {w : World} {strict : Prop}
    (hw : w.At h format strict)
    (hdrive : ∀ w', LazyMachine.drive E fuel [] t w ≠ .error .suspended w') :
    resume E (fuel + 1) { w with context := w.context.suspend t } =
      Step.ofEval (LazyMachine.drive E fuel [] t) w := by
  rw [resume_suspend hw]
  simp only [tryCatch, tryCatchThe, MonadExceptOf.tryCatch, EStateM.tryCatch, Step.ofEval]
  cases hresult : LazyMachine.drive E fuel [] t w with
  | ok x w' => rfl
  | error i w' =>
    cases i with
    | suspended => exact absurd hresult (hdrive w')
    | _ => rfl

/-- It drives the thunk that an instruction waits for. -/
theorem run_waits {t : Ref .thunk} {bounds : List ℚ} (hdriven : Driven s bounds [] t)
    (hadvance : ∀ w, w.At s.heap format False →
      f.advance (engine L) n w = Step.ofEval (Eval.suspend t) w) :
    (run (f :: below)).Becomes format s.heap (drive [] t (f :: below)) s.heap := by
  refine ⟨max L n + 2, 1, fun level fuel hlevel hfuel m w hw => ?_⟩
  obtain ⟨rest, rfl⟩ : ∃ rest, fuel = rest + 2 := ⟨fuel - 2, by omega⟩
  have hlift : f.advance (engine level) (rest + 2 + 1) w = Step.ofEval (Eval.suspend t) w :=
    advance_lift (hadvance w hw) (fun _ => nofun) (by omega) (by omega)
  -- driving says itself what it comes to: it is not suspended once more
  have hnot : ∀ w', LazyMachine.drive (engine level) (rest + 2) [] t w ≠ .error .suspended w' := by
    cases hdriven with
    | settles v s₁ hlater hmemo hdrive hforce => simp [hdrive _ rest w hw.heap hw.live]
    | enters chunk locals s₁ hlater hrank hchunk hlocals hdrive hforce =>
      simp [hdrive _ rest w hw.heap hw.live]
    | fails e s₁ hlater hdrive hforce =>
      rw [hdrive _ rest w hw.heap hw.live]
      exact fun _ => nofun
  have hresume := resume_suspended hw hnot
  have hturn : (run (f :: below)).turn level (rest + 2 + 1) m w =
      (m.withFrames (f :: below)).halt (engine level) (rest + 2 + 1) (.interrupt .suspended)
        { w with context := w.context.suspend t } := turn_stop hlift (.inr rfl) m
  rw [hturn, ← hw.heap]
  simp only [turn, Machine.halt, Bind.bind, EStateM.bind, Step.outcome, hresume]
  cases hresult : LazyMachine.drive (engine level) (rest + 2) [] t w with
  | ok x w' =>
    rw [Step.ofEval_ok hresult]
    cases x <;> rfl
  | error i w' =>
    rw [Step.ofEval_error hresult]
    cases i with
    | suspended => exact absurd hresult (hnot w')
    | _ => rfl

end Conf

/-! ### Handlers -/

section Handlers

/-- In either mode it is a world in one of both. -/
theorem World.At.either {w : World} {h : Heap} {strict : Prop} (hw : w.At h format strict) :
    w.At h format True :=
  ⟨hw.heap, hw.context, .inr trivial⟩

/-- The circumstances of operations that force nothing. -/
def Regime.idle (format : Format) (bounds : List ℚ) : Regime p where
  engine := LazyMachine.engine 0
  fuel := 0
  format
  spare := True
  strict := True
  bounds
  resumes _ _ _ _ _ _ _ _ hforce := nomatch hforce

/-- The circumstances of cooperative operations at a level. -/
def Regime.lax (format : Format) (bounds : List ℚ) (level : Nat) : Regime p where
  engine := LazyMachine.engine level
  fuel := level
  format
  spare := True
  strict := False
  bounds
  resumes _ _ _ _ _ hw hmode _ _ := by
    have := hw.covered.resolve_right id
    rw [hmode] at this
    cases this

/-- The value by which a handler learns of a failure fits the store. -/
theorem exists_errorValue (s : Store p) (format : Format) (bounds : List ℚ) (e : RuntimeError) :
    ∃ v s', s.Later s' ∧ s'.Fits bounds v ∧ ∀ w, w.At s.heap format True →
      errorValue (some e) w = .ok v { w with heap := s'.heap } := by
  let c : Regime p := .idle format bounds
  have hprompt : c.Prompt s (errorValue (some e)) c.Fits := by
    refine (Regime.Prompt.makeStr _).bind fun s₁ kind h₁ hkind => ?_
    refine (Regime.Prompt.makeStr _).bind fun s₂ op h₂ hop => ?_
    refine (Regime.Prompt.makeStr _).bind fun s₃ message h₃ hmessage => ?_
    refine (Regime.Prompt.makeRecord fun x hx => ?_).bind fun s₄ record h₄ hrecord =>
      .makeVariant _ hrecord
    simp only [List.mem_cons, List.not_mem_nil, or_false] at hx
    rcases hx with rfl | rfl | rfl
    · exact h₃.fits (h₂.fits hkind)
    · exact h₃.fits hop
    · exact hmessage
  rcases hprompt with ⟨v, s', hlater, hv, h⟩ | ⟨e', s', hlater, h⟩
  · exact ⟨v, s', hlater, hv, h⟩
  · -- making a value does not fail
    let w : World := { heap := s.heap, context := { format } }
    obtain ⟨⟨v, hv⟩, -⟩ := (errorValue_leads (some e) w).of_error (h w ⟨rfl, rfl, .inr trivial⟩)
    cases hv

/-- A failure goes on at the handler of the top frame, whichever frame that is. -/
theorem exists_handled (s : Store p) (format : Format) (bounds : List ℚ) (e : RuntimeError) :
    ∃ v s', s.Later s' ∧ s'.Fits bounds v ∧
      ∀ (f : Frame) (below : List Frame) (handler : Handler) (handlers : List Handler),
        f.handlers = handler :: handlers → ∀ (m : Machine) (w : World), w.At s.heap format True →
        (m.withFrames (f :: below)).recover (.interrupt .failed)
          { w with context := w.context.fail e } =
          .ok (.running (m.withFrames (f.handle handler handlers v :: below)))
            { w with heap := s'.heap } := by
  obtain ⟨v, s', hlater, hv, hvalue⟩ := exists_errorValue s format bounds e
  refine ⟨v, s', hlater, hv, fun f below handler handlers hf m w hw => ?_⟩
  have hreset : (w.context.fail e).reset = w.context := by
    rw [hw.context]
    rfl
  have herror : (w.context.fail e).error = some e := by
    rw [hw.context]
    rfl
  simp only [Machine.recover, Machine.withFrames, unwind, hf, Eval.context_apply,
    Eval.onContext_apply, Bind.bind, EStateM.bind, Pure.pure, EStateM.pure, herror, hreset,
    hvalue w hw]

end Handlers

/-! ### Progress -/

section Progress

variable {s s₁ : Store p} {f : Frame} {below frames : List Frame}

/-- The frames after an instruction fit the store that it leads to. -/
theorem StackSound.flow {flow : Flow} (hframes : StackSound s (f :: below)) (hs : s.Later s₁)
    (hflow : flow.Sound s₁ (s.boundsOn (f :: below)) f.kind) (hleave : ∀ v, flow ≠ .leave v) :
    StackSound s₁ (flow.frames ++ below) := by
  cases flow with
  | next g => exact hframes.replace hs ⟨hflow.1.program, hflow.1.locals, hflow.1.stack⟩ hflow.2
  | stay g => exact hframes.replace hs hflow.1 hflow.2
  | jump g target =>
    exact hframes.replace hs ⟨hflow.1.program, hflow.1.locals, hflow.1.stack⟩ hflow.2
  | enter caller callee =>
    obtain ⟨⟨hcaller, hkind⟩, hcallee, rest, hcall, hrest⟩ := hflow
    have hstack := hframes.replace hs hcaller hkind
    have hbounds : s₁.boundsOn (caller :: below) = s.boundsOn (f :: below) := by
      rw [← hframes.boundsOn_eq hs, s₁.boundsOn_cons, s₁.boundsOn_cons, hkind]
    rw [← hbounds] at hcallee hrest
    exact hstack.enter hcallee hcall hrest
  | leave v => exact absurd rfl (hleave v)

/-- The handler of a frame goes on with values that fit. -/
theorem StackSound.handle {handler : Handler} {handlers : List Handler} {v : Value}
    (hframes : StackSound s (f :: below)) (hs : s.Later s₁)
    (hv : s₁.Fits (s.boundsOn (f :: below)) v) :
    StackSound s₁ (f.handle handler handlers v :: below) := by
  refine hframes.replace hs ⟨hframes.1.program, (hframes.1.later hs).locals, fun u hu => ?_⟩ rfl
  rcases List.mem_cons.mp hu with rfl | hu
  · exact hv
  · exact (hframes.1.later hs).stack u (List.mem_of_mem_drop hu)

/-- The result of a call goes on the stack of the caller. -/
theorem StackSound.pushResult {rest : List Value} {v : Value} (hframes : StackSound s (f :: below))
    (hv : s.Fits (s.boundsOn (f :: below)) v)
    (hrest : ∀ u ∈ rest, s.Fits (s.boundsOn (f :: below)) u) :
    StackSound s (f.pushResult f.stack v rest :: below) := by
  refine hframes.replace (.refl s) (hframes.1.pushResult hframes.1.stack hv hrest) ?_
  unfold Frame.pushResult
  split <;> rfl

/-- The configuration fits the store. -/
def Conf.Sound (s : Store p) : Conf → Prop
  | .run frames | .fail _ frames => StackSound s frames
  | .drive chain t frames => StackSound s frames ∧ s.Descends (chain ++ [t]) ∧
      ∀ u ∈ chain ++ [t], ∀ b ∈ s.boundsOn frames, s.rank .thunk u.index < b
  | .leave kind below v => StackSound s below ∧ kind.Sound s (s.boundsOn below) ∧
      s.Fits (s.boundsOf kind.chain ++ s.boundsOn below) v
  | .drop _ kind below => StackSound s below ∧ kind.Sound s (s.boundsOn below)

/-- The frames that go on fit the store. -/
def Turned.Sound (s : Store p) : Turned → Prop
  | .running frames => StackSound s frames
  | _ => True

/-- The round from the configuration comes to something that fits a later store. -/
def Conf.Progresses (format : Format) (s : Store p) (c : Conf) : Prop :=
  ∃ o s₁, s.Later s₁ ∧ Turned.Sound s₁ o ∧ c.Turns format s.heap o s₁.heap

namespace Conf

variable {c c' : Conf} {e : RuntimeError}

/-- A machine that becomes one that progresses does so itself. -/
theorem Becomes.progresses (hc : c.Becomes format s.heap c' s₁.heap) (hs : s.Later s₁)
    (hprogress : c'.Progresses format s₁) : c.Progresses format s := by
  obtain ⟨o, s₂, hlater, ho, hturns⟩ := hprogress
  exact ⟨o, s₂, hs.trans hlater, ho, hc.turns_iff.mpr hturns⟩

/-- A failing machine progresses, frame by frame. -/
theorem progresses_fail (hframes : StackSound s frames) : (fail e frames).Progresses format s := by
  induction frames generalizing s with
  | nil => exact ⟨.ended (.failed e) [], s, .refl s, trivial, fail_nil⟩
  | cons f below ih =>
    cases hf : f.handlers with
    | cons handler handlers =>
      obtain ⟨v, s₁, hlater, hv, hrecover⟩ :=
        exists_handled s format (s.boundsOn (f :: below)) e
      refine ⟨.running (f.handle handler handlers v :: below), s₁, hlater,
        hframes.handle hlater hv, 0, fun level fuel _ _ m w hw => ?_⟩
      exact hrecover f below handler handlers hf m w hw.either
    | nil =>
      refine Becomes.progresses (fail_unhandled hf) (.refl s) ?_
      obtain ⟨-, hkind, hbelow⟩ := hframes
      cases hk : f.kind with
      | entry => exact ⟨.ended (.failed e) below, s, .refl s, trivial, drop_entry⟩
      | call rest => exact drop_call.progresses (.refl s) (ih hbelow)
      -- the chain of a dropped thunk frame waits again
      | thunk chain =>
        obtain ⟨s₁, hheap, -, hlater⟩ := s.exists_later_releaseChain chain
        have hdrop :
            (drop e (.thunk chain) below).Becomes format s.heap (fail e below) s₁.heap := by
          rw [hheap]
          exact drop_thunk
        exact hdrop.progresses hlater (ih (hbelow.later hlater))

/-- The frame of a thunk's code may be entered. -/
theorem stackSound_thunkFrame {chain : List (Ref .thunk)} {chunk : Nat} {locals : List Value}
    (hframes : StackSound s frames) (hs : s.Later s₁) (hrank : s₁.rank = s.rank)
    (hchain : s.Descends chain)
    (hbounds : ∀ u ∈ chain, ∀ b ∈ s.boundsOn frames, s.rank .thunk u.index < b)
    (hlocals : ∀ v ∈ locals, s₁.Fits (s.boundsOf chain ++ s.boundsOn frames) v) :
    StackSound s₁ (thunkFrame p chunk locals chain :: frames) := by
  have hbelow := hframes.boundsOn_eq hs
  have hbounds' : s₁.boundsOn (thunkFrame p chunk locals chain :: frames) =
      s.boundsOf chain ++ s.boundsOn frames := by
    rw [s₁.boundsOn_cons, hbelow]
    simp only [Store.boundsOf, hrank]
    rfl
  refine ⟨⟨rfl, fun v hv => ?_, by simp [thunkFrame]⟩, ?_, hframes.later hs⟩
  · rw [hbounds']
    exact hlocals v (by simpa [thunkFrame] using hv)
  · rw [hbelow]
    refine ⟨hchain.of_rank_eq hrank hs.size, ?_⟩
    rw [hrank]
    exact hbounds

/-- A driving machine progresses, along the chain. -/
theorem progresses_drive {chain : List (Ref .thunk)} {t : Ref .thunk}
    (hc : (drive chain t frames).Sound s) : (drive chain t frames).Progresses format s := by
  obtain ⟨hframes, hchain, hbounds⟩ := hc
  cases drive_cases hchain hbounds with
  | settles v s₁ hlater hmemo hdrive hforce =>
    exact ⟨.running frames, s₁, hlater, hframes.later hlater, drive_ok hdrive⟩
  | enters chunk locals s₁ hlater hrank hchunk hlocals hdrive hforce =>
    exact ⟨.running (thunkFrame p chunk locals (chain ++ [t]) :: frames), s₁, hlater,
      stackSound_thunkFrame hframes hlater hrank hchain hbounds hlocals, drive_ok hdrive⟩
  | fails e s₁ hlater hdrive hforce =>
    exact (drive_fails hdrive).progresses hlater (progresses_fail (hframes.later hlater))

/-- A frame may be left with a value that fits like its own. -/
theorem sound_leave {v : Value} (hframes : StackSound s (f :: below)) (hs : s.Later s₁)
    (hv : s₁.Fits (s.boundsOn (f :: below)) v) : (leave f.kind below v).Sound s₁ := by
  have hbelow := hframes.2.2
  refine ⟨hbelow.later hs, ?_, ?_⟩
  · rw [hbelow.boundsOn_eq hs]
    exact hframes.2.1.later hs
  · rw [← s₁.boundsOn_cons f below, hframes.boundsOn_eq hs]
    exact hv

/-- A lazy result is driven for the chain that waits for it. -/
theorem sound_drive {chain : List (Ref .thunk)} {t : Ref .thunk}
    (hc : (leave (.thunk chain) below (.lazy t)).Sound s) : (drive chain t below).Sound s := by
  obtain ⟨hbelow, ⟨hchain, hbounds⟩, hv⟩ := hc
  refine ⟨hbelow, hchain.append hv, fun u hu b hb => ?_⟩
  rcases List.mem_append.mp hu with hu | hu
  · exact hbounds u hu b hb
  · cases List.mem_singleton.mp hu
    exact hv.below (.thunk, t.index) rfl b (List.mem_append_right _ hb)

/-- A machine that leaves a frame progresses. -/
theorem progresses_leave {kind : FrameKind} {v : Value} (hc : (leave kind below v).Sound s) :
    (leave kind below v).Progresses format s := by
  cases kind with
  | entry => exact ⟨.ended (.done v) below, s, .refl s, trivial, leave_entry⟩
  | call rest =>
    obtain ⟨hbelow, hrest, hv⟩ := hc
    cases below with
    | nil => exact ⟨.ended (.aborted .noFrame) [], s, .refl s, trivial, leave_call_nil⟩
    | cons f below =>
      exact ⟨.running (f.pushResult f.stack v rest :: below), s, .refl s,
        hbelow.pushResult hv hrest, leave_call⟩
  | thunk chain =>
    by_cases hlazy : v.isLazy = false
    · obtain ⟨hbelow, ⟨hchain, hbounds⟩, hv⟩ := hc
      obtain ⟨s₁, hheap, -, hlater, -⟩ := s.exists_later_completeChain hchain hbounds hlazy hv
      refine ⟨.running below, s₁, hlater, hbelow.later hlater, ?_⟩
      rw [hheap]
      exact leave_thunk hlazy
    · obtain ⟨t, rfl⟩ : ∃ t, v = .lazy t := by cases v <;> simp_all [Value.isLazy]
      exact (leave_lazy hc.2.2).progresses (.refl s) (progresses_drive (sound_drive hc))

/-- A thunk that an instruction waits on is driven. -/
theorem sound_waits {t : Ref .thunk} (hframes : StackSound s frames)
    (ht : s.Fits (s.boundsOn frames) (.lazy t)) : (drive [] t frames).Sound s := by
  refine ⟨hframes, ⟨?_, by simp⟩, ?_⟩
  · exact List.forall_mem_singleton.mpr (ht.held (.thunk, t.index) rfl)
  · simpa using ht.below (.thunk, t.index) rfl

/-- What the top frame does next. -/
theorem advance_stride (format : Format) (hframes : StackSound s (f :: below)) :
    (Regime.lax format (s.boundsOn (f :: below)) s.heap.extent).Stride f.Aborts s
      (f.advance (engine (s.heap.extent + 1)) 1) fun s' =>
        Flow.Sound s' (s.boundsOn (f :: below)) f.kind :=
  Regime.Stride.advance (fun _ => Nat.one_pos) hframes.1 fun _ _ _ => id

/-- A running machine progresses, whatever its next instruction does. -/
theorem progresses_run (hframes : StackSound s frames) : (run frames).Progresses format s := by
  cases frames with
  | nil =>
    refine ⟨.ended (.aborted .noFrame) [], s, .refl s, trivial, 0, fun _ _ _ _ m w hw => ?_⟩
    rw [← hw.heap]
    rfl
  | cons f below =>
    have hmode {w : World} (hw : w.At s.heap format False) : w.context.mode = .cooperative :=
      hw.covered.resolve_right id
    -- what the instruction can do at all decides the round: one case for each way
    cases advance_stride format hframes with
    | makes flow s₁ hlater hflow h =>
      by_cases hleave : ∃ v, flow = .leave v
      · obtain ⟨v, rfl⟩ := hleave
        exact (run_leave h).progresses hlater (progresses_leave (sound_leave hframes hlater hflow))
      · have hleave (v : Value) : flow ≠ .leave v := fun h => hleave ⟨v, h⟩
        exact ⟨.running (flow.frames ++ below), s₁, hlater, hframes.flow hlater hflow hleave,
          run_flow h hleave⟩
    | fails e s₁ hlater h =>
      exact (run_fails h).progresses hlater (progresses_fail (hframes.later hlater))
    | waits t ht hmemo hc he =>
      have hdrive := sound_waits hframes ht
      have hcases := drive_cases hdrive.2.1 hdrive.2.2
      exact (run_waits hcases fun w hw => hc w hw (hmode hw)).progresses (.refl s)
        (progresses_drive hdrive)
    | stops stop hstop h =>
      rcases hstop with ⟨a, rfl, -⟩ | rfl
      · obtain ⟨s₁, hheap, -, hlater⟩ := s.exists_later_releaseChain (claimsOf (f :: below))
        refine ⟨.ended (.aborted a) [], s₁, hlater, trivial, ?_⟩
        rw [hheap]
        exact run_aborts h
      · exact ⟨.crashed, s, .refl s, trivial, run_crashes h⟩
    | cut hshort h => exact absurd ⟨Nat.le_refl _, trivial⟩ hshort

end Conf

end Progress

end LazyMachine
