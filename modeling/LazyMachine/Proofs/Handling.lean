import LazyMachine.Proofs.Placement
import LazyMachine.Proofs.Recording

/-!
# Failures and handlers

A failure goes to the handler that was installed last in the nearest frame that has one. Between the
rounds of a run the context is live. Where an evaluation fails in a round (`Snapshot.FailsIn`), the
context has recorded one failure since, and `unwind` hands exactly that to the handler, or the run
to the host if no frame has a handler (`failures_handled`). Aborts pass by all handlers.

Which handlers a frame has is a matter of the instructions executed in it: each round leaves the
handlers of the frames below alone, and the top frame installs or removes one at most
(`Snapshot.Sound.handlers`).
-/

namespace LazyMachine

variable {p : Program} {format : Format} {level : Nat}

open Machine (Round)

/-! ### What a handler is given -/

/-- The value tells of the failure: it is a variant `Error` of a record of the kind of failure, the
operation and the message. -/
def Heap.Tells (h : Heap) (e : RuntimeError) (v : Value) : Prop :=
  ∃ variant record tag kind op message, v = .variant variant ∧
    h.variant variant = ⟨⟨tag, "Error"⟩, .record record⟩ ∧
    h.record record = ⟨[("kind", .str ⟨kind, e.kind.name⟩), ("op", .str ⟨op, e.op⟩),
      ("message", .str ⟨message, e.message⟩)]⟩

theorem errorValue_tells (e : RuntimeError) (w : World) :
    ∃ v h, errorValue (some e) w = .ok v { w with heap := h } ∧ h.Tells e v := by
  let stamp := w.heap.nextStamp
  let record : Record := ⟨[("kind", .str ⟨stamp, e.kind.name⟩), ("op", .str ⟨stamp + 1, e.op⟩),
    ("message", .str ⟨stamp + 2, e.message⟩)]⟩
  let variant : Variant := ⟨⟨stamp + 3, "Error"⟩, .record ⟨w.heap.records.size⟩⟩
  let h : Heap := { w.heap with
    records := w.heap.records.push record
    variants := w.heap.variants.push variant
    nextStamp := stamp + 4 }
  have hvariant : h.variant ⟨w.heap.variants.size⟩ = variant := by simp [Heap.variant, h]
  have hrecord : h.record ⟨w.heap.records.size⟩ = record := by simp [Heap.record, h]
  exact ⟨_, h, rfl, _, _, _, _, _, _, rfl, hvariant, hrecord⟩

/-- What is kept of the stack: as many of the lowest values as there were when the handler was
installed, if there still are as many. -/
theorem Frame.handle_eq (f : Frame) (handler : Handler) (handlers : List Handler) (v : Value) :
    f.handle handler handlers v = { f with
      stack := v :: (f.stack.reverse.take (min handler.depth f.stack.length)).reverse
      pc := handler.target
      handlers
      pendingCall := none } := by
  have hkept : f.stack.drop (f.stack.length - handler.depth) =
      (f.stack.reverse.take (min handler.depth f.stack.length)).reverse := by
    rw [List.take_reverse, List.reverse_reverse]
    congr 1
    omega
  rw [Frame.handle, hkept]

/-! ### The search for a handler -/

section Search

variable {c : Context} {e : RuntimeError} {w : World}

theorem context_ok (w : World) : Eval.context w = .ok w.context w := rfl

/-- A frame without a handler is dropped, unless it is the entry. -/
theorem unwind_drop {g : Frame} {below : List Frame} (hhandlers : g.handlers = [])
    (hkind : g.kind ≠ .entry) :
    unwind (g :: below) w = unwind below { w with heap := w.heap.releaseChain g.chain } := by
  rw [unwind]
  simp only [hhandlers]
  cases hk : g.kind with
  | entry => exact absurd hk hkind
  | call rest => rfl
  | thunk chain => rfl

/-- The nearest frame with a handler is given the recorded failure; the context is live again. -/
theorem unwind_handles {f : Frame} {above : List Frame} {handler : Handler}
    {handlers : List Handler} (below : List Frame) (hc : c.Live) (hcontext : w.context = c.fail e)
    (habove : ∀ g ∈ above, g.handlers = [] ∧ g.kind ≠ .entry)
    (hf : f.handlers = handler :: handlers) :
    ∃ v w', unwind (above ++ f :: below) w = .ok (true, f.handle handler handlers v :: below) w' ∧
      w'.heap.Tells e v ∧ w'.context = c := by
  induction above generalizing w with
  | nil =>
    have herror : w.context.error = some e := by rw [hcontext, Context.fail, hc.error]; rfl
    have hreset : w.context.reset = c := by rw [hcontext, hc.reset_fail]
    obtain ⟨v, h, hvalue, htells⟩ := errorValue_tells e { w with context := c }
    refine ⟨v, { w with context := c, heap := h }, ?_, htells, rfl⟩
    have hreset' : Eval.onContext (·.reset) w = .ok () { w with context := c } := by
      rw [← hreset]
      rfl
    rw [List.nil_append, unwind]
    simp only [hf]
    rw [bind_ok (context_ok w), bind_ok hreset', herror, bind_ok hvalue]
    rfl
  | cons g above ih =>
    obtain ⟨⟨hhandlers, hkind⟩, habove⟩ := List.forall_mem_cons.mp habove
    -- the frame is dropped, and the thunks that wait for it are released
    obtain ⟨v, w', hunwind, htells⟩ :=
      ih (w := { w with heap := w.heap.releaseChain g.chain }) hcontext habove
    refine ⟨v, w', ?_, htells⟩
    rw [List.cons_append, unwind_drop hhandlers hkind, hunwind]

/-- Without a handler the failure stays recorded. -/
theorem unwind_unhandled {frames : List Frame} (hframes : ∀ g ∈ frames, g.handlers = []) :
    ∃ below w', unwind frames w = .ok (false, below) w' ∧ w'.context = w.context := by
  induction frames generalizing w with
  | nil => exact ⟨[], w, rfl, rfl⟩
  | cons g below ih =>
    obtain ⟨hhandlers, hbelow⟩ := List.forall_mem_cons.mp hframes
    -- the search ends at the entry even if there were frames below it
    by_cases hkind : g.kind = .entry
    · exact ⟨below, w, by simp only [unwind, hhandlers, hkind]; rfl, rfl⟩
    · obtain ⟨frames', w', hunwind, hcontext⟩ :=
        ih (w := { w with heap := w.heap.releaseChain g.chain }) hbelow
      exact ⟨frames', w', by rw [unwind_drop hhandlers hkind, hunwind], hcontext⟩

end Search

/-- No frame above another one is the entry. -/
theorem Stacked.kind_ne_entry {f : Frame} {above below : List Frame}
    (hs : Stacked (above ++ f :: below)) : ∀ g ∈ above, g.kind ≠ .entry := by
  induction above with
  | nil => exact nofun
  | cons g above ih =>
    rw [List.cons_append, Stacked] at hs
    split at hs
    · simp at hs
    · next hkind => exact List.forall_mem_cons.mpr ⟨hkind, ih hs⟩

/-- A new frame has no handlers. -/
theorem Frame.Started.handlers_eq {f : Frame} (hf : f.Started) : f.handlers = [] := by
  obtain ⟨locals, hf⟩ := hf
  unfold Frame.enter? at hf
  split at hf
  · exact (congrArg Frame.handlers (Option.some.inj hf)).symm
  · cases hf

/-- The handlers of a frame after what it does next. -/
def Frame.nextHandlers (f : Frame) : List Handler :=
  match f.pendingCall, f.instr? with
  | none, some instr => f.handlersAfter instr
  | _, _ => f.handlers

theorem Frame.nextHandlers_of_pending {f : Frame} (hpending : f.pendingCall ≠ none) :
    f.nextHandlers = f.handlers := by
  unfold Frame.nextHandlers
  split
  · next hnone _ => exact absurd hnone hpending
  · rfl

/-- Handlers are installed and removed by instructions that go through. -/
theorem Frame.nextHandlers_of_error {E : Engine} {fuel : Nat} {f : Frame} {stop : Stop}
    {w w' : World} (hadvance : f.advance E fuel w = .error stop w') :
    f.nextHandlers = f.handlers := by
  unfold Frame.nextHandlers
  split
  · next instr hpending hinstr =>
    unfold Frame.handlersAfter
    -- the two instructions that change the handlers always go through
    split
    · simp only [Frame.advance, hpending, hinstr, Frame.step] at hadvance
      cases hadvance
    · simp only [Frame.advance, hpending, hinstr, Frame.step] at hadvance
      cases hadvance
    · rfl
  · rfl

/-! ### Rounds that fail -/

namespace Snapshot

variable {a b : Snapshot} {frames : List Frame} {w : World}

/-- An evaluation fails in the round, and the world is `w` by then. The frames are all of those of
the state, unless the top one had been left when its result was driven. -/
inductive FailsIn (E : Engine) (a : Snapshot) : List Frame → World → Prop
  | instruction {f : Frame} {below : List Frame} {w : World} (hframes : a.frames = f :: below)
      (hadvance : f.advance E a.fuel a.world.counted = .error (.interrupt .failed) w) :
      FailsIn E a (f :: below) w
  | driving {chain : List (Ref .thunk)} {waiting : List Frame} {w : World}
      (hdrives : a.Drives E chain waiting (.error (.interrupt .failed) w)) : FailsIn E a waiting w

/-- The machine of a round, which has been counted. -/
def counted (a : Snapshot) : Machine :=
  { a.machine with steps := a.machine.steps + 1 }

theorem Sound.context (ha : a.Sound p format) :
    a.world.context = { mode := .cooperative, format } := by
  obtain ⟨s, hw, -⟩ := ha.fits
  rw [hw.context, hw.covered.resolve_right id]

/-- One failure is recorded. -/
theorem FailsIn.recorded (ha : a.Sound p format) (hfails : a.FailsIn (engine level) frames w) :
    ∃ e, w.context = a.world.context.fail e := by
  cases hfails with
  | instruction hframes hadvance =>
    obtain ⟨s, hw, hstack⟩ := ha.fits
    rw [hframes] at hstack
    obtain ⟨e, h, rfl⟩ := (advance_spec hstack hw.counted).of_error hadvance
    exact ⟨e, rfl⟩
  | driving hdrives =>
    obtain ⟨i, hi, hstops⟩ := (ha.drives hdrives).of_error rfl
    cases hi
    obtain ⟨-, e, h, rfl⟩ := hstops.resolve_left nofun
    exact ⟨e, rfl⟩

/-- The entry is at the bottom of the frames. -/
theorem FailsIn.stacked (ha : a.Sound p format) (hfails : a.FailsIn (engine level) frames w) :
    Stacked frames := by
  have hstacked := ha.stacked
  cases hfails with
  | instruction hframes hadvance => rwa [hframes] at hstacked
  | driving hdrives =>
    rcases hdrives.frames_eq with ⟨-, hframes⟩ | ⟨f, hkind, hframes⟩
    · rwa [hframes] at hstacked
    · rwa [hframes, Stacked, hkind] at hstacked

/-- Below the limit a round executes an instruction. -/
theorem Allowed.round_eq {E : Engine} (hallowed : a.Allowed) :
    a.machine.round E a.fuel a.world = a.counted.turn E a.fuel a.world.counted :=
  Machine.round_below hallowed E a.fuel a.world

/-- The failure is handed to the frames. -/
theorem FailsIn.round_eq {E : Engine} (hallowed : a.Allowed) (hfails : a.FailsIn E frames w) :
    a.machine.round E a.fuel a.world =
      (a.counted.withFrames frames).recover (.interrupt .failed) w := by
  rw [hallowed.round_eq]
  have hsame {frames : List Frame} (hframes : a.frames = frames) :
      a.counted = a.counted.withFrames frames := by
    rw [← hframes]
    rfl
  cases hfails with
  | instruction hframes hadvance =>
    rw [hsame hframes, turn_stop hadvance (.inl rfl)]
    rfl
  | driving hdrives =>
    -- `Drives` has the outcome as an index, which has to be a variable for the case split
    generalize hr : EStateM.Result.error (Stop.interrupt .failed) w = r at hdrives
    cases hdrives with
    | awaited hframes hadvance =>
      rw [hsame hframes, turn_stop hadvance (.inr rfl)]
      exact bind_ok (Step.outcome_stop hr.symm (.inl rfl))
    | result hframes hkind hadvance =>
      rw [hsame hframes, turn_leave hadvance, hkind]
      exact bind_ok (Step.outcome_stop hr.symm (.inl rfl))

/-- The nearest handler takes the failure. -/
theorem FailsIn.handled {f : Frame} {above below : List Frame} {handler : Handler}
    {handlers : List Handler} {e : RuntimeError} (ha : a.Sound p format) (hallowed : a.Allowed)
    (hfails : a.FailsIn (engine level) frames w) (he : w.context = a.world.context.fail e)
    (hframes : frames = above ++ f :: below) (habove : ∀ g ∈ above, g.handlers = [])
    (hf : f.handlers = handler :: handlers) :
    ∃ v w', a.machine.round (engine level) a.fuel a.world =
        .ok (.running (a.counted.withFrames (f.handle handler handlers v :: below))) w' ∧
      w'.heap.Tells e v ∧ w'.context = a.world.context := by
  have hlive : a.world.context.Live := by rw [ha.context]; exact ⟨rfl, rfl, rfl⟩
  have hkinds : ∀ g ∈ above, g.handlers = [] ∧ g.kind ≠ .entry := by
    intro g hg
    refine ⟨habove g hg, ?_⟩
    exact Stacked.kind_ne_entry (hframes ▸ hfails.stacked ha) g hg
  obtain ⟨v, w', hunwind, htells, hcontext⟩ := unwind_handles below hlive he hkinds hf
  refine ⟨v, w', ?_, htells, hcontext⟩
  rw [hfails.round_eq hallowed, hframes]
  exact bind_ok hunwind

/-- Without a handler the run ends. -/
theorem FailsIn.unhandled (hallowed : a.Allowed) (hfails : a.FailsIn (engine level) frames w)
    (hframes : ∀ g ∈ frames, g.handlers = []) :
    ∃ m' w', a.machine.round (engine level) a.fuel a.world = .ok (.ended .failed m') w' ∧
      w'.context = w.context := by
  obtain ⟨below, w', hunwind, hcontext⟩ := unwind_unhandled (w := w) hframes
  refine ⟨a.counted.withFrames below, w', ?_, hcontext⟩
  rw [hfails.round_eq hallowed]
  exact bind_ok hunwind

/-! ### Rounds that end the run -/

/-- A run that ends in a visited state tells the host so. -/
theorem Visited.run_eq {m m' : Machine} {w₁ w' : World} {e : Machine.Exit}
    (ha : a.Visited level m p w₁)
    (hround : a.machine.round (engine level) a.fuel a.world = .ok (.ended e m') w') :
    m.run level p w₁ =
      .ok (e.answer w'.context, m') { w' with context := e.context w'.context } := by
  obtain ⟨f, hf, hpasses⟩ := ha
  have hexecute : (m.withFrames (f :: m.frames)).execute (engine level) level w₁ =
      .ok (e, m') w' := by
    rw [hpasses.execute_eq, Machine.execute, bind_ok hround]
    rfl
  refine Leads.eq_ok ((leads_run_iff hf).mpr ?_)
  exact .of_eq_ok hexecute ⟨rfl, rfl⟩

/-- A run is given up whatever handlers there are. -/
theorem Sound.aborted {x : Abort} (ha : a.Sound p format) (hx : a.Aborts (engine level) x) :
    ∃ m' w', a.machine.round (engine level) a.fuel a.world = .ok (.ended (.aborted x) m') w' ∧
      w'.context = a.world.context := by
  rcases ha.aborts_cases hx with
    ⟨limit, rfl, hlimit, hle⟩ | ⟨f, below, hallowed, hframes, -, -, hadvance⟩
  · exact ⟨_, _, Machine.round_limit hlimit hle (engine level) a.fuel a.world, rfl⟩
  · have hmachine : a.counted = a.counted.withFrames (f :: below) := by
      rw [← hframes]
      rfl
    have hround : a.machine.round (engine level) a.fuel a.world =
        (a.counted.withFrames (f :: below)).abandon x a.world.counted := by
      rw [hallowed.round_eq, hmachine, turn_stop hadvance trivial]
      rfl
    exact ⟨_, _, hround, rfl⟩

/-! ### Handlers of frames -/

section Handlers

variable {f : Frame} {below : List Frame}

/-- What a round makes of the handlers of the frames: those below the top one keep theirs, the top
one has what its instruction leaves it, if it goes on, and a new one has none. -/
def HandlersPass (f : Frame) (below frames : List Frame) : Prop :=
  ∃ new kept, frames.map Frame.handlers = new ++ kept ++ below.map Frame.handlers ∧
    (new = [] ∨ new = [[]]) ∧ (kept = [] ∨ kept = [f.nextHandlers])

/-- An instruction that goes through leaves handlers to its own frame only. -/
theorem handlersPass_flow {flow : Flow} (hflow : flow.Follows f) (hleave : ∀ v, flow ≠ .leave v) :
    HandlersPass f below (flow.frames ++ below) := by
  have hhandlers {g : Frame} {pc : Nat} {handlers : List Handler}
      (hg : g.control = (f.task, pc, handlers)) : g.handlers = handlers := congrArg (·.2.2) hg
  -- the handlers of a frame are part of its control, and a callee starts with none
  cases hflow with
  | @next instr g hinstr hg =>
    refine ⟨[], [g.handlers], rfl, .inl rfl, .inr ?_⟩
    rw [hhandlers hg, Frame.nextHandlers, hinstr.1, hinstr.2]
  | @jump target g hinstr hg =>
    refine ⟨[], [g.handlers], rfl, .inl rfl, .inr ?_⟩
    rcases hinstr with hinstr | hinstr
    · rw [hhandlers hg, Frame.nextHandlers, hinstr.1, hinstr.2]
      rfl
    · rw [hhandlers hg, Frame.nextHandlers, hinstr.1, hinstr.2]
      rfl
  | @call count caller callee hinstr hcaller hcallee =>
    refine ⟨[[]], [caller.handlers], ?_, .inr rfl, .inr ?_⟩
    · rw [← hcallee.1.handlers_eq]
      rfl
    · rw [hhandlers hcaller, Frame.nextHandlers, hinstr.1, hinstr.2]
      rfl
  | @stay g hpending hg =>
    refine ⟨[], [g.handlers], rfl, .inl rfl, .inr ?_⟩
    rw [hhandlers hg, Frame.nextHandlers_of_pending hpending]
  | @pending caller callee hpending hcaller hcallee =>
    refine ⟨[[]], [caller.handlers], ?_, .inr rfl, .inr ?_⟩
    · rw [← hcallee.1.handlers_eq]
      rfl
    · rw [hhandlers hcaller, Frame.nextHandlers_of_pending hpending]
  | leave v => exact absurd rfl (hleave v)

/-- A round in which nothing fails leaves the handlers to the frames that installed them. -/
theorem Sound.handlers (ha : a.Sound p format) (hgoes : a.Goes (engine level) b)
    (hcalm : ¬ a.Fails (engine level)) :
    ∃ f below, a.frames = f :: below ∧ HandlersPass f below b.frames := by
  cases ha.passage hgoes with
  | @flows f below flow hframes hadvance hleave hb =>
    have hflow : flow.Follows f :=
      ((advance_follows (engine_settles level) a.fuel f _).of_ok hadvance).2 flow rfl
    exact ⟨f, below, hframes, hb ▸ handlersPass_flow hflow hleave⟩
  | @returns f caller below rest v hframes hkind hadvance hb =>
    refine ⟨f, caller :: below, hframes, [], [], ?_, .inl rfl, .inl rfl⟩
    have hcaller : (caller.pushResult caller.stack v rest).handlers = caller.handlers :=
      congrArg (·.2.2) (caller.control_pushResult caller.stack v rest)
    rw [hb, List.map_cons, hcaller]
    rfl
  | @drives chain waiting x hdrives hb =>
    -- a frame for the code of a thunk is new, and one whose instruction waits is as it was
    obtain ⟨new, hnew, hmap⟩ : ∃ new : List (List Handler), (new = [] ∨ new = [[]]) ∧
        x.toList.map Frame.handlers = new := by
      cases x with
      | none => exact ⟨[], .inl rfl, rfl⟩
      | some g =>
        obtain ⟨u, h, -, -, -, hstarted, -⟩ := (ha.drives hdrives).of_ok rfl
        exact ⟨[[]], .inr rfl, by rw [← hstarted.handlers_eq]; rfl⟩
    generalize EStateM.Result.ok x b.world = r at hdrives
    cases hdrives with
    | @awaited f below w hframes hadvance =>
      refine ⟨f, below, hframes, new, [f.nextHandlers], ?_, hnew, .inr rfl⟩
      rw [hb, List.map_append, hmap, Frame.nextHandlers_of_error hadvance, List.append_assoc]
      rfl
    | @result f _ _ v w hframes hkind hadvance =>
      refine ⟨f, waiting, hframes, new, [], ?_, hnew, .inl rfl⟩
      rw [hb, List.map_append, hmap, List.append_nil]
  | fails hfails hb => exact absurd hfails hcalm

end Handlers

end Snapshot

/-- Try catches exactly the recorded failure. Let a program run in cooperative mode, on a fresh heap
and a fresh context. In every state that the run visits the context is as it was at the start. If an
evaluation fails in the round that follows, one failure is recorded, and

* the nearest frame with a handler goes on at the handler that was installed last, which is gone,
  with the values that its stack held when the handler was installed, as far as they are there, and
  a value that tells of the failure; the frames above are gone, and the context is live again;
* if there is no handler, the host is told of the failure, and the context is live again.

A round in which nothing fails leaves the handlers to the frames that installed them. If the run is
given up, the host is told so, whatever handlers there are. -/
theorem failures_handled (p : Program) (level : Nat) (m : Machine) (hm : m.frames = []) (w : World)
    (hheap : w.heap = {}) (format : Format)
    (hcontext : w.context = { mode := .cooperative, format }) (a : Snapshot)
    (ha : a.Visited level m p w) :
    a.world.context = w.context ∧
    (∀ frames w₁, a.Allowed → a.FailsIn (engine level) frames w₁ →
      ∃ e, w₁.context = w.context.fail e ∧
        (∀ above f below handler handlers, frames = above ++ f :: below →
          (∀ g ∈ above, g.handlers = []) → f.handlers = handler :: handlers →
          ∃ v w₂, a.machine.round (engine level) a.fuel a.world =
              .ok (.running (a.counted.withFrames ({ f with
                stack := v :: (f.stack.reverse.take (min handler.depth f.stack.length)).reverse
                pc := handler.target
                handlers
                pendingCall := none } :: below))) w₂ ∧
            w₂.heap.Tells e v ∧ w₂.context = w.context) ∧
        ((∀ g ∈ frames, g.handlers = []) → ∃ m' w',
          m.run level p w = .ok (.error (.runtime e), m') w' ∧ w'.context = w.context)) ∧
    (∀ b, a.Goes (engine level) b → ¬ a.Fails (engine level) →
      ∃ f below, a.frames = f :: below ∧ Snapshot.HandlersPass f below b.frames) ∧
    ∀ x, a.Aborts (engine level) x → ∃ m' w',
      m.run level p w = .ok (.error (.aborted x), m') w' ∧ w'.context = w.context := by
  have hsound := Snapshot.Sound.visited hm hheap hcontext ha
  have hsame : a.world.context = w.context := hsound.context.trans hcontext.symm
  refine ⟨hsame, fun frames w₁ hallowed hfails => ?_,
    fun b hgoes hcalm => hsound.handlers hgoes hcalm, fun x hx => ?_⟩
  · obtain ⟨e, he⟩ := hfails.recorded hsound
    refine ⟨e, hsame ▸ he, fun above f below handler handlers hframes habove hf => ?_,
      fun hnone => ?_⟩
    · obtain ⟨v, w₂, hround, htells, hlive⟩ :=
        hfails.handled hsound hallowed he hframes habove hf
      rw [Frame.handle_eq] at hround
      exact ⟨v, w₂, hround, htells, hlive.trans hsame⟩
    · -- without a handler the round ends the run, so the run answers with what was recorded
      obtain ⟨m', w', hround, hrecorded⟩ := hfails.unhandled hallowed hnone
      have hrun := ha.run_eq hround
      rw [Machine.Exit.answer, Machine.Exit.context, hrecorded, he, hsame, hcontext] at hrun
      exact ⟨m', _, hrun, hcontext.symm⟩
  · obtain ⟨m', w', hround, hcontext'⟩ := hsound.aborted hx
    exact ⟨m', _, ha.run_eq hround, hcontext'.trans hsame⟩

/-- A call that divides by zero, with a handler that was installed below the second of two values on
the stack. -/
def dividing : Program :=
  ⟨#[⟨"main", 0, #[.push (.int 1), .attempt 5, .push (.int 2), .closure 1 0, .call 0]⟩,
    ⟨"divide", 0, #[.push (.int 3), .push (.int 0), .binary .div]⟩], 0⟩

/-- The state in which it divides. -/
def aboutToDivide : Snapshot where
  fuel := 4
  machine :=
    { frames :=
        [{ program := dividing, chunk := 1, pc := 2, locals := #[], stack := [.int 0, .int 3],
           kind := .call [] },
         { program := dividing, chunk := 0, pc := 5, locals := #[], stack := [.int 2, .int 1],
           handlers := [⟨5, 1⟩], kind := .entry }]
      steps := 7 }
  world :=
    { heap := { functions := #[⟨"divide", 0, [], .code dividing 1 []⟩] }
      context := { mode := .cooperative }
      executed := 7 }

/-- The failure of the call goes to the handler of the caller, which keeps the first value. -/
theorem failures_handled_dividing :
    aboutToDivide.Visited 12 {} dividing { context := { mode := .cooperative } } ∧
      ∃ b, aboutToDivide.Goes (engine 12) b ∧ ∃ f v, b.frames = [f] ∧ f.pc = 5 ∧
        f.stack = [v, .int 1] ∧ f.handlers = [] ∧
        b.heap.Tells (.divideByZero "Divide" "Int") v := by
  have ha : aboutToDivide.Visited 12 {} dividing { context := { mode := .cooperative } } :=
    ⟨_, rfl, .round rfl (.round rfl (.round rfl (.round rfl (.round rfl (.round rfl (.round rfl
      (.start _ _ _)))))))⟩
  obtain ⟨w₁, hfails, herror⟩ : ∃ w₁, aboutToDivide.FailsIn (engine 12) aboutToDivide.frames w₁ ∧
      w₁.context.error = some (.divideByZero "Divide" "Int") := ⟨_, .instruction rfl rfl, rfl⟩
  obtain ⟨-, hhandled, -⟩ := failures_handled dividing 12 {} rfl
    { context := { mode := .cooperative } } rfl {} rfl aboutToDivide ha
  obtain ⟨e, he, hnearest, -⟩ := hhandled _ _ nofun hfails
  obtain ⟨v, w₂, hround, htells, -⟩ := hnearest [_] _ [] ⟨5, 1⟩ [] rfl (by simp) rfl
  rw [he] at herror
  cases herror
  exact ⟨ha, ⟨3, _, _⟩, ⟨rfl, hround⟩, _, v, rfl, rfl, rfl, rfl, htells⟩

end LazyMachine
