import LazyMachine.Proofs.Rounds

/-!
# Machines within machines

In eager mode a thunk is evaluated on a machine of its own, in cooperative mode in frames on top of
those that wait for it. The frames of the inner machine are the same in both cases, except for the
lowest one: its result ends the inner machine, or it is the value of the thunks that wait for it.
-/

namespace LazyMachine

variable {p : Program} {format : Format} {E : Engine} {fuel : Nat}

/-! ### What becomes of results -/

/-- The frame with another use of its result. -/
def Frame.withKind (kind : FrameKind) (f : Frame) : Frame :=
  { f with kind }

/-- The flow with another use of the result of the frame that it goes on with. -/
def Flow.withKind (kind : FrameKind) : Flow → Flow
  | .next f => .next (f.withKind kind)
  | .stay f => .stay (f.withKind kind)
  | .jump f target => .jump (f.withKind kind) target
  | .enter caller callee => .enter (caller.withKind kind) callee
  | .leave v => .leave v

section Kinds

variable (kind : FrameKind) (f : Frame)

/-- Taking over an application does not look at the kind of the frame. -/
theorem receive_withKind (base : List Value) (a : Application) :
    (f.withKind kind).receive base a =
      (fun r => (r.1.withKind kind, r.2)) <$> f.receive base a := by
  cases a with
  | value v rest =>
    simp only [Frame.receive, Frame.pushResult, map_pure]
    split <;> rfl
  | enter program chunk locals rest =>
    simp only [Frame.receive]
    split <;> rfl

/-- Nor does a call. -/
theorem apply_withKind (count : Nat) :
    (f.withKind kind).apply E fuel count =
      (fun r => (r.1.withKind kind, r.2)) <$> f.apply E fuel count := by
  simp only [Frame.apply, map_bind]
  refine bind_congr fun need => ?_
  have hoperands : (f.withKind kind).operands need = f.operands need := rfl
  rw [hoperands]
  refine bind_congr fun operands => ?_
  split
  · rfl
  · simp only [map_bind, receive_withKind]

/-- Nor does an operation on the top of the stack. -/
theorem onTop_withKind (o : Value → Operation) :
    (f.withKind kind).onTop E o = Flow.withKind kind <$> f.onTop E o := by
  have hstack : (f.withKind kind).stack = f.stack := rfl
  simp only [Frame.onTop, hstack]
  split
  · simp only [map_bind, map_pure]
    rfl
  · rfl

/-- Nor does one on the two topmost values. -/
theorem onTwo_withKind (o : Value → Value → Operation) :
    (f.withKind kind).onTwo E o = Flow.withKind kind <$> f.onTwo E o := by
  have hstack : (f.withKind kind).stack = f.stack := rfl
  simp only [Frame.onTwo, hstack]
  split
  · simp only [map_bind, map_pure]
    rfl
  · rfl

/-- What an instruction does does not depend on the use of the result. -/
theorem step_withKind (instr : Instr) :
    (f.withKind kind).step E fuel instr = Flow.withKind kind <$> f.step E fuel instr := by
  have hstack : (f.withKind kind).stack = f.stack := rfl
  have hlocals : (f.withKind kind).locals = f.locals := rfl
  have hcapture (chunk captures : Nat) :
      (f.withKind kind).capture chunk captures = f.capture chunk captures := rfl
  have hoperands (n : Nat) : (f.withKind kind).operands n = f.operands n := rfl
  -- an instruction reads stack, locals and program of its frame, and these are the same by `rfl`
  cases instr with
  | binary | index | cons => exact onTwo_withKind kind f _
  | unary | length | head | tail | isNil | empty | tag | untag | convert | force =>
    exact onTop_withKind kind f _
  | render =>
    simp only [Frame.step, map_bind, onTop_withKind]
  | call count =>
    simp only [Frame.step, map_bind, apply_withKind, bind_map_left]
    refine bind_congr fun r => ?_
    obtain ⟨caller, callee⟩ := r
    cases callee <;> rfl
  | jump | attempt | endAttempt | ret => rfl
  | push | makeList | makeRecord | delay | closure =>
    simp only [Frame.step, hcapture, hoperands, map_bind, map_pure]
    rfl
  | load slot =>
    simp only [Frame.step, hlocals]
    split <;> rfl
  | store slot =>
    simp only [Frame.step, hstack, hlocals]
    split
    · split
      · simp only [map_bind, map_pure]
        rfl
      · rfl
    · rfl
  | pop | dup | swap =>
    simp only [Frame.step, hstack]
    split <;> rfl
  | setIndex | makeVariant =>
    simp only [Frame.step, hstack]
    split
    · simp only [map_bind, map_pure]
      rfl
    · rfl
  | jumpIfFalse target =>
    simp only [Frame.step, hstack]
    split
    · simp only [map_bind]
      refine bind_congr fun v => ?_
      split <;> rfl
    · rfl

/-- So nothing that the frame does next depends on its kind. -/
theorem advance_withKind :
    (f.withKind kind).advance E fuel = Flow.withKind kind <$> f.advance E fuel := by
  have hpending : (f.withKind kind).pendingCall = f.pendingCall := rfl
  have hinstr : (f.withKind kind).instr? = f.instr? := rfl
  unfold Frame.advance
  rw [hpending]
  split
  · next count _ =>
    have happly : Frame.apply E fuel { f.withKind kind with pendingCall := none } count =
        (fun r => (r.1.withKind kind, r.2)) <$>
          Frame.apply E fuel { f with pendingCall := none } count :=
      apply_withKind kind { f with pendingCall := none } count
    rw [happly]
    simp only [map_bind, bind_map_left]
    refine bind_congr fun r => ?_
    obtain ⟨caller, callee⟩ := r
    cases callee <;> rfl
  · rw [hinstr]
    split
    · exact step_withKind kind f _
    · rfl

end Kinds

/-! ### Nested frames -/

/-- What becomes of a result, if that of the entry has another use. -/
def FrameKind.under (kind base : FrameKind) : FrameKind :=
  match kind with
  | .entry => base
  | kind => kind

/-- The frame of an inner machine on top of other frames. -/
def Frame.under (base : FrameKind) (f : Frame) : Frame :=
  f.withKind (f.kind.under base)

/-- The frames of an inner machine on top of those outside. -/
def nest (base : FrameKind) (outside frames : List Frame) : List Frame :=
  frames.map (Frame.under base) ++ outside

/-- The frames of a machine that evaluates thunks at once: calls on top of the entry. -/
inductive Plain : List Frame → Prop
  | entry {f : Frame} (hf : f.kind = .entry) : Plain [f]
  | call {f : Frame} {rest : List Value} {below : List Frame} (hf : f.kind = .call rest)
      (hbelow : Plain below) : Plain (f :: below)

section Nested

variable {s : Store p} {base : FrameKind} {outside below frames : List Frame} {f : Frame}

/-- Frames are nested one by one. -/
@[simp]
theorem nest_cons : nest base outside (f :: below) = f.under base :: nest base outside below := rfl

/-- A frame does the same on the inner machine and on the outer one. -/
theorem advance_under (base : FrameKind) (f : Frame) :
    f.advance E fuel = Flow.withKind f.kind <$> (f.under base).advance E fuel :=
  advance_withKind f.kind (f.under base)

/-- The frames after an instruction are nested like those before. -/
theorem nest_flow {flow : Flow} {bounds : List ℚ}
    (hflow : flow.Sound s bounds (f.under base).kind) :
    nest base outside ((flow.withKind f.kind).frames ++ below) =
      flow.frames ++ nest base outside below := by
  have hself {g : Frame} (hg : g.kind = (f.under base).kind) :
      (g.withKind f.kind).under base = g := by
    cases g
    cases hg
    rfl
  cases flow with
  | next g =>
    exact congrArg (· :: nest base outside below) (hself (g := { g with pc := g.pc + 1 }) hflow.2)
  | stay g => exact congrArg (· :: nest base outside below) (hself hflow.2)
  | jump g target =>
    exact congrArg (· :: nest base outside below) (hself (g := { g with pc := target }) hflow.2)
  | enter caller callee =>
    obtain ⟨⟨-, hcaller⟩, -, rest, hcallee, -⟩ := hflow
    -- a callee waits for no outer machine, as only an entry does
    have hunder : callee.under base = callee := by
      cases callee
      cases hcallee
      rfl
    show callee.under base :: (caller.withKind f.kind).under base :: nest base outside below = _
    rw [hunder, hself hcaller]
    rfl
  | leave v => rfl

/-- The top frame may be replaced by one of the same kind. -/
theorem Plain.replace {g : Frame} (hplain : Plain (f :: below)) (hg : g.kind = f.kind) :
    Plain (g :: below) := by
  cases hplain with
  | entry hf => exact .entry (hg.trans hf)
  | call hf hbelow => exact .call (hg.trans hf) hbelow

/-- Frames stay plain as their top frame goes on. -/
theorem Plain.flow {flow : Flow} {bounds : List ℚ} {kind : FrameKind} (hplain : Plain (f :: below))
    (hflow : flow.Sound s bounds kind) (hleave : ∀ v, flow ≠ .leave v) :
    Plain ((flow.withKind f.kind).frames ++ below) := by
  cases flow with
  | next g | stay g | jump g target => exact hplain.replace rfl
  | enter caller callee =>
    obtain ⟨-, -, rest, hcallee, -⟩ := hflow
    exact .call hcallee (hplain.replace rfl)
  | leave v => exact absurd rfl (hleave v)

/-- A result reaches a frame on the inner machine as on the outer one. -/
theorem pushResult_under (f : Frame) (v : Value) (rest : List Value) :
    (f.under base).pushResult f.stack v rest = (f.pushResult f.stack v rest).under base := by
  unfold Frame.pushResult
  split <;> rfl

/-- An inner machine claims no thunks for its own frames. -/
theorem Plain.claimsOf_eq (hplain : Plain frames) : claimsOf frames = [] := by
  induction hplain with
  | entry hf => simp [claimsOf, Frame.chain, hf]
  | call hf hbelow ih => simpa [claimsOf, Frame.chain, hf] using ih

/-- The bounds on the values of an inner machine are those on its result. -/
theorem Plain.boundsOn_nest (hplain : Plain frames) (s : Store p) :
    s.boundsOn (nest base outside frames) = s.boundsOf base.chain ++ s.boundsOn outside := by
  induction hplain with
  | @entry f hf =>
    have hkind : (f.under base).kind = base := congrArg (FrameKind.under · base) hf
    rw [nest_cons, s.boundsOn_cons, hkind]
    rfl
  | @call f rest below hf hbelow ih =>
    have hkind : (f.under base).kind = .call rest := congrArg (FrameKind.under · base) hf
    rw [nest_cons, s.boundsOn_cons, hkind, ih]
    rfl

/-- What a failure does to the frames of an inner machine, in either mode. -/
inductive Recovery (format : Format) (s : Store p) (e : RuntimeError) (base : FrameKind)
    (outside frames : List Frame) : Prop
  /-- It goes on at a handler. -/
  | handled (frames' : List Frame) (s₁ : Store p) (hlater : s.Later s₁) (hplain : Plain frames')
      (hframes : StackSound s₁ (nest base outside frames'))
      (hturns : (Conf.fail e (nest base outside frames)).Turns format s.heap
        (.running (nest base outside frames')) s₁.heap)
      (hrecover : ∀ (m : Machine) (w : World), w.At s.heap format True →
        (m.withFrames frames).recover (.interrupt .failed) { w with context := w.context.fail e } =
          .ok (.running (m.withFrames frames')) { w with heap := s₁.heap })
  /-- It leaves the inner machine. -/
  | passes
      (hbecomes : (Conf.fail e (nest base outside frames)).Becomes format s.heap
        (.drop e base outside) s.heap)
      (hrecover : ∀ (m : Machine) (w : World), w.At s.heap format True →
        (m.withFrames frames).recover (.interrupt .failed) { w with context := w.context.fail e } =
          .ok (.ended .failed (m.withFrames [])) { w with context := w.context.fail e })

/-- The handler of the top frame of an inner machine. -/
theorem Recovery.of_handler (e : RuntimeError) {handler : Handler} {handlers : List Handler}
    (hf : f.handlers = handler :: handlers) (hplain : Plain (f :: below))
    (hframes : StackSound s (nest base outside (f :: below))) :
    Recovery format s e base outside (f :: below) := by
  obtain ⟨v, s₁, hlater, hv, hrecover⟩ :=
    exists_handled s format (s.boundsOn (nest base outside (f :: below))) e
  refine .handled (f.handle handler handlers v :: below) s₁ hlater (hplain.replace rfl)
    (hframes.handle hlater hv) ⟨0, fun level fuel _ _ m w hw => ?_⟩ ?_
  · exact hrecover (f.under base) _ handler handlers hf m w hw.either
  · exact fun m w hw => hrecover f below handler handlers hf m w hw

/-- A failure is handled on the inner machine as on the outer one, or ends the inner one. -/
theorem Plain.recovery (e : RuntimeError) (hplain : Plain frames)
    (hframes : StackSound s (nest base outside frames)) :
    Recovery format s e base outside frames := by
  induction hplain with
  | @entry f hf =>
    cases hh : f.handlers with
    | cons handler handlers => exact .of_handler e hh (.entry hf) hframes
    | nil =>
      have hunhandled : (Conf.fail e (nest base outside [f])).Becomes format s.heap
          (.drop e (f.kind.under base) outside) s.heap := Conf.fail_unhandled hh
      rw [hf] at hunhandled
      refine .passes hunhandled fun m w hw => ?_
      simp only [Machine.recover, Machine.withFrames, unwind, hh, hf]
      rfl
  | @call f rest below hf hbelow ih =>
    cases hh : f.handlers with
    | cons handler handlers => exact .of_handler e hh (.call hf hbelow) hframes
    | nil =>
      have hunhandled : (Conf.fail e (nest base outside (f :: below))).Becomes format s.heap
          (.drop e (f.kind.under base) (nest base outside below)) s.heap := Conf.fail_unhandled hh
      rw [hf] at hunhandled
      have hskip := hunhandled.trans Conf.drop_call
      -- a frame of a call has no chain to release: it is skipped on both sides
      have hsame (m : Machine) (w : World) :
          (m.withFrames (f :: below)).recover (.interrupt .failed) w =
            (m.withFrames below).recover (.interrupt .failed) w := by
        simp only [Machine.recover, Machine.withFrames, unwind, hh, hf, Frame.chain]
        rfl
      cases ih hframes.2.2 with
      | handled frames' s₁ hlater hplain' hframes' hturns hrecover =>
        refine .handled frames' s₁ hlater hplain' hframes' (hskip.turns_iff.mpr hturns) ?_
        intro m w hw
        rw [hsame, hrecover m w hw]
      | passes hbecomes hrecover =>
        refine .passes (hskip.trans hbecomes) fun m w hw => ?_
        rw [hsame, hrecover m w hw]

end Nested

end LazyMachine
