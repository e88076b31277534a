import LazyMachine.Proofs.Availability
import LazyMachine.Proofs.Counting
import LazyMachine.Proofs.Nesting
import LazyMachine.Proofs.StepLimit

/-!
# Code on top of its caller

Code that is applied to arguments runs on a machine of its own or, where the machine calls it, in
frames on top of the caller. The frames are the same in both cases, except that the lowest one is
the entry of the inner machine in one case and a call in the other.

So what a round of the inner machine gives says what the round gives on top of the caller
(`Machine.carry`): as long as the inner machine goes on, so does the other one; when it is done, the
caller takes its value; when it fails, the caller goes on with the failure; and when it is given up,
so is the whole run. `turn_nest` says so of the execution of one instruction.
-/

namespace LazyMachine

variable {E : Engine} {level fuel : Nat} {w w' : World} {rest : List Value} {caller : Frame}
  {below frames : List Frame} {inner outer : Machine}

/-! ### Frames for thunks -/

/-- Driving a thunk gives no frame but one for a chain of thunks, which goes on with the thunk. -/
theorem drive_frame (E : Engine) (fuel : Nat) (waiting : List (Ref .thunk)) (t : Ref .thunk)
    (w : World) :
    Leads (drive E fuel waiting t) w fun r _ => ∀ f, r = .ok (some f) →
      ∃ more, f.kind = .thunk (waiting ++ t :: more) := by
  induction fuel generalizing waiting t w with
  | zero => rintro _ ⟨⟩
  | succ fuel ih =>
    rw [drive, leads_bind]
    refine .intro (fun claimed w₁ _ => ?_) fun _ _ _ => by rintro _ ⟨⟩
    cases claimed with
    | ready v => rintro _ ⟨⟩
    | run d =>
      dsimp only
      rw [leads_bind]
      refine .intro (fun application w₂ _ => ?_) fun _ _ _ => by rintro _ ⟨⟩
      cases application with
      | enter program chunk locals surplus =>
        dsimp only
        split
        · next f hf =>
          rintro _ ⟨⟩
          exact ⟨[], Frame.kind_of_enter? hf⟩
        · rintro _ ⟨⟩
      | value v surplus =>
        -- a lazy value goes on with the thunk behind it, any other one settles the chain
        refine leads_resolve_bind (by rintro _ ⟨⟩) fun resolved _ => ?_
        split
        · next u _ =>
          refine (ih (waiting ++ [t]) u _).imp fun r _ h f hr => ?_
          obtain ⟨more, hf⟩ := h f hr
          exact ⟨u :: more, by rw [hf, List.append_assoc]; rfl⟩
        · rintro _ ⟨⟩

/-- A frame that settling enters is that of a longer chain. -/
theorem settle_frame (E : Engine) (fuel : Nat) (chain : List (Ref .thunk)) (v : Value) (w : World) :
    Leads (settle E fuel chain v) w fun r _ => ∀ f, r = .ok (some f) →
      ∃ u more, f.kind = .thunk (chain ++ u :: more) := by
  refine leads_resolve_bind (by rintro _ ⟨⟩) fun resolved _ => ?_
  split
  · exact (drive_frame E fuel _ _ w).imp fun r _ h f hr => ⟨_, h f hr⟩
  · rintro _ ⟨⟩

/-- A frame that resuming enters is that of a chain. -/
theorem resume_frame (E : Engine) (fuel : Nat) (w : World) :
    Leads (resume E fuel) w fun r _ => ∀ f, r = .ok (some f) →
      ∃ t more, f.kind = .thunk (t :: more) := by
  induction fuel generalizing w with
  | zero => rintro _ ⟨⟩
  | succ fuel ih =>
    simp only [resume, leads_bind, Step.liftM_eq_ofEval, leads_ofEval, leads_context,
      leads_onContext]
    split
    · rintro _ ⟨⟩
    · simp only [leads_tryCatch, leads_ofEval]
      refine (drive_frame E fuel [] _ _).imp fun r w₁ h => ?_
      cases r with
      | ok x =>
        rintro f ⟨⟩
        exact ⟨_, h f rfl⟩
      | error i =>
        cases i with
        | suspended => exact ih w₁  -- the next thunk to be driven is on the context
        | failed | exhausted | crashed => rintro _ ⟨⟩

/-! ### Congruence at a world -/

/-- What follows an evaluation may be exchanged where that makes no difference after its value. -/
theorem bind_congr_leads {ε α β : Type} {x : EStateM ε World α} {f g : α → EStateM ε World β}
    (hfg : Leads x w fun r w' => ∀ a, r = .ok a → f a w' = g a w') : (x >>= f) w = (x >>= g) w := by
  cases hx : x w with
  | ok a w' => rw [bind_ok hx, bind_ok hx, hfg.of_ok hx a rfl]
  | error e w' => rw [bind_error hx, bind_error hx]

/-- The outcome of an evaluation whose value is mapped. -/
theorem Step.outcome_map {α β : Type} (g : α → β) (x : Step α) :
    (g <$> x).outcome = (fun r => r.map g) <$> x.outcome := by
  funext w
  simp only [Functor.map, EStateM.map, Step.outcome]
  cases x w with
  | ok a w' => rfl
  | error stop w' =>
    cases stop with
    | interrupt i => cases i <;> rfl
    | abort a => rfl

/-! ### Claims of both parts -/

/-- Chains are released one after the other. -/
theorem Heap.releaseChain_append (h : Heap) (chain chain' : List (Ref .thunk)) :
    h.releaseChain (chain ++ chain') = (h.releaseChain chain).releaseChain chain' :=
  List.foldl_append

theorem releaseChain_append (chain chain' : List (Ref .thunk)) :
    releaseChain (chain ++ chain') = (do releaseChain chain; releaseChain chain') := by
  funext w
  show EStateM.Result.ok () _ = .ok () _
  simp only [Heap.releaseChain_append]

/-- A frame under a call has the chain that it had. -/
@[simp]
theorem Frame.chain_under_call (f : Frame) : (f.under (.call rest)).chain = f.chain := by
  unfold Frame.under Frame.chain
  cases hf : f.kind <;> rfl

/-- The chains of nested frames come first. -/
theorem flatMap_chain_nest (outside : List Frame) :
    (nest (.call rest) outside frames).flatMap Frame.chain =
      frames.flatMap Frame.chain ++ outside.flatMap Frame.chain := by
  simp only [nest, List.flatMap_append, List.flatMap_map, Frame.chain_under_call]

/-! ### Rounds -/

namespace Machine

/-- What the machine `m` makes of a round of the code on top of the frame `caller`, which waits for
the result with the arguments `rest` left for it. -/
def carry (m : Machine) (rest : List Value) (caller : Frame) (below : List Frame) :
    Round → Eval Round
  | .running inner =>
    return .running (m.withFrames (nest (.call rest) (caller :: below) inner.frames))
  | .ended (.done v) _ =>
    return .running (m.withFrames (caller.pushResult caller.stack v rest :: below))
  | .ended .failed _ => (m.withFrames (caller :: below)).recover (.interrupt .failed)
  | .ended (.aborted a) _ => (m.withFrames (caller :: below)).abandon a

/-- An abort releases the nested chains and then the others. -/
theorem abandon_nest (a : Abort) :
    (outer.withFrames (nest (.call rest) (caller :: below) frames)).abandon a =
      (inner.withFrames frames).abandon a >>= outer.carry rest caller below := by
  have hchains : (nest (.call rest) (caller :: below) frames).flatMap Frame.chain =
      frames.flatMap Frame.chain ++ (caller :: below).flatMap Frame.chain := flatMap_chain_nest _
  unfold abandon
  simp only [withFrames, hchains, releaseChain_append, bind_assoc, pure_bind]
  rfl

end Machine

/-- A failure that no frame of the code handles is left to the caller. -/
theorem unwind_nest (hs : Stacked frames) (outside : List Frame) :
    unwind (nest (.call rest) outside frames) = unwind frames >>= fun
      | (true, frames') => return (true, nest (.call rest) outside frames')
      | (false, _) => unwind outside := by
  induction frames with
  | nil => exact hs.elim
  | cons f lower ih =>
    have hhandlers : (f.under (.call rest)).handlers = f.handlers := rfl
    rw [nest_cons, unwind, unwind, hhandlers]
    cases hh : f.handlers with
    | cons handler handlers =>
      -- the code handles the failure itself
      simp only [bind_assoc, pure_bind]
      rfl
    | nil =>
      have hkind : (f.under (.call rest)).kind = f.kind.under (.call rest) := rfl
      have hrelease : (releaseChain [] : Eval Unit) = pure () := rfl
      rw [Stacked] at hs
      dsimp only
      rw [hkind, Frame.chain_under_call]
      cases hf : f.kind with
      | entry =>
        -- the entry is the lowest frame of the code, and a call in the other machine
        simp only [hf] at hs
        subst hs
        simp only [FrameKind.under, Frame.chain, hf, hrelease, pure_bind]
        rfl
      | call surplus =>
        simp only [hf] at hs
        simp only [FrameKind.under, bind_assoc, ih hs]
      | thunk chain =>
        simp only [hf] at hs
        simp only [FrameKind.under, bind_assoc, ih hs]

namespace Machine

/-- A failure unwinds the nested frames and then the others. -/
theorem recover_nest (hs : Stacked frames) (stop : Stop) :
    (outer.withFrames (nest (.call rest) (caller :: below) frames)).recover stop =
      (inner.withFrames frames).recover stop >>= outer.carry rest caller below := by
  cases stop with
  | abort a => exact abandon_nest a
  | interrupt i =>
    simp only [recover, withFrames]
    rw [unwind_nest hs, bind_assoc, bind_assoc]
    refine bind_congr fun result => ?_
    obtain ⟨_ | _, frames'⟩ := result <;> rfl

/-- The frame of a thunk is the same on top of either. -/
theorem nest_thunk {f : Frame} (hf : ∃ chain, f.kind = .thunk chain) (outside : List Frame) :
    nest (.call rest) outside (f :: frames) = f :: nest (.call rest) outside frames := by
  obtain ⟨chain, hf⟩ := hf
  have hunder : f.under (.call rest) = f := by
    cases f
    cases hf
    rfl
  rw [nest_cons, hunder]

/-- A machine is determined by its frames. -/
theorem running_congr (m : Machine) {frames frames' : List Frame} (h : frames = frames')
    (w : World) :
    (return .running (m.withFrames frames) : Eval Round) w =
      (return .running (m.withFrames frames') : Eval Round) w := by
  rw [h]

/-- A step is halted in the nested machine as it is in its own. -/
theorem halt_nest (hs : Stacked frames) (stop : Stop) (w : World) :
    (outer.withFrames (nest (.call rest) (caller :: below) frames)).halt E fuel stop w =
      ((inner.withFrames frames).halt E fuel stop >>= outer.carry rest caller below) w := by
  unfold halt
  split
  · -- a suspension is resumed by a frame for a thunk, which is the same on top of either machine
    rw [bind_assoc]
    refine bind_congr_leads ?_
    refine leads_outcome ((resume_frame E fuel w).imp fun r w' h _ => ?_) fun _ _ _ => nofun
    rintro _ ⟨⟩
    match r with
    | .ok none => rfl
    | .ok (some f) =>
      obtain ⟨t, more, hf⟩ := h f rfl
      exact running_congr outer (nest_thunk ⟨_, hf⟩ (caller :: below)).symm w'
    | .error stop => exact congrFun (recover_nest hs stop) w'
  · exact congrFun (recover_nest hs _) w

/-- A frame is left in the nested machine as it is in its own. -/
theorem leave_nest {f : Frame} {lower : List Frame} (hs : Stacked (f :: lower)) (v : Value)
    (w : World) :
    outer.leave E fuel (f.under (.call rest)).kind
        (nest (.call rest) (caller :: below) lower) v w =
      (inner.leave E fuel f.kind lower v >>= outer.carry rest caller below) w := by
  have hkind : (f.under (.call rest)).kind = f.kind.under (.call rest) := rfl
  rw [hkind]
  rw [Stacked] at hs
  cases hf : f.kind with
  | entry =>
    -- the code is at its end, and the caller takes the value
    simp only [hf] at hs
    subst hs
    rfl
  | call surplus =>
    simp only [hf] at hs
    cases lower with
    | nil => exact hs.elim
    | cons g lower =>
      -- the value is pushed on a frame of the code, whose task does not matter for that
      have hpush : (g.under (.call rest)).pushResult g.stack v surplus =
          (g.pushResult g.stack v surplus).under (.call rest) := pushResult_under g v surplus
      exact running_congr outer (congrArg (· :: nest (.call rest) (caller :: below) lower) hpush) w
  | thunk chain =>
    simp only [hf] at hs
    simp only [FrameKind.under, leave, bind_assoc]
    refine bind_congr_leads ?_
    refine leads_outcome (leads_ofEval.mpr ((settle_frame E fuel chain v w).imp fun r w' h => ?_))
      fun _ _ _ => by rintro _ ⟨⟩
    rcases r with i | _ | g
    · rintro - _ ⟨⟩
      exact halt_nest hs _ w'
    · rintro - _ ⟨⟩
      rfl
    · rintro - _ ⟨⟩
      obtain ⟨u, more, hg⟩ := h g rfl
      exact running_congr outer (nest_thunk ⟨_, hg⟩ (caller :: below)).symm w'

/-- One instruction on top of the caller. -/
theorem turn_nest (hE : ∀ o, (E o).Preserves Heap.Settled) (hs : Stacked frames) (w : World) :
    (outer.withFrames (nest (.call rest) (caller :: below) frames)).turn E fuel w =
      ((inner.withFrames frames).turn E fuel >>= outer.carry rest caller below) w := by
  cases frames with
  | nil => exact hs.elim
  | cons f lower =>
    have hadvance : (f.under (.call rest)).advance E fuel =
        Flow.withKind (f.kind.under (.call rest)) <$> f.advance E fuel :=
      advance_withKind (f.kind.under (.call rest)) f
    -- a frame that keeps its task is still the entry of the code, or still is not
    have hkeeps (g : Frame) (hg : g.task = f.task) :
        g.withKind (f.kind.under (.call rest)) :: nest (.call rest) (caller :: below) lower =
          nest (.call rest) (caller :: below) (g :: lower) := by
      rw [nest_cons, Frame.under, Frame.kind_of_task hg]
    -- the instruction is the same, and the two sides differ in what is made of its outcome
    simp only [turn, withFrames, nest_cons, hadvance, Step.outcome_map, bind_map_left, bind_assoc]
    refine bind_congr_leads ?_
    refine leads_outcome ((advance_yields hE fuel f w).imp fun r w' h _ => ?_) fun _ _ _ => by
      rintro _ ⟨⟩
    rintro _ ⟨⟩
    cases r with
    | error stop => exact halt_nest hs stop w'
    | ok flow =>
      cases flow with
      | next g => exact running_congr outer (hkeeps { g with pc := g.pc + 1 } (h.2 _ rfl)) w'
      | stay g => exact running_congr outer (hkeeps g (h.2 _ rfl)) w'
      | jump g target => exact running_congr outer (hkeeps { g with pc := target } (h.2 _ rfl)) w'
      | enter g callee =>
        obtain ⟨hg, surplus, hcallee⟩ := h.2 _ rfl
        have hunder : callee.under (.call rest) = callee := by
          cases callee
          cases hcallee
          rfl
        refine running_congr outer ?_ w'
        rw [nest_cons, hunder, ← hkeeps g hg]
      | leave v => exact leave_nest hs v w'

/-! ### Runs -/

theorem Passes.trans {fuel left least : Nat} {m m₁ m₂ : Machine} {w w₁ w₂ : World}
    (h : Passes E fuel m w left m₁ w₁) (hnext : Passes E left m₁ w₁ least m₂ w₂) :
    Passes E fuel m w least m₂ w₂ := by
  induction h with
  | start => exact hnext
  | round hround _ ih => exact .round hround (ih hnext)

/-- With enough fuel, the machine comes from one state to another in `n` rounds. -/
def Reaches (n : Nat) (m : Machine) (w : World) (m' : Machine) (w' : World) : Prop :=
  ∃ enough, ∀ level fuel, enough ≤ level → enough ≤ fuel →
    Passes (engine level) (fuel + n) m w fuel m' w'

/-- With enough fuel, a round of the machine gives what `x` gives on the world `w'`. -/
def Turns (m : Machine) (w : World) (x : Eval Round) (w' : World) : Prop :=
  ∃ enough, ∀ level fuel, enough ≤ level → enough ≤ fuel → m.round (engine level) fuel w = x w'

/-- The machine comes to a round that gives what `x` gives on the world `w'`. -/
def ComesTo (m : Machine) (w : World) (x : Eval Round) (w' : World) : Prop :=
  ∃ n m₁ w₁, m.Reaches n w m₁ w₁ ∧ m₁.Turns w₁ x w'

variable {m m₁ m₂ : Machine} {w₁ w₂ : World} {x : Eval Round}

theorem Reaches.refl (m : Machine) (w : World) : m.Reaches 0 w m w :=
  ⟨0, fun _ fuel _ _ => .start fuel m w⟩

/-- A round and what it leads to. -/
theorem Turns.reaches {n : Nat} (h : m.Turns w (return .running m₁) w₁)
    (hreaches : m₁.Reaches n w₁ m₂ w₂) : m.Reaches (n + 1) w m₂ w₂ := by
  obtain ⟨enough, h⟩ := h
  obtain ⟨enough', hreaches⟩ := hreaches
  refine ⟨max enough enough', fun level fuel hlevel hfuel => ?_⟩
  exact .round (h level (fuel + n) (by omega) (by omega))
    (hreaches level fuel (by omega) (by omega))

/-- A round comes to its own end. -/
theorem Turns.comesTo (h : m.Turns w x w') : m.ComesTo w x w' := ⟨0, m, w, .refl m w, h⟩

theorem Turns.trans (h : m.Turns w (return .running m₁) w₁) (hnext : m₁.ComesTo w₁ x w') :
    m.ComesTo w x w' := by
  obtain ⟨n, m₂, w₂, hreaches, hx⟩ := hnext
  exact ⟨n + 1, m₂, w₂, h.reaches hreaches, hx⟩

/-- Rounds add up. -/
theorem Reaches.trans {n k : Nat} (h : m.Reaches n w m₁ w₁) (hnext : m₁.Reaches k w₁ m₂ w₂) :
    m.Reaches (k + n) w m₂ w₂ := by
  obtain ⟨enough, h⟩ := h
  obtain ⟨enough', hnext⟩ := hnext
  refine ⟨max enough enough', fun level fuel hlevel hfuel => ?_⟩
  rw [← Nat.add_assoc]
  exact (h level (fuel + k) (by omega) (by omega)).trans (hnext level fuel (by omega) (by omega))

/-- A machine comes to what it reaches a machine for. -/
theorem Reaches.comesTo {n : Nat} (h : m.Reaches n w m₁ w₁) (hnext : m₁.ComesTo w₁ x w') :
    m.ComesTo w x w' := by
  obtain ⟨k, m₂, w₂, hreaches, hx⟩ := hnext
  exact ⟨k + n, m₂, w₂, h.trans hreaches, hx⟩

/-- A machine that comes to a round which goes on comes to the state after it. -/
theorem ComesTo.reaches (h : m.ComesTo w (return .running m₁) w₁) : ∃ n, m.Reaches n w m₁ w₁ := by
  obtain ⟨n, m₂, w₂, hreaches, hx⟩ := h
  exact ⟨1 + n, hreaches.trans (hx.reaches (.refl m₁ w₁))⟩

/-- The machine after one more instruction. -/
def counted (m : Machine) : Machine :=
  { m with steps := m.steps + 1 }

/-- Without a limit every round counts and executes an instruction. -/
theorem round_unlimited (hlimit : m.stepLimit = none) (E : Engine) (fuel : Nat) (w : World) :
    m.round E fuel w = m.counted.turn E fuel (w.later 1) :=
  round_below (by simp [hlimit]) E fuel w

/-- A round of the code is one on top of the caller, however many instructions have been counted. -/
theorem round_nest {r : Round} (hinner : inner.stepLimit = none) (houter : outer.stepLimit = none)
    (hs : Stacked frames)
    (hround : (inner.withFrames frames).round (engine level) fuel w = .ok r w') (k : Nat) :
    (outer.withFrames (nest (.call rest) (caller :: below) frames)).Turns (w.later k)
      (outer.counted.carry rest caller below r) (w'.later k) := by
  refine ⟨max level fuel, fun level' fuel' hlevel hfuel => ?_⟩
  -- both machines count the instruction before they execute it
  rw [round_unlimited (m := inner.withFrames frames) hinner] at hround
  have houter' : (outer.withFrames (nest (.call rest) (caller :: below) frames)).stepLimit = none :=
    houter
  rw [round_unlimited houter']
  -- the inner machine does the same with more fuel, and on top of the caller
  have happroximates := turn_approximates (engine_approximates (by omega : level ≤ level'))
    (by omega : fuel ≤ fuel') (inner.counted.withFrames frames)
  have hturn := happroximates.eq_ok hround
  have hlater := (turn_countFree (engine_countFree level') fuel' _).ok hturn k
  have hcount : (w.later k).later 1 = (w.later 1).later k := by
    rw [World.later_later, World.later_later, Nat.add_comm]
  rw [hcount]
  show (outer.counted.withFrames (nest (.call rest) (caller :: below) frames)).turn _ _ _ = _
  rw [turn_nest (engine_settles level') hs]
  exact bind_ok hlater

/-- The code of a caller comes to its end on top of it as it does on a machine of its own. -/
theorem execute_nest {base : Heap} {exit : Exit} {inner' : Machine}
    (hinner : inner.stepLimit = none) (houter : outer.stepLimit = none) (hs : Stacked frames)
    (o : base.Owned w.heap (claimsOf frames))
    (hrun : (inner.withFrames frames).execute (engine level) fuel w = .ok (exit, inner') w')
    (k : Nat) :
    ∃ steps, (outer.withFrames (nest (.call rest) (caller :: below) frames)).ComesTo (w.later k)
      (carry { outer with steps } rest caller below (.ended exit inner')) (w'.later k) := by
  induction fuel generalizing inner outer frames w with
  | zero => cases hrun
  | succ fuel ih =>
    obtain ⟨r, w₁, hround, hrest⟩ := of_bind_ok hrun
    cases r with
    | running inner₁ =>
      -- the frames are stacked and own their claims again, so the rest is by induction
      obtain ⟨hs₁, o₁⟩ := (round_owned (engine_settles level) fuel hs o).of_ok hround
      have hlimit : inner₁.stepLimit = none := by
        rw [round_unlimited (m := inner.withFrames frames) hinner] at hround
        exact ((turn_uncounted _).of_ok hround).2.trans hinner
      obtain ⟨steps, hnext⟩ := @ih w₁ inner₁.frames inner₁ outer.counted hlimit houter hs₁ o₁ hrest
      exact ⟨steps, (round_nest hinner houter hs hround k).trans hnext⟩
    | ended exit₁ inner₁ =>
      cases hrest
      exact ⟨_, (round_nest hinner houter hs hround k).comesTo⟩

end Machine

end LazyMachine
