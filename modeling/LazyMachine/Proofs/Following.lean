import LazyMachine.Proofs.Nesting

/-!
# Eager evaluation followed in cooperative mode

Where eager evaluation goes, the cooperative machine goes as well. An instruction, a run and the
evaluation of a thunk come to something in eager mode; then the cooperative machine comes to the
same from the corresponding configuration, on the same heap, unless it is given up: what ends an
inner machine in eager mode ends the whole run in cooperative mode.
-/

namespace LazyMachine

variable {p : Program} {format : Format}

/-! ### Evaluated thunks -/

namespace Heap

/-- The thunks with a value. -/
def evaluated (h : Heap) : Finset Nat :=
  (Finset.range h.thunks.size).filter fun i => (h.memoAt? i).isSome

/-- A thunk is among the evaluated ones if it has a value. -/
theorem mem_evaluated {h : Heap} {i : Nat} : i ∈ h.evaluated ↔ ∃ v, h.memoAt? i = some v := by
  simp only [evaluated, Finset.mem_filter, Finset.mem_range, Option.isSome_iff_exists,
    and_iff_right_iff_imp]
  rintro ⟨v, hv⟩
  obtain ⟨u, hu, -⟩ := Option.bind_eq_some_iff.mp hv
  exact (Array.getElem?_eq_some_iff.mp hu).1

/-- As claims are settled, no value is lost. -/
theorem Settled.evaluated_subset {h h' : Heap} (hs : h.Settled h') :
    h.evaluated ⊆ h'.evaluated := by
  intro i hi
  obtain ⟨v, hv⟩ := mem_evaluated.mp hi
  exact mem_evaluated.mpr ⟨v, hs.memoAt? hv⟩

end Heap

/-- There are more thunks with a value once a thunk has got one. -/
theorem Store.Later.card_evaluated_lt {s s₁ : Store p} {t : Ref .thunk} {v : Value}
    (hs : s.Later s₁) (ht : t.index < s.heap.thunks.size) (hbefore : s.heap.memo? t = none)
    (hafter : s₁.heap.memo? t = some v) : s.heap.evaluated.card < s₁.heap.evaluated.card := by
  refine Finset.card_lt_card
    (Finset.ssubset_iff_of_subset (fun i hi => ?_) |>.mpr ⟨t.index, ?_, ?_⟩)
  · obtain ⟨x, hx⟩ := Heap.mem_evaluated.mp hi
    obtain ⟨u, hu, hmemo⟩ := Option.bind_eq_some_iff.mp hx
    obtain rfl := (s.thunks u (Array.mem_of_getElem? hu)).eq_forced hmemo
    exact Heap.mem_evaluated.mpr ⟨x, Heap.memoAt?_of_forced _ (hs.forced i x hu)⟩
  · have hlt := Nat.lt_of_lt_of_le ht hs.size
    exact Heap.mem_evaluated.mpr ⟨v, s₁.heap.memoAt?_of_memo? t hlt hafter⟩
  · intro hi
    obtain ⟨x, hx⟩ := Heap.mem_evaluated.mp hi
    rw [s.heap.memo?_of_memoAt? t hx] at hbefore
    cases hbefore

/-! ### Worlds in eager mode -/

/-- A world on a heap with a live context in eager mode. -/
structure World.Eager (w : World) (h : Heap) (format : Format) : Prop where
  heap : w.heap = h
  context : w.context = { mode := .eager, format }

/-- A world on a heap where a failure has been recorded in eager mode. -/
structure World.Failing (w : World) (e : RuntimeError) (h : Heap) (format : Format) : Prop where
  heap : w.heap = h
  context : w.context = Context.fail { mode := .eager, format } e

/-- A world in eager mode is at its heap. -/
theorem World.Eager.at {w : World} {h : Heap} (hw : w.Eager h format) : w.At h format True :=
  ⟨hw.heap, by rw [hw.context], .inr trivial⟩

/-- Its mode is the eager one. -/
theorem World.Eager.mode {w : World} {h : Heap} (hw : w.Eager h format) :
    w.context.mode = .eager := by
  rw [hw.context]

theorem World.Eager.onHeap {w : World} {h : Heap} (hw : w.Eager h format) (h' : Heap) :
    World.Eager { w with heap := h' } h' format :=
  ⟨rfl, hw.context⟩

theorem World.Eager.fail {w : World} {h : Heap} (hw : w.Eager h format) (e : RuntimeError) :
    World.Failing { w with context := w.context.fail e } e h format :=
  ⟨hw.heap, by rw [← hw.context]⟩

/-! ### What is followed -/

/-- Where the machine is after an instruction of a frame of some kind. -/
def Flow.conf (kind : FrameKind) (below : List Frame) : Flow → Conf
  | .leave v => .leave kind below v
  | flow => .run (flow.frames ++ below)

/-- The rounds that an instruction completes: one, unless the frame is left, which is part of the
same round. -/
def Flow.rounds : Flow → Nat
  | .leave _ => 0
  | _ => 1

/-- Unless the frame is left, the run goes on with the frames of the flow. -/
theorem Flow.conf_of_ne_leave {flow : Flow} (hflow : ∀ v, flow ≠ .leave v) (kind : FrameKind)
    (below : List Frame) :
    flow.conf kind below = .run (flow.frames ++ below) ∧ flow.rounds = 1 := by
  cases flow with
  | leave v => exact absurd rfl (hflow v)
  | _ => exact ⟨rfl, rfl⟩

/-- The cooperative machine goes where an instruction leads. -/
theorem Conf.run_passes {f : Frame} {below : List Frame} {flow : Flow} {h h' : Heap}
    {level fuel : Nat}
    (hadvance : ∀ w, w.At h format False →
      f.advance (engine level) fuel w = .ok flow { w with heap := h' }) :
    Passes format flow.rounds (.run (f :: below)) h (flow.conf f.kind below) h' := by
  cases flow with
  | leave v => exact (run_leave hadvance).reaches.passes
  | _ => exact (run_flow hadvance (by simp)).reaches.passes

/-- The cooperative machine follows an instruction of the top frame. -/
def StepFollowed (format : Format) (s : Store p) (f : Frame) (below : List Frame) :
    EStateM.Result Stop World Flow → Prop
  | .ok flow w => ∃ s₁, s.Later s₁ ∧ w.Eager s₁.heap format ∧
      flow.Sound s₁ (s.boundsOn (f :: below)) f.kind ∧
      Conf.Passes format flow.rounds (.run (f :: below)) s.heap (flow.conf f.kind below) s₁.heap
  | .error (.interrupt .failed) w => ∃ e s₁, s.Later s₁ ∧ w.Failing e s₁.heap format ∧
      Conf.Passes format 0 (.run (f :: below)) s.heap (.fail e (f :: below)) s₁.heap
  | .error (.interrupt .suspended) _ => False
  | .error (.interrupt _) _ => True
  | .error (.abort _) w => (∃ s₁, s.Later s₁ ∧ w.Eager s₁.heap format) ∧
      (Conf.run (f :: below)).Aborts format s.heap

/-- The cooperative machine follows the evaluation of a thunk that a chain waits on: at its end the
frames go on, and the first thunk of the chain has its value. -/
def ForceFollowed (format : Format) (s : Store p) (chain : List (Ref .thunk)) (t : Ref .thunk)
    (frames : List Frame) : EStateM.Result Interrupt World Value → Prop
  | .ok v w => ∃ s₁, s.Later s₁ ∧ w.Eager s₁.heap format ∧
      (∀ u ∈ (chain ++ [t]).head?, s₁.heap.memo? u = some v) ∧
      Conf.Passes format 1 (.drive chain t frames) s.heap (.run frames) s₁.heap
  | .error .failed w => ∃ e s₁, s.Later s₁ ∧ w.Failing e s₁.heap format ∧
      Conf.Passes format 0 (.drive chain t frames) s.heap (.fail e frames) s₁.heap
  | .error .suspended _ => False
  | .error _ _ => True

/-- The cooperative machine follows the run of an inner machine from the configuration `c`. -/
def RunFollowed (format : Format) (bounds : List ℚ) (base : FrameKind) (outside : List Frame)
    (s : Store p) (c : Conf) : EStateM.Result Interrupt World (Machine.Exit × Machine) → Prop
  | .ok (.done v, _) w => ∃ s₁, s.Later s₁ ∧ w.Eager s₁.heap format ∧ s₁.Fits bounds v ∧
      Conf.Passes format 0 c s.heap (.leave base outside v) s₁.heap
  | .ok (.failed, _) w => ∃ e s₁, s.Later s₁ ∧ w.Failing e s₁.heap format ∧
      Conf.Passes format 0 c s.heap (.drop e base outside) s₁.heap
  | .ok (.aborted _, _) w => (∃ s₁, s.Later s₁ ∧ w.Eager s₁.heap format) ∧ c.Aborts format s.heap
  | .error .exhausted _ | .error .crashed _ => True
  | .error _ _ => False

/-- The cooperative machine follows the turn of an inner machine from the configuration `c`: if the
inner machine goes on, so does the cooperative one with its next round. -/
def TurnFollowed (format : Format) (bounds : List ℚ) (base : FrameKind) (outside : List Frame)
    (m : Machine) (s : Store p) (c : Conf) : EStateM.Result Interrupt World Machine.Round → Prop
  | .ok (.running m') w => ∃ frames s₁, m' = m.withFrames frames ∧ s.Later s₁ ∧
      w.Eager s₁.heap format ∧ Plain frames ∧ StackSound s₁ (nest base outside frames) ∧
      Conf.Passes format 1 c s.heap (.run (nest base outside frames)) s₁.heap
  | .ok (.ended exit m') w => RunFollowed format bounds base outside s c (.ok (exit, m') w)
  | .error i w => RunFollowed format bounds base outside s c (.error i w)

/-- Whatever the run of an inner machine comes to is followed. -/
def FollowsRuns (p : Program) (format : Format) (bounds : List ℚ) (base : FrameKind)
    (outside : List Frame) (run : Machine → Eval (Machine.Exit × Machine)) : Prop :=
  ∀ (s : Store p) (frames : List Frame) (m : Machine) (w : World), Plain frames →
    StackSound s (nest base outside frames) → s.boundsOn (nest base outside frames) = bounds →
    m.stepLimit = none → w.Eager s.heap format →
    RunFollowed format bounds base outside s (.run (nest base outside frames))
      (run (m.withFrames frames) w)

/-- Whatever evaluating a thunk at once comes to is followed. -/
def Follows (p : Program) (format : Format) (E : Engine) (fuel : Nat) : Prop :=
  ∀ (s : Store p) (chain : List (Ref .thunk)) (t : Ref .thunk) (frames : List Frame) (w : World),
    (Conf.drive chain t frames).Sound s → w.Eager s.heap format →
    ForceFollowed format s chain t frames (forceNow E fuel chain t w)

/-- No instruction of the program makes a text of a structure. -/
def Program.Renderless (p : Program) : Prop :=
  ∀ chunk ∈ p.chunks, ∀ instr ∈ chunk.code, instr.renders = false

/-- No instruction of such a program makes a text. -/
theorem Program.Renderless.instr (hp : p.Renderless) {f : Frame} (hf : f.program = p)
    {instr : Instr} (hinstr : instr ∈ f.instr?) : instr.renders = false := by
  unfold Frame.instr? at hinstr
  rw [hf] at hinstr
  obtain ⟨chunk, hchunk, hcode⟩ := Option.mem_bind_iff.mp hinstr
  exact hp chunk (Array.mem_of_getElem? hchunk) instr (Array.mem_of_getElem? hcode)

section Following

variable {s s₁ : Store p} {f : Frame} {below : List Frame} {level fuel : Nat} {w : World}

/-- The circumstances of operations at a level in either mode. -/
def Regime.strictly (format : Format) (bounds : List ℚ) (level fuel : Nat)
    (hforce : Follows p format (LazyMachine.engine level) (level - 1)) : Regime p where
  engine := LazyMachine.engine level
  fuel := level
  format
  spare := 0 < fuel
  strict := True
  bounds
  resumes := by
    intro s w t v w₁ hw hmode ht heq
    have heager : w.Eager s.heap format := ⟨hw.heap, by rw [hw.context, hmode]⟩
    have hdrive : (Conf.drive [] t []).Sound s :=
      ⟨trivial, ⟨List.forall_mem_singleton.mpr ht, by simp⟩, by simp [Store.boundsOn, claimsOf,
        Store.boundsOf]⟩
    have hfollowed := hforce s [] t [] w hdrive heager
    rw [heq] at hfollowed
    obtain ⟨s₁, hlater, hw₁, hmemo, -⟩ := hfollowed
    exact ⟨s₁, hlater, hw₁.at, hw₁.mode, hmemo t rfl⟩

/-- What is followed on a later store that the run passes is followed from the start. -/
theorem StepFollowed.of_passes {r : EStateM.Result Stop World Flow}
    (hr : StepFollowed format s₁ f below r) (hs : s.Later s₁)
    (hbounds : s₁.boundsOn (f :: below) = s.boundsOn (f :: below))
    (hpasses : Conf.Passes format 0 (.run (f :: below)) s.heap (.run (f :: below)) s₁.heap) :
    StepFollowed format s f below r := by
  match r with
  | .ok flow w =>
    obtain ⟨s₂, hlater, hw, hflow, hpasses'⟩ := hr
    rw [hbounds] at hflow
    exact ⟨s₂, hs.trans hlater, hw, hflow, hpasses.trans hpasses'⟩
  | .error (.interrupt .failed) w =>
    obtain ⟨e, s₂, hlater, hw, hpasses'⟩ := hr
    exact ⟨e, s₂, hs.trans hlater, hw, hpasses.trans hpasses'⟩
  | .error (.interrupt .suspended) w => exact hr
  | .error (.interrupt .exhausted) w => trivial
  | .error (.interrupt .crashed) w => trivial
  | .error (.abort a) w =>
    obtain ⟨⟨s₂, hlater, hw⟩, haborts⟩ := hr
    exact ⟨⟨s₂, hs.trans hlater, hw⟩, hpasses.aborts haborts⟩

/-- Lack of fuel and crashes need not be followed. -/
theorem StepFollowed.of_irregular {x : Step Flow} (hx : Leads x w fun r _ => ¬ Step.Regular r) :
    StepFollowed format s f below (x w) := by
  unfold Leads at hx
  split at hx
  · exact absurd trivial hx
  · next stop w' heq =>
    rw [heq]
    match stop with
    | .interrupt .failed => exact absurd (.inl rfl) hx
    | .interrupt .suspended => exact absurd (.inr rfl) hx
    | .interrupt .exhausted => trivial
    | .interrupt .crashed => trivial
    | .abort a => exact absurd trivial hx

/-- Whoever has already evaluated more thunks than there may be at the regular end of an instruction
does not end it regularly: no value is lost. -/
theorem advance_irregular {n : Nat} {f : Frame}
    (hn : Leads (f.advance (engine (level + 1)) fuel) w fun r w' => Step.Regular r →
      w'.heap.evaluated.card ≤ n) (hlt : n < w.heap.evaluated.card) :
    Leads (f.advance (engine (level + 1)) fuel) w fun r _ => ¬ Step.Regular r := by
  have hyields := advance_yields (engine_settles (level + 1)) fuel f w
  refine .intro (fun flow w' hr hreg => ?_) fun stop w' hr hreg => ?_
  · have hle := Finset.card_le_card ((hyields.of_ok hr).1 hreg).evaluated_subset
    have := hn.of_ok hr hreg
    omega
  · have hle := Finset.card_le_card ((hyields.of_error hr).1 hreg).evaluated_subset
    have := hn.of_error hr hreg
    omega

/-- An instruction of the top frame is followed. The number of thunks that it evaluates on its way
is what the induction is on. -/
theorem advance_followed_of_le (hp : p.Renderless)
    (hforce : Follows p format (engine level) (level - 1))
    (hframes : StackSound s (f :: below)) (hw : w.Eager s.heap format) (n : Nat)
    (hn : Leads (f.advance (engine (level + 1)) fuel) w fun r w' => Step.Regular r →
      w'.heap.evaluated.card ≤ s.heap.evaluated.card + n) :
    StepFollowed format s f below (f.advance (engine (level + 1)) fuel w) := by
  induction n using Nat.strong_induction_on generalizing s w with
  | _ n ih =>
    let c : Regime p := .strictly format (s.boundsOn (f :: below)) level fuel hforce
    have hstride : c.Stride f.Aborts s (f.advance (engine (level + 1)) fuel) fun s' =>
        Flow.Sound s' (s.boundsOn (f :: below)) f.kind := by
      refine Regime.Stride.advance id hframes.1 fun instr hinstr hrenders => ?_
      rw [hp.instr hframes.1.program hinstr] at hrenders
      cases hrenders
    cases hstride with
    | makes flow s₁ hlater hflow h =>
      rw [h w hw.at]
      exact ⟨s₁, hlater, hw.onHeap s₁.heap, hflow, Conf.run_passes fun w hw => h w hw.either⟩
    | fails e s₁ hlater h =>
      rw [h w hw.at]
      exact ⟨e, s₁, hlater, (hw.onHeap s₁.heap).fail e,
        (Conf.run_fails fun w hw => h w hw.either).reaches.passes⟩
    | stops stop hstop h =>
      rw [h w hw.at]
      rcases hstop with ⟨a, rfl, -⟩ | rfl
      · exact ⟨⟨s, .refl s, hw⟩, 0, a, [], _, Conf.run_aborts fun w hw => h w hw.either, nofun⟩
      · trivial
    | cut hshort h =>
      rw [h w hw.at]
      trivial
    | waits t ht hmemo hc he =>
      have hdrive := Conf.sound_waits hframes ht
      have hwaits :
          Conf.Passes format 0 (.run (f :: below)) s.heap (.drive [] t (f :: below)) s.heap :=
        (Conf.run_waits (drive_cases hdrive.2.1 hdrive.2.2) fun w hw =>
          hc w hw.either (hw.covered.resolve_right id)).reaches.passes
      have hfollowed := hforce s [] t (f :: below) w hdrive hw
      have heq := he w hw.at hw.mode
      cases hresult : forceNow (engine level) (level - 1) [] t w with
      | error i w₁ =>
        have heq : f.advance (engine (level + 1)) fuel w = .error (.interrupt i) w₁ :=
          heq.trans (bind_error (Step.ofEval_error hresult))
        rw [hresult] at hfollowed
        rw [heq]
        cases i with
        | failed =>
          obtain ⟨e, s₁, hlater, hw₁, hpasses⟩ := hfollowed
          exact ⟨e, s₁, hlater, hw₁, hwaits.trans hpasses⟩
        | suspended => exact hfollowed
        | exhausted => trivial
        | crashed => trivial
      | ok v w₁ =>
        have heq : f.advance (engine (level + 1)) fuel w = f.advance (engine (level + 1)) fuel w₁ :=
          heq.trans (bind_ok (Step.ofEval_ok hresult))
        rw [hresult] at hfollowed
        obtain ⟨s₁, hlater, hw₁, hmemo₁, hreaches⟩ := hfollowed
        have hpasses :
            Conf.Passes format 0 (.run (f :: below)) s.heap (.run (f :: below)) s₁.heap :=
          (hwaits.trans hreaches).mono (Nat.zero_le _)
        have hlt := hlater.card_evaluated_lt (ht.held (.thunk, t.index) rfl) hmemo (hmemo₁ t rfl)
        have hn₁ := hn.of_eq heq.symm
        rw [heq]
        refine .of_passes ?_ hlater (hframes.boundsOn_eq hlater) hpasses
        rcases Nat.eq_zero_or_pos n with rfl | hpos
        · -- one more thunk has a value than at the end of the instruction: that is not regular
          exact .of_irregular (advance_irregular hn₁ (by rw [hw₁.heap]; omega))
        · refine ih (n - 1) (by omega) (hframes.later hlater) hw₁ ?_
          exact hn₁.imp fun r w' h hreg => by have := h hreg; omega

/-- An instruction of the top frame is followed. -/
theorem advance_followed (hp : p.Renderless) (hforce : Follows p format (engine level) (level - 1))
    (hframes : StackSound s (f :: below)) (hw : w.Eager s.heap format) :
    StepFollowed format s f below (f.advance (engine (level + 1)) fuel w) := by
  obtain ⟨n, hn⟩ : ∃ n, Leads (f.advance (engine (level + 1)) fuel) w fun _ w' =>
      w'.heap.evaluated.card ≤ n := by
    cases hx : f.advance (engine (level + 1)) fuel w with
    | ok flow w' => exact ⟨_, .of_eq_ok hx (Nat.le_refl _)⟩
    | error stop w' => exact ⟨_, .of_eq_error hx (Nat.le_refl _)⟩
  exact advance_followed_of_le hp hforce hframes hw n (hn.imp fun _ _ hle _ => by omega)

/-! ### Runs -/

variable {bounds : List ℚ} {base : FrameKind} {outside frames : List Frame} {m : Machine}

/-- A run that is followed from a later state is followed from an earlier one. -/
theorem RunFollowed.of_passes {c c₁ : Conf}
    {r : EStateM.Result Interrupt World (Machine.Exit × Machine)}
    (hr : RunFollowed format bounds base outside s₁ c₁ r) (hs : s.Later s₁)
    {least : Nat} (hpasses : Conf.Passes format least c s.heap c₁ s₁.heap) :
    RunFollowed format bounds base outside s c r := by
  match r with
  | .ok (.done v, _) w =>
    obtain ⟨s₂, hlater, hw, hv, hpasses'⟩ := hr
    exact ⟨s₂, hs.trans hlater, hw, hv, (hpasses.trans hpasses').mono (Nat.zero_le _)⟩
  | .ok (.failed, _) w =>
    obtain ⟨e, s₂, hlater, hw, hpasses'⟩ := hr
    exact ⟨e, s₂, hs.trans hlater, hw, (hpasses.trans hpasses').mono (Nat.zero_le _)⟩
  | .ok (.aborted a, _) w =>
    obtain ⟨⟨s₂, hlater, hw⟩, haborts⟩ := hr
    exact ⟨⟨s₂, hs.trans hlater, hw⟩, hpasses.aborts haborts⟩
  | .error .failed _ => exact hr
  | .error .suspended _ => exact hr
  | .error .exhausted _ => trivial
  | .error .crashed _ => trivial

/-- So is a turn. -/
theorem TurnFollowed.of_passes {c c₁ : Conf} {r : EStateM.Result Interrupt World Machine.Round}
    (hr : TurnFollowed format bounds base outside m s₁ c₁ r) (hs : s.Later s₁) {least : Nat}
    (hpasses : Conf.Passes format least c s.heap c₁ s₁.heap) :
    TurnFollowed format bounds base outside m s c r := by
  match r with
  | .ok (.running m') w =>
    obtain ⟨frames, s₂, hm, hlater, hw, hplain, hframes, hpasses'⟩ := hr
    exact ⟨frames, s₂, hm, hs.trans hlater, hw, hplain, hframes,
      (hpasses.trans hpasses').mono (Nat.le_add_right 1 least)⟩
  | .ok (.ended exit m') w => exact RunFollowed.of_passes hr hs hpasses
  | .error i w => exact RunFollowed.of_passes hr hs hpasses

/-- The result of a frame is followed to whatever waits for it. -/
theorem leave_followed {E : Engine} {v : Value} (hplain : Plain (f :: below))
    (hframes : StackSound s (nest base outside (f :: below)))
    (hv : s.Fits (s.boundsOn (nest base outside (f :: below))) v) (hw : w.Eager s.heap format) :
    TurnFollowed format (s.boundsOn (nest base outside (f :: below))) base outside m s
      (.leave (f.under base).kind (nest base outside below) v)
      (m.leave E fuel f.kind below v w) := by
  cases hplain with
  | entry hkind =>
    have hbase : (f.under base).kind = base := congrArg (FrameKind.under · base) hkind
    rw [hbase, hkind]
    exact ⟨s, .refl s, hw, hv, (Conf.Becomes.refl _ _).reaches.passes⟩
  | @call _ rest _ hkind hbelow =>
    obtain ⟨caller, others, rfl⟩ : ∃ caller others, below = caller :: others := by
      cases hbelow <;> exact ⟨_, _, rfl⟩
    have hcall : (f.under base).kind = .call rest := congrArg (FrameKind.under · base) hkind
    -- the caller has the bounds of the frame that is left
    have hbounds : s.boundsOn (nest base outside (f :: caller :: others)) =
        s.boundsOn (nest base outside (caller :: others)) := by
      rw [(Plain.call hkind hbelow).boundsOn_nest, hbelow.boundsOn_nest]
    have hrest : ∀ u ∈ rest, s.Fits (s.boundsOn (nest base outside (caller :: others))) u := by
      have hsound := hframes.2.1
      rwa [hcall] at hsound
    rw [hcall, hkind]
    refine ⟨caller.pushResult caller.stack v rest :: others, s, rfl, .refl s, hw,
      hbelow.replace (by unfold Frame.pushResult; split <;> rfl), ?_, ?_⟩
    · rw [nest_cons, ← pushResult_under]
      rw [hbounds] at hv
      exact hframes.2.2.pushResult hv hrest
    · rw [nest_cons, nest_cons, ← pushResult_under]
      exact Conf.leave_call.reaches.passes

/-- A failure is followed to its handler, or out of the inner machine. -/
theorem failure_followed {e : RuntimeError} (hplain : Plain frames)
    (hframes : StackSound s (nest base outside frames)) (hw : w.Failing e s.heap format) :
    TurnFollowed format bounds base outside m s (.fail e (nest base outside frames))
      ((m.withFrames frames).recover (.interrupt .failed) w) := by
  let live : World := { w with context := { mode := .eager, format } }
  have hlive : live.Eager s.heap format := ⟨hw.heap, rfl⟩
  have hfailing : w = { live with context := live.context.fail e } := by
    rw [← hw.context]
  rw [hfailing]
  cases hplain.recovery e hframes with
  | handled frames' s₁ hlater hplain' hframes' hturns hrecover =>
    rw [hrecover m live hlive.at]
    exact ⟨frames', s₁, rfl, hlater, hlive.onHeap s₁.heap, hplain', hframes', hturns.reaches.passes⟩
  | passes hbecomes hrecover =>
    rw [hrecover m live hlive.at]
    exact ⟨e, s, .refl s, hlive.fail e, hbecomes.reaches.passes⟩

/-- The turn of an inner machine is followed, whatever its instruction comes to. -/
theorem turn_followed (hp : p.Renderless) (hforce : Follows p format (engine level) (level - 1))
    (hplain : Plain frames) (hframes : StackSound s (nest base outside frames))
    (hbounds : s.boundsOn (nest base outside frames) = bounds) (hw : w.Eager s.heap format) :
    TurnFollowed format bounds base outside m s (.run (nest base outside frames))
      ((m.withFrames frames).turn (engine (level + 1)) fuel w) := by
  obtain ⟨f, below, rfl⟩ : ∃ f below, frames = f :: below := by
    cases hplain <;> exact ⟨_, _, rfl⟩
  -- the frame is looked at under the base that it runs on: the kind of a frame decides only where
  -- its result goes
  have hstep : StepFollowed format s (f.under base) (nest base outside below)
      ((f.under base).advance (engine (level + 1)) fuel w) := advance_followed hp hforce hframes hw
  have hadvance : f.advance (engine (level + 1)) fuel w =
      (Flow.withKind f.kind <$> (f.under base).advance (engine (level + 1)) fuel) w := by
    rw [advance_under base f]
  cases hr : (f.under base).advance (engine (level + 1)) fuel w with
  | ok flow w₁ =>
    rw [hr] at hstep
    obtain ⟨s₁, hlater, hw₁, hflow, hpasses⟩ := hstep
    have hadvance : f.advance (engine (level + 1)) fuel w = .ok (flow.withKind f.kind) w₁ := by
      rw [hadvance]
      simp only [Functor.map, EStateM.map, hr]
    by_cases hleave : ∃ v, flow = .leave v
    · obtain ⟨v, rfl⟩ := hleave
      have hsame : s₁.boundsOn (nest base outside (f :: below)) = bounds := by
        rw [hframes.boundsOn_eq hlater, hbounds]
      have hv : s₁.Fits (s₁.boundsOn (nest base outside (f :: below))) v := by
        rw [hframes.boundsOn_eq hlater]
        exact hflow
      rw [turn_leave hadvance m, ← hsame]
      exact (leave_followed hplain (hframes.later hlater) hv hw₁).of_passes hlater hpasses
    · have hleave (v : Value) : flow ≠ .leave v := fun h => hleave ⟨v, h⟩
      have hleave' (v : Value) : flow.withKind f.kind ≠ .leave v := by
        cases flow with
        | leave u => exact absurd rfl (hleave u)
        | _ => exact nofun
      have hsound : StackSound s₁ (flow.frames ++ nest base outside below) :=
        hframes.flow hlater hflow hleave
      obtain ⟨hconf, hrounds⟩ := flow.conf_of_ne_leave hleave (f.under base).kind
        (nest base outside below)
      rw [hconf, hrounds] at hpasses
      rw [← nest_flow hflow] at hsound hpasses
      rw [turn_flow hadvance hleave' m]
      exact ⟨_, s₁, rfl, hlater, hw₁, hplain.flow hflow hleave, hsound, hpasses⟩
  | error stop w₁ =>
    rw [hr] at hstep
    have hadvance : f.advance (engine (level + 1)) fuel w = .error stop w₁ := by
      rw [hadvance]
      simp only [Functor.map, EStateM.map, hr]
    match stop with
    | .interrupt .failed =>
      obtain ⟨e, s₁, hlater, hw₁, hpasses⟩ := hstep
      rw [turn_stop hadvance (.inl rfl) m]
      exact (failure_followed hplain (hframes.later hlater) hw₁).of_passes hlater hpasses
    | .interrupt .suspended => exact hstep.elim
    | .interrupt .exhausted =>
      rw [turn_cut hadvance (by simp [Stop.Regular]) m]
      trivial
    | .interrupt .crashed =>
      rw [turn_cut hadvance (by simp [Stop.Regular]) m]
      trivial
    | .abort a =>
      obtain ⟨⟨s₁, hlater, hw₁⟩, haborts⟩ := hstep
      have hturn : (m.withFrames (f :: below)).turn (engine (level + 1)) fuel w =
          .ok (.ended (.aborted a) (m.withFrames []))
            { w₁ with heap := w₁.heap.releaseChain (claimsOf (f :: below)) } :=
        turn_stop hadvance trivial m
      rw [hturn, hplain.claimsOf_eq]
      exact ⟨⟨s₁, hlater, hw₁⟩, haborts⟩

/-- A machine without a limit counts its instruction and proceeds. -/
theorem execute_unlimited (hm : m.stepLimit = none) (E : Engine) (frames : List Frame) (w : World) :
    (m.withFrames frames).execute E (fuel + 1) w =
      (Machine.withFrames { m with steps := m.steps + 1 } frames).proceed E fuel
        { w with executed := w.executed + 1 } := by
  have hbelow : ∀ limit ∈ (m.withFrames frames).stepLimit, (m.withFrames frames).steps < limit := by
    intro limit hlimit
    rw [Machine.withFrames, hm] at hlimit
    cases hlimit
  exact Machine.execute_below hbelow E fuel w

/-- The run of an inner machine is followed. -/
theorem execute_followed (hp : p.Renderless) (hforce : Follows p format (engine level) (level - 1))
    (fuel : Nat) :
    FollowsRuns p format bounds base outside (Machine.execute (engine (level + 1)) fuel) := by
  induction fuel with
  | zero => exact fun _ _ _ _ _ _ _ _ _ => trivial
  | succ fuel ih =>
    intro s frames m w hplain hframes hbounds hm hw
    -- machine and world count the round first, and the turn looks at neither count
    let m₁ : Machine := { m with steps := m.steps + 1 }
    let w₁ : World := { w with executed := w.executed + 1 }
    have hturn : TurnFollowed format bounds base outside m₁ s (.run (nest base outside frames))
        ((m₁.withFrames frames).turn (engine (level + 1)) fuel w₁) :=
      turn_followed hp hforce hplain hframes hbounds ⟨hw.heap, hw.context⟩
    rw [execute_unlimited hm, Machine.proceed]
    cases hr : (m₁.withFrames frames).turn (engine (level + 1)) fuel w₁ with
    | error i w₂ =>
      rw [hr] at hturn
      rw [bind_error hr]
      exact hturn
    | ok round w₂ =>
      rw [hr] at hturn
      rw [bind_ok hr]
      -- the rest of the run is followed from where the turn has come to
      cases round with
      | ended exit m₂ => exact hturn
      | running m₂ =>
        obtain ⟨frames', s₁, rfl, hlater, hw₂, hplain', hframes', hpasses⟩ := hturn
        have hbounds' : s₁.boundsOn (nest base outside frames') = bounds := by
          rw [hplain'.boundsOn_nest, ← hplain.boundsOn_nest s₁, hframes.boundsOn_eq hlater, hbounds]
        exact (ih s₁ frames' m₁ w₂ hplain' hframes' hbounds' hm hw₂).of_passes hlater hpasses

/-! ### Thunks -/

variable {chain : List (Ref .thunk)} {t : Ref .thunk} {chunk : Nat} {locals : List Value}

/-- The cooperative machine follows the code of a thunk, which a chain waits on, from the
configuration `c` to whatever becomes of its result. -/
def BodyFollowed (format : Format) (chain : List (Ref .thunk)) (frames : List Frame) (s : Store p)
    (c : Conf) : EStateM.Result Interrupt World Value → Prop
  | .ok v w => ∃ s₁, s.Later s₁ ∧ w.Eager s₁.heap format ∧
      s₁.Fits (s.boundsOf chain ++ s.boundsOn frames) v ∧
      Conf.Passes format 0 c s.heap (.leave (.thunk chain) frames v) s₁.heap
  | .error .failed w => ∃ e s₁, s.Later s₁ ∧ w.Failing e s₁.heap format ∧
      Conf.Passes format 0 c s.heap (.drop e (.thunk chain) frames) s₁.heap
  | .error .suspended _ => False
  | .error _ _ => True

/-- Code runs on a machine of its own, and where that is given up, the code fails. -/
theorem invokeChunk_eq {entry : Frame} (henter : Frame.enter? p chunk locals .entry = some entry)
    (hlive : w.context.interrupt? = none) (E : Engine) :
    invokeChunk E fuel p chunk locals w =
      (Machine.execute E fuel (Machine.withFrames {} [entry]) >>= fun
        | (.done v, _) => pure v
        | (.failed, _) => throw .failed
        | (.aborted a, _) => Eval.fail (.fault "Call" a.message)) w := by
  simp only [invokeChunk, Machine.invoke, henter, Eval.context_apply, Bind.bind, EStateM.bind,
    hlive]
  cases Machine.execute E fuel (Machine.withFrames {} [entry]) w with
  | error i w₁ => rfl
  | ok r w₁ =>
    obtain ⟨exit, m⟩ := r
    cases exit <;> rfl

/-- The code of a thunk is followed if the machine that runs it is. -/
theorem invokeChunk_followed {E : Engine} (hchunk : ∃ ch, p.chunk? chunk = some ch)
    (hexecute : FollowsRuns p format (s.boundsOf chain ++ s.boundsOn frames) (.thunk chain) frames
      (Machine.execute E fuel))
    (hframes : StackSound s (thunkFrame p chunk locals chain :: frames))
    (hw : w.Eager s.heap format) :
    BodyFollowed format chain frames s (.run (thunkFrame p chunk locals chain :: frames))
      (invokeChunk E fuel p chunk locals w) := by
  -- the inner machine starts with one frame, in the place of the frame of the thunk
  let entry : Frame := { program := p, chunk, locals := locals.toArray, kind := .entry }
  have hplain : Plain [entry] := .entry rfl
  have henter : Frame.enter? p chunk locals .entry = some entry := by
    obtain ⟨ch, hch⟩ := hchunk
    simp only [Frame.enter?, hch]
    rfl
  have hfollowed := hexecute s [entry] {} w hplain hframes (hplain.boundsOn_nest s) rfl hw
  rw [invokeChunk_eq henter hw.at.live]
  cases hr : Machine.execute E fuel (Machine.withFrames {} [entry]) w with
  | error i w₁ =>
    rw [hr] at hfollowed
    rw [bind_error hr]
    cases i with
    | failed | suspended => exact hfollowed.elim
    | exhausted | crashed => trivial
  | ok r w₁ =>
    rw [hr] at hfollowed
    rw [bind_ok hr]
    obtain ⟨exit, m⟩ := r
    cases exit with
    | done v => exact hfollowed
    | failed => exact hfollowed
    | aborted a =>
      obtain ⟨⟨s₁, hlater, hw₁⟩, haborts⟩ := hfollowed
      exact ⟨.fault "Call" a.message, s₁, hlater, hw₁.fail _, .inr haborts⟩

/-- What is followed with one more thunk in the chain is followed from the start. -/
theorem ForceFollowed.of_passes {r : EStateM.Result Interrupt World Value} {next : Ref .thunk}
    {least : Nat} (hr : ForceFollowed format s₁ (chain ++ [t]) next frames r) (hs : s.Later s₁)
    (hpasses : Conf.Passes format least (.drive chain t frames) s.heap
      (.drive (chain ++ [t]) next frames) s₁.heap) :
    ForceFollowed format s chain t frames r := by
  match r with
  | .ok v w =>
    obtain ⟨s₂, hlater, hw, hmemo, hpasses'⟩ := hr
    refine ⟨s₂, hs.trans hlater, hw, fun u hu => hmemo u ?_,
      (hpasses.trans hpasses').mono (Nat.le_add_right 1 least)⟩
    rw [List.head?_append, hu]
    rfl
  | .error .failed w =>
    obtain ⟨e, s₂, hlater, hw, hpasses'⟩ := hr
    exact ⟨e, s₂, hs.trans hlater, hw, (hpasses.trans hpasses').mono (Nat.zero_le _)⟩
  | .error .suspended _ => exact hr
  | .error .exhausted _ => trivial
  | .error .crashed _ => trivial

/-- The result of a thunk's code is followed: it is published, or driven in turn. -/
theorem forceNext_followed {E : Engine} {v : Value} {w₁ : World} {least : Nat}
    (hnext : Follows p format E fuel) (hs : s.Later s₁) (hw₁ : w₁.Eager s₁.heap format)
    (hleave : (Conf.leave (.thunk (chain ++ [t])) frames v).Sound s₁)
    (hpasses : Conf.Passes format least (.drive chain t frames) s.heap
      (.leave (.thunk (chain ++ [t])) frames v) s₁.heap) :
    ForceFollowed format s chain t frames (forceNext E fuel (chain ++ [t]) v w₁) := by
  by_cases hlazy : v.isLazy = false
  · have hforce : forceNext E fuel (chain ++ [t]) v w₁ =
        .ok (s₁.heap.completeChain (chain ++ [t]) v).1
          { w₁ with heap := (s₁.heap.completeChain (chain ++ [t]) v).2 } := by
      rw [← hw₁.heap]
      cases v <;> first | rfl | cases hlazy
    -- a value is published in the whole chain
    obtain ⟨-, ⟨hchain, hbounds⟩, hv⟩ := hleave
    obtain ⟨s₂, hheap, -, hlater, -, -, hmemo⟩ :=
      s₁.exists_later_completeChain hchain hbounds hlazy hv
    rw [hforce, ← hheap]
    refine ⟨s₂, hs.trans hlater, hw₁.onHeap s₂.heap, fun u hu => ?_, ?_⟩
    · rw [Heap.memo?, Heap.thunk_of_getElem? _ _ (hmemo u hu)]
    · rw [hheap]
      exact (hpasses.trans (Conf.leave_thunk hlazy).reaches.passes).mono (Nat.le_add_right 1 least)
  · obtain ⟨next, rfl⟩ : ∃ next, v = .lazy next := by cases v <;> simp_all [Value.isLazy]
    -- a thunk that comes out is driven next, with the chain that has led to it
    have hbecomes := hpasses.trans (Conf.leave_lazy hleave.2.2).reaches.passes
    exact (hnext s₁ _ next frames w₁ (Conf.sound_drive hleave) hw₁).of_passes hs hbecomes

/-- The evaluation of a thunk is followed, if the runs of inner machines are and, where these have
any fuel, the evaluation of what they come to. -/
theorem forceNow_followed {E : Engine}
    (hexecute : ∀ bounds base outside,
      FollowsRuns p format bounds base outside (Machine.execute E fuel))
    (hnext : 0 < fuel → Follows p format E (fuel + 1)) : Follows p format E (fuel + 2) := by
  intro s chain t frames w hdrive hw
  obtain ⟨hframes, hchain, hbounds⟩ := hdrive
  cases drive_cases hchain hbounds with
  | settles v s₁ hlater hmemo hdrive hforce =>
    rw [hforce E fuel w hw.heap hw.at.live]
    exact ⟨s₁, hlater, hw.onHeap s₁.heap, hmemo, (Conf.drive_ok hdrive).reaches.passes⟩
  | fails e s₁ hlater hdrive hforce =>
    rw [hforce E fuel w hw.heap hw.at.live]
    exact ⟨e, s₁, hlater, (hw.onHeap s₁.heap).fail e, (Conf.drive_fails hdrive).reaches.passes⟩
  | enters chunk locals s₁ hlater hrank hchunk hlocals hdrive hforce =>
    have hstack : StackSound s₁ (thunkFrame p chunk locals (chain ++ [t]) :: frames) :=
      Conf.stackSound_thunkFrame hframes hlater hrank hchain hbounds hlocals
    have hstart : Conf.Passes format 1 (.drive chain t frames) s.heap
        (.run (thunkFrame p chunk locals (chain ++ [t]) :: frames)) s₁.heap :=
      (Conf.drive_ok hdrive).reaches.passes
    have hbody := invokeChunk_followed hchunk (hexecute _ _ _) hstack (hw.onHeap s₁.heap)
    rw [hforce E fuel w hw.heap hw.at.live]
    cases hr : invokeChunk E fuel p chunk locals { w with heap := s₁.heap } with
    | error i w₁ =>
      rw [hr] at hbody
      rw [bind_error (releasing_error hr)]
      cases i with
      | failed =>
        obtain ⟨e, s₂, hlater₂, hw₂, hpasses⟩ := hbody
        obtain ⟨s₃, hheap, -, hlater₃⟩ := s₂.exists_later_releaseChain (chain ++ [t])
        refine ⟨e, s₃, hlater.trans (hlater₂.trans hlater₃), ⟨?_, hw₂.context⟩, ?_⟩
        · rw [hheap, ← hw₂.heap]
        · rw [hheap]
          have hdropped := hpasses.trans Conf.drop_thunk.reaches.passes
          exact (hstart.trans hdropped).mono (Nat.zero_le _)
      | suspended => exact hbody
      | exhausted => trivial
      | crashed => trivial
    | ok v w₁ =>
      -- a run that yields a value has had fuel, so what the value comes to may be followed as well
      have hfuel : 0 < fuel := by
        refine Nat.pos_of_ne_zero fun hzero => ?_
        obtain ⟨ch, hch⟩ := hchunk
        have henter : Frame.enter? p chunk locals .entry =
            some { program := p, chunk, locals := locals.toArray, kind := .entry } := by
          simp only [Frame.enter?, hch]
        rw [invokeChunk_eq henter (hw.onHeap s₁.heap).at.live, hzero] at hr
        cases hr
      rw [hr] at hbody
      obtain ⟨s₂, hlater₂, hw₂, hv, hpasses⟩ := hbody
      have hleave : (Conf.leave (.thunk (chain ++ [t])) frames v).Sound s₂ := by
        refine Conf.sound_leave hstack hlater₂ ?_
        rw [s₁.boundsOn_cons]
        exact hv
      rw [bind_ok (releasing_ok hr)]
      exact forceNext_followed (hnext hfuel) (hlater.trans hlater₂) hw₂ hleave
        (hstart.trans hpasses)

/-- Where an evaluation does not run out of fuel, it is followed like one with more fuel. -/
theorem Follows.of_approximates {E E' : Engine} {fuel' : Nat} (hfollows : Follows p format E' fuel')
    (happrox : ∀ chain t, Approximates (forceNow E fuel chain t) (forceNow E' fuel' chain t)) :
    Follows p format E fuel := by
  intro s chain t frames w hdrive hw
  rcases happrox chain t w with heq | ⟨w', heq⟩
  · rw [heq]
    exact hfollows s chain t frames w hdrive hw
  · rw [heq]
    trivial

/-- What forcing does at a level is followed if it is at the level below. -/
theorem follows_succ (hp : p.Renderless) (hforce : Follows p format (engine level) (level - 1))
    (fuel : Nat) : Follows p format (engine (level + 1)) fuel := by
  have hrest (n : Nat) : Follows p format (engine (level + 1)) (n + 2) := by
    induction n with
    | zero =>
      exact forceNow_followed (fun _ _ _ => execute_followed hp hforce 0) (absurd · (by simp))
    | succ n ih => exact forceNow_followed (fun _ _ _ => execute_followed hp hforce _) fun _ => ih
  exact (hrest fuel).of_approximates fun chain t =>
    forceNow_approximates (fun _ => .refl _) (Nat.le_add_right fuel 2) chain t

/-- The cooperative machine follows the evaluation of every thunk in eager mode. -/
theorem follows_engine (hp : p.Renderless) (format : Format) (level fuel : Nat) :
    Follows p format (engine level) fuel := by
  induction level generalizing fuel with
  | zero =>
    have hnone : Follows p format (engine 0) 0 := fun _ _ _ _ _ _ _ => trivial
    exact (follows_succ hp hnone fuel).of_approximates fun chain t =>
      forceNow_approximates (engine_approximates (Nat.zero_le 1)) (Nat.le_refl fuel) chain t
  | succ level ih => exact follows_succ hp (ih (level - 1)) fuel

end Following

end LazyMachine
