import LazyMachine.Proofs.Following
import LazyMachine.Proofs.StepLimit
import Mathlib

/-!
# Both modes agree

A program runs to the same end in cooperative and in eager mode, on the same heap (`modes_agree`),
unless one of the runs is given up.

One half is `execute_followed`: where eager evaluation comes to an end, the cooperative machine
comes to the same. For the other half it remains to show that eager evaluation ends where the
cooperative machine does. The induction is on the number of rounds that the cooperative machine
still needs, `Conf.Finishes`: whatever eager evaluation does in one go (a turn, the code of a thunk,
the evaluation of a thunk that an instruction needs) takes the cooperative machine at least one
round.
-/

namespace LazyMachine

variable {p : Program} {format : Format}

open Machine (Exit)

/-! ### Ends of runs -/

/-- How a run ended, with the failure that the context records. -/
def Machine.Exit.ending? (c : Context) : Exit → Option Ending
  | .done v => some (.done v)
  | .failed => c.error.map .failed
  | .aborted a => some (.aborted a)

/-- The run ended with `x` and left the heap `h`. -/
def EndsWith (x : Ending) (h : Heap) (r : EStateM.Result Interrupt World (Exit × Machine)) : Prop :=
  ∃ exit m w, r = .ok (exit, m) w ∧ exit.ending? w.context = some x ∧ w.heap = h

namespace Conf

variable {s : Store p} {frames : List Frame} {h : Heap}

/-- The run of the cooperative machine ends like the configuration that it starts from. -/
theorem EndsIn.endsWith {n : Nat} {x : Ending} {left : List Frame} {h' : Heap}
    (hend : (run frames).EndsIn format n h (.ended x left) h') :
    ∃ N, ∀ level fuel, N ≤ level → N ≤ fuel → ∀ (m : Machine) (w : World), m.stepLimit = none →
      w.At h format False →
      EndsWith x h' ((m.withFrames frames).execute (engine level) fuel w) := by
  induction n generalizing frames h with
  | zero =>
    obtain ⟨⟨N, hturn⟩, -⟩ := hend
    refine ⟨N + 1, fun level fuel hlevel hfuel m w hm hw => ?_⟩
    obtain ⟨fuel, rfl⟩ : ∃ n, fuel = n + 1 := ⟨fuel - 1, by omega⟩
    have hturn := hturn level fuel (by omega) (by omega) { m with steps := m.steps + 1 }
      { w with executed := w.executed + 1 } ⟨hw.heap, hw.context, hw.covered⟩
    have herror : w.context.error = none := by rw [hw.context]
    rw [execute_unlimited hm]
    cases x with
    | done v => exact ⟨.done v, _, _, bind_ok hturn, rfl, rfl⟩
    | failed e =>
      refine ⟨.failed, _, _, bind_ok hturn, ?_, rfl⟩
      simp only [Machine.Exit.ending?, Context.fail, herror, Option.none_or, Option.map_some]
    | aborted a => exact ⟨.aborted a, _, _, bind_ok hturn, rfl, rfl⟩
  | succ n ih =>
    obtain ⟨frames', h₁, ⟨N, hturn⟩, hrest⟩ := hend
    obtain ⟨N', hN'⟩ := ih hrest
    -- a round and the rest may need different amounts: the larger one does for both, and one more
    refine ⟨max N N' + 1, fun level fuel hlevel hfuel m w hm hw => ?_⟩
    obtain ⟨fuel, rfl⟩ : ∃ n, fuel = n + 1 := ⟨fuel - 1, by omega⟩
    have hw₁ : World.At { w with executed := w.executed + 1 } h format False :=
      ⟨hw.heap, hw.context, hw.covered⟩
    have hturn := hturn level fuel (by omega) (by omega) { m with steps := m.steps + 1 } _ hw₁
    have hproceed : (m.withFrames frames).execute (engine level) (fuel + 1) w =
        Machine.execute (engine level) fuel
          (Machine.withFrames { m with steps := m.steps + 1 } frames')
          { w with executed := w.executed + 1, heap := h₁ } := by
      rw [execute_unlimited hm]
      exact bind_ok hturn
    rw [hproceed]
    exact hN' level fuel (by omega) (by omega) { m with steps := m.steps + 1 } _ hm
      (hw₁.onHeap h₁)

/-- A run of the cooperative machine that ends does so after some number of rounds. -/
theorem exists_endsIn {level fuel : Nat} {m m' : Machine} {w w' : World} {exit : Exit}
    (hframes : StackSound s frames) (hm : m.stepLimit = none) (hw : w.At s.heap format False)
    (hend : (m.withFrames frames).execute (engine level) fuel w = .ok (exit, m') w') :
    ∃ n x left h', (run frames).EndsIn format n s.heap (.ended x left) h' := by
  induction fuel generalizing s frames m w with
  | zero => cases hend
  | succ fuel ih =>
    obtain ⟨o, s₁, hlater, ho, N, hturn⟩ : (run frames).Progresses format s :=
      progresses_run hframes
    let m₁ : Machine := { m with steps := m.steps + 1 }
    let w₁ : World := { w with executed := w.executed + 1 }
    have hw₁ : w₁.At s.heap format False := ⟨hw.heap, hw.context, hw.covered⟩
    have hproceed : (m₁.withFrames frames).proceed (engine level) fuel w₁ = .ok (exit, m') w' := by
      rw [← hend, execute_unlimited hm]
    -- the present round has an answer at this level, which is that at all higher ones
    have hround : (m₁.withFrames frames).turn (engine level) fuel w₁ =
        o.result m₁ { w₁ with heap := s₁.heap } := by
      have hhigh := hturn (max level N) (max fuel N) (le_max_right _ _) (le_max_right _ _) m₁ w₁ hw₁
      have happrox := turn_approximates (engine_approximates (le_max_left level N))
        (le_max_left fuel N) (m₁.withFrames frames)
      rw [← hhigh]
      refine (happrox.eq_of_ne fun w₂ hexhausted => ?_).symm
      rw [Machine.proceed, bind_error hexhausted] at hproceed
      cases hproceed
    cases o with
    | running frames' =>
      rw [Machine.proceed, bind_ok hround] at hproceed
      have hm₁ : m₁.stepLimit = none := hm
      obtain ⟨n, x, left, h', hrest⟩ := ih ho hm₁ (hw₁.onHeap s₁.heap) hproceed
      exact ⟨n + 1, x, left, h', frames', s₁.heap, ⟨N, hturn⟩, hrest⟩
    | ended x left => exact ⟨0, x, left, s₁.heap, ⟨N, hturn⟩, by rintro _ ⟨⟩⟩
    | crashed =>
      rw [Machine.proceed, bind_error hround] at hproceed
      cases hproceed

/-! ### Rounds that are left -/

/-- The run from the configuration ends after `n` more rounds, without being given up. -/
def Finishes (format : Format) (n : Nat) (c : Conf) (h : Heap) : Prop :=
  ∃ x left h', c.EndsIn format n h (.ended x left) h' ∧ ∀ a, x ≠ .aborted a

variable {c c' : Conf} {h' : Heap} {n : Nat}

theorem Finishes.not_aborts (hc : c.Finishes format n h) : ¬ c.Aborts format h := by
  rintro ⟨n', a, left', h'', haborts⟩
  obtain ⟨x, left, h', hend, hx⟩ := hc
  obtain ⟨-, hsame, -⟩ := hend.unique haborts
  cases hsame
  exact hx a rfl

theorem Finishes.not_crashed (hc : c.Finishes format n h) : ¬ c.Turns format h .crashed h' := by
  intro hcrashed
  obtain ⟨x, left, h'', hend, -⟩ := hc
  have hcrashes : c.EndsIn format 0 h .crashed h' := ⟨hcrashed, nofun⟩
  cases (hend.unique hcrashes).2.1

/-- Fewer rounds are left from a configuration that the run passes. -/
theorem Finishes.of_passes {least : Nat} (hc : c.Finishes format n h)
    (hpasses : Passes format least c h c' h') :
    ∃ n', n' + least ≤ n ∧ c'.Finishes format n' h' := by
  rcases hpasses with ⟨k, hk⟩ | haborts
  · obtain ⟨x, left, h'', hend, hx⟩ := hc
    obtain ⟨n', rfl, hend'⟩ := (hk n _ _).mp hend
    exact ⟨n', by omega, x, left, h'', hend', hx⟩
  · exact absurd haborts hc.not_aborts

end Conf

/-! ### Eager evaluation ends -/

section Ending

variable {ε α : Type} {s : Store p} {f : Frame} {below frames outside : List Frame} {w : World}
  {base : FrameKind} {m : Machine} {n : Nat}

/-- A regular outcome is kept by more fuel. -/
theorem Approximates.eq_of_regular {x y : Eval α} (h : Approximates x y)
    (hx : Leads x w fun r _ => Regular r) : y w = x w :=
  h.eq_of_ne fun _ hexhausted => not_regular_exhausted (hx.of_error hexhausted)

theorem Approximates.eq_of_step_regular {x y : Step α} (h : Approximates x y)
    (hx : Leads x w fun r _ => Step.Regular r) : y w = x w :=
  h.eq_of_ne fun _ hexhausted => not_regular_exhausted (α := α) (hx.of_error hexhausted)

/-- Evaluating a thunk in eager mode has a regular outcome at some level, if the cooperative machine
needs `n` more rounds from where it drives the thunk. -/
def Forces (p : Program) (format : Format) (n : Nat) : Prop :=
  ∀ (s : Store p) (chain : List (Ref .thunk)) (t : Ref .thunk) (frames : List Frame) (w : World),
    (Conf.drive chain t frames).Sound s → w.Eager s.heap format →
    (Conf.drive chain t frames).Finishes format n s.heap →
    ∃ level fuel, Leads (forceNow (engine level) fuel chain t) w fun r _ => Regular r

/-- Where an instruction is suspended in cooperative mode, it evaluates the same thunk in eager mode
and is as good as executed anew, whatever the level. -/
theorem advance_waits {L n level fuel : Nat} {t : Ref .thunk} (hp : p.Renderless)
    (hframes : StackSound s (f :: below)) (hw : w.Eager s.heap format)
    (hsuspends : ∀ w, w.At s.heap format False →
      f.advance (engine L) n w = Step.ofEval (Eval.suspend t) w)
    (hlevel : L ≤ level + 1) (hfuel : n ≤ fuel) :
    f.advance (engine (level + 1)) fuel w =
      (Step.ofEval (forceNow (engine level) (level - 1) [] t) >>= fun _ =>
        f.advance (engine (level + 1)) fuel) w := by
  let c : Regime p := .strictly format (s.boundsOn (f :: below)) level fuel
    (follows_engine hp format level (level - 1))
  have hstride : c.Stride f.Aborts s (f.advance (engine (level + 1)) fuel) fun s' =>
      Flow.Sound s' (s.boundsOn (f :: below)) f.kind := by
    refine Regime.Stride.advance id hframes.1 fun instr hinstr hrenders => ?_
    rw [hp.instr hframes.1.program hinstr] at hrenders
    cases hrenders
  -- what the instruction does in cooperative mode tells the cases apart
  obtain ⟨v, hv⟩ := Conf.exists_at s.heap format
  have hlift : f.advance (engine (level + 1)) fuel v = Step.ofEval (Eval.suspend t) v :=
    Conf.advance_lift (hsuspends v hv) (fun _ => nofun) hlevel hfuel
  cases hstride with
  | makes flow s₁ hlater hflow h => cases (h v hv.either).symm.trans hlift
  | fails e s₁ hlater h => cases (h v hv.either).symm.trans hlift
  | stops stop hstop h =>
    have hsame := (h v hv.either).symm.trans hlift
    rcases hstop with ⟨a, rfl, -⟩ | rfl <;> cases hsame
  | cut hshort h => cases (h v hv.either).symm.trans hlift
  | waits t' ht hmemo hc he =>
    have hsame := (hc v hv.either (hv.covered.resolve_right id)).symm.trans hlift
    have hcontext : v.context.suspend t' = v.context.suspend t :=
      congrArg World.context (EStateM.Result.error.inj hsame).2
    obtain rfl : t' = t := Option.some.inj (congrArg Context.pending hcontext)
    exact he w hw.at hw.mode

/-- An instruction has a regular outcome in eager mode, if the cooperative machine finishes from
where it executes the instruction. Each thunk that it needs takes the machine some of the rounds. -/
theorem advance_regular (hp : p.Renderless) (hforces : ∀ k ≤ n, Forces p format k)
    (hframes : StackSound s (f :: below)) (hw : w.Eager s.heap format)
    (hc : (Conf.run (f :: below)).Finishes format n s.heap) :
    ∃ level fuel, Leads (f.advance (engine level) fuel) w fun r _ => Step.Regular r := by
  induction n using Nat.strong_induction_on generalizing s w with
  | _ n ih =>
    let L := s.heap.extent
    let c : Regime p := .strictly format (s.boundsOn (f :: below)) L 1
      (follows_engine hp format L (L - 1))
    have hstride : c.Stride f.Aborts s (f.advance (engine (L + 1)) 1) fun s' =>
        Flow.Sound s' (s.boundsOn (f :: below)) f.kind := by
      refine Regime.Stride.advance id hframes.1 fun instr hinstr hrenders => ?_
      rw [hp.instr hframes.1.program hinstr] at hrenders
      cases hrenders
    cases hstride with
    | makes flow s₁ hlater hflow h => exact ⟨L + 1, 1, .of_eq_ok (h w hw.at) trivial⟩
    | fails e s₁ hlater h => exact ⟨L + 1, 1, .of_eq_error (h w hw.at) (.inl rfl)⟩
    | cut hshort h => exact absurd ⟨Nat.le_refl _, Nat.one_pos⟩ hshort
    | stops stop hstop h =>
      rcases hstop with ⟨a, rfl, -⟩ | rfl
      · exact ⟨L + 1, 1, .of_eq_error (h w hw.at) trivial⟩
      · -- a crash here would be one of the configuration too, and this one finishes
        exact absurd (Conf.run_crashes fun w hw => h w hw.either) hc.not_crashed
    | waits t ht hmemo hcoop he =>
      have hsuspends : ∀ w, w.At s.heap format False →
          f.advance (engine (L + 1)) 1 w = Step.ofEval (Eval.suspend t) w :=
        fun w hw => hcoop w hw.either (hw.covered.resolve_right id)
      have hdrive := Conf.sound_waits hframes ht
      -- the machine drives the thunk instead, in fewer rounds than it has left: this is what
      -- `hforces` is about
      obtain ⟨k, hk, hdriven⟩ := hc.of_passes
        (Conf.run_waits (drive_cases hdrive.2.1 hdrive.2.2) hsuspends).reaches.passes
      obtain ⟨L₁, n₁, hregular⟩ := hforces k (by omega) s [] t (f :: below) w hdrive hw hdriven
      have hfollowed := follows_engine hp format L₁ n₁ s [] t (f :: below) w hdrive hw
      have hforce {level : Nat} (hL : L₁ ≤ level) (hn : n₁ ≤ level - 1) :
          forceNow (engine level) (level - 1) [] t w = forceNow (engine L₁) n₁ [] t w :=
        (forceNow_approximates (engine_approximates hL) hn [] t).eq_of_regular hregular
      cases hr : forceNow (engine L₁) n₁ [] t w with
      | error i w₁ =>
        let level := max L (max L₁ (n₁ + 1))
        have hevaluated : forceNow (engine level) (level - 1) [] t w = .error i w₁ := by
          rw [hforce (by omega) (by omega), hr]
        have hadvance := advance_waits hp hframes hw hsuspends (by omega : L + 1 ≤ level + 1)
          (Nat.le_refl 1)
        rw [bind_error (Step.ofEval_error hevaluated)] at hadvance
        exact ⟨level + 1, 1, .of_eq_error hadvance (hregular.of_error hr)⟩
      | ok v w₁ =>
        rw [hr] at hfollowed
        obtain ⟨s₁, hlater, hw₁, -, hpasses⟩ := hfollowed
        -- the instruction is tried again on the later store, with fewer rounds left
        obtain ⟨k₁, hk₁, hrest⟩ := hdriven.of_passes hpasses
        obtain ⟨L₂, n₂, hregular₂⟩ := ih k₁ (by omega) (fun j hj => hforces j (by omega))
          (hframes.later hlater) hw₁ hrest
        let level := max (max L L₂) (max L₁ (n₁ + 1))
        refine ⟨level + 1, max 1 n₂, hregular₂.of_eq ?_⟩
        rw [advance_waits hp hframes hw hsuspends (by omega) (le_max_left 1 n₂)]
        have hevaluated : forceNow (engine level) (level - 1) [] t w = .ok v w₁ := by
          rw [hforce (by omega) (by omega), hr]
        rw [bind_ok (Step.ofEval_ok hevaluated)]
        exact (advance_approximates (engine_approximates (by omega)) (le_max_right 1 n₂)
          f).eq_of_step_regular hregular₂

/-- A failure is handled or ends the run, in any case at once. -/
theorem unwind_ok (frames : List Frame) (w : World) : ∃ r w', unwind frames w = .ok r w' := by
  induction frames generalizing w with
  | nil => exact ⟨_, _, rfl⟩
  | cons f below ih =>
    unfold unwind
    cases hf : f.handlers with
    | nil =>
      cases hkind : f.kind with
      | entry => exact ⟨_, _, rfl⟩
      | _ => exact ih _
    | cons handler handlers =>
      -- the error is made a value on a live context again, which always succeeds
      have hvalue := errorValue_leads w.context.error { w with context := w.context.reset }
      unfold Leads at hvalue
      split at hvalue
      · next v w' heq =>
        refine ⟨(true, f.handle handler handlers v :: below), w', ?_⟩
        simp only [Eval.context_apply, Eval.onContext_apply, Bind.bind, EStateM.bind, Pure.pure,
          EStateM.pure, heq]
      · obtain ⟨⟨v, hv⟩, -⟩ := hvalue
        cases hv

theorem recover_ok (m : Machine) (stop : Stop) (w : World) :
    ∃ round w', m.recover stop w = .ok round w' := by
  cases stop with
  | abort a => exact ⟨_, _, rfl⟩
  | interrupt i =>
    obtain ⟨⟨handled, frames⟩, w', heq⟩ := unwind_ok m.frames w
    rw [Machine.recover, bind_ok heq]
    cases handled <;> exact ⟨_, _, rfl⟩

/-- The turn of an inner machine has an outcome, if its instruction has one and is not suspended. -/
theorem turn_ok {E : Engine} {fuel : Nat} (hplain : Plain (f :: below))
    (hadvance : Leads (f.advance E fuel) w fun r _ =>
      Step.Regular r ∧ r ≠ .error (.interrupt .suspended)) (m : Machine) :
    ∃ round w', (m.withFrames (f :: below)).turn E fuel w = .ok round w' := by
  cases hr : f.advance E fuel w with
  | error stop w₁ =>
    obtain ⟨hregular, hsuspended⟩ := hadvance.of_error hr
    rw [turn_stop hr hregular m]
    match stop with
    | .abort a => exact recover_ok (m.withFrames (f :: below)) (.abort a) w₁
    | .interrupt .suspended => exact absurd rfl hsuspended
    | .interrupt .failed => exact recover_ok (m.withFrames (f :: below)) (.interrupt .failed) w₁
    | .interrupt .exhausted => exact absurd hregular (by simp [Step.Regular, Stop.Regular])
    | .interrupt .crashed => exact absurd hregular (by simp [Step.Regular, Stop.Regular])
  | ok flow w₁ =>
    -- only a result leaves the frame, and the kind of the frame says where it goes
    by_cases hleave : ∃ v, flow = .leave v
    · obtain ⟨v, rfl⟩ := hleave
      rw [turn_leave hr m]
      cases hplain with
      | entry hkind =>
        rw [hkind]
        exact ⟨_, _, rfl⟩
      | call hkind hbelow =>
        rw [hkind]
        cases below with
        | nil => exact ⟨_, _, rfl⟩
        | cons caller others => exact ⟨_, _, rfl⟩
    · exact ⟨_, _, turn_flow hr (fun v h => hleave ⟨v, h⟩) m⟩

/-- The turn of an inner machine has an outcome at some level, if the cooperative machine finishes
from there. -/
theorem exists_turn_ok (hp : p.Renderless) (hforces : ∀ k ≤ n, Forces p format k)
    (hplain : Plain frames) (hframes : StackSound s (nest base outside frames))
    (hw : w.Eager s.heap format)
    (hc : (Conf.run (nest base outside frames)).Finishes format n s.heap) (m : Machine) :
    ∃ level fuel round w₁,
      (m.withFrames frames).turn (engine (level + 1)) fuel w = .ok round w₁ := by
  obtain ⟨f, below, rfl⟩ : ∃ f below, frames = f :: below := by
    cases hplain <;> exact ⟨_, _, rfl⟩
  obtain ⟨level, fuel, hregular⟩ := advance_regular hp hforces hframes hw hc
  -- one level more does not change the outcome, and there it is known to be followed
  have hsame : (f.under base).advance (engine (level + 1)) fuel w =
      (f.under base).advance (engine level) fuel w :=
    (advance_approximates (engine_approximates (Nat.le_succ level)) (Nat.le_refl fuel)
      (f.under base)).eq_of_step_regular hregular
  have hfollowed : StepFollowed format s (f.under base) (nest base outside below)
      ((f.under base).advance (engine (level + 1)) fuel w) :=
    advance_followed hp (follows_engine hp format level (level - 1)) hframes hw
  have hadvance : Leads (f.advance (engine (level + 1)) fuel) w fun r _ =>
      Step.Regular r ∧ r ≠ .error (.interrupt .suspended) := by
    rw [advance_under base f]
    cases hr : (f.under base).advance (engine (level + 1)) fuel w with
    | ok flow w₁ =>
      have hmap : (Flow.withKind f.kind <$> (f.under base).advance (engine (level + 1)) fuel) w =
          .ok (flow.withKind f.kind) w₁ := by simp only [Functor.map, EStateM.map, hr]
      exact .of_eq_ok hmap ⟨trivial, nofun⟩
    | error stop w₁ =>
      have hmap : (Flow.withKind f.kind <$> (f.under base).advance (engine (level + 1)) fuel) w =
          .error stop w₁ := by simp only [Functor.map, EStateM.map, hr]
      refine .of_eq_error hmap ⟨hregular.of_error (hsame.symm.trans hr), ?_⟩
      rintro ⟨⟩
      rw [hr] at hfollowed
      exact hfollowed
  obtain ⟨round, w₁, hturn⟩ := turn_ok hplain hadvance m
  exact ⟨level, fuel, round, w₁, hturn⟩

/-- The run of an inner machine ends in eager mode if the cooperative one finishes from there. -/
theorem execute_regular (hp : p.Renderless) (hforces : ∀ k ≤ n, Forces p format k)
    (hplain : Plain frames) (hframes : StackSound s (nest base outside frames))
    (hm : m.stepLimit = none) (hw : w.Eager s.heap format)
    (hc : (Conf.run (nest base outside frames)).Finishes format n s.heap) :
    ∃ level fuel,
      Leads ((m.withFrames frames).execute (engine level) fuel) w fun r _ => Regular r := by
  induction n using Nat.strong_induction_on generalizing s frames m w with
  | _ n ih =>
    let m₁ : Machine := { m with steps := m.steps + 1 }
    let w₁ : World := { w with executed := w.executed + 1 }
    have hw₁ : w₁.Eager s.heap format := ⟨hw.heap, hw.context⟩
    obtain ⟨level, fuel, round, w₂, hturn⟩ :=
      exists_turn_ok hp hforces hplain hframes hw₁ hc m₁
    have hfollowed : TurnFollowed format (s.boundsOn (nest base outside frames)) base outside m₁ s
        (.run (nest base outside frames))
        ((m₁.withFrames frames).turn (engine (level + 1)) fuel w₁) :=
      turn_followed hp (follows_engine hp format level (level - 1)) hplain hframes rfl hw₁
    cases round with
    | ended exit m₂ =>
      have hend : (m.withFrames frames).execute (engine (level + 1)) (fuel + 1) w =
          .ok (exit, m₂) w₂ := by
        rw [execute_unlimited hm]
        exact bind_ok hturn
      exact ⟨level + 1, fuel + 1, .of_eq_ok hend trivial⟩
    | running m₂ =>
      rw [hturn] at hfollowed
      obtain ⟨frames', s₁, rfl, hlater, hw₂, hplain', hframes', hpasses⟩ := hfollowed
      -- what is left is shorter by the round that was made
      obtain ⟨k, hk, hrest⟩ := hc.of_passes hpasses
      have hm₁ : m₁.stepLimit = none := hm
      obtain ⟨L, n₁, hregular⟩ := ih k (by omega) (fun j hj => hforces j (by omega)) hplain'
        hframes' hm₁ hw₂ hrest
      refine ⟨max (level + 1) L, max fuel n₁ + 1, hregular.of_eq ?_⟩
      -- the round was made at its own level; at the common one it is the same
      have hlift : (m₁.withFrames frames).turn (engine (max (level + 1) L)) (max fuel n₁) w₁ =
          .ok (.running (m₁.withFrames frames')) w₂ :=
        (turn_approximates (engine_approximates (le_max_left (level + 1) L)) (le_max_left fuel n₁)
          (m₁.withFrames frames)).eq_ok hturn
      rw [execute_unlimited hm, Machine.proceed, bind_ok hlift]
      exact (execute_approximates (engine_approximates (le_max_right (level + 1) L))
        (le_max_right fuel n₁) (m₁.withFrames frames')).eq_of_regular hregular

/-- Whatever a run in eager mode comes to is followed, at every level. -/
theorem followsRuns_engine (hp : p.Renderless) (bounds : List ℚ) (base : FrameKind)
    (outside : List Frame) (level fuel : Nat) :
    FollowsRuns p format bounds base outside (Machine.execute (engine level) fuel) := by
  intro s frames m w hplain hframes hbounds hm hw
  rcases execute_approximates (engine_approximates (Nat.le_succ level)) (Nat.le_refl fuel)
    (m.withFrames frames) w with heq | ⟨w', heq⟩
  · rw [heq]
    exact execute_followed hp (follows_engine hp format level (level - 1)) fuel s frames m w hplain
      hframes hbounds hm hw
  · rw [heq]
    trivial

/-- The code of a thunk has a regular outcome in eager mode, if the cooperative machine finishes
from where it runs the code in a frame. -/
theorem invokeChunk_regular {chain : List (Ref .thunk)} {chunk : Nat} {locals : List Value}
    (hp : p.Renderless) (hforces : ∀ k ≤ n, Forces p format k)
    (hchunk : ∃ ch, p.chunk? chunk = some ch)
    (hframes : StackSound s (thunkFrame p chunk locals chain :: frames))
    (hw : w.Eager s.heap format)
    (hc : (Conf.run (thunkFrame p chunk locals chain :: frames)).Finishes format n s.heap) :
    ∃ level fuel,
      Leads (invokeChunk (engine level) fuel p chunk locals) w fun r _ => Regular r := by
  let entry : Frame := { program := p, chunk, locals := locals.toArray, kind := .entry }
  have henter : Frame.enter? p chunk locals .entry = some entry := by
    obtain ⟨ch, hch⟩ := hchunk
    simp only [Frame.enter?, hch]
    rfl
  -- outside, the same code runs in a frame of the thunk, on top of the others
  obtain ⟨level, fuel, hregular⟩ : ∃ level fuel,
      Leads ((Machine.withFrames {} [entry]).execute (engine level) fuel) w fun r _ => Regular r :=
    execute_regular hp hforces (.entry rfl) hframes rfl hw hc
  refine ⟨level, fuel, ?_⟩
  refine Leads.of_eq
    (y := Machine.execute (engine level) fuel (Machine.withFrames {} [entry]) >>= _)
    ?_ (invokeChunk_eq henter hw.at.live _)
  rw [leads_bind]
  refine hregular.imp fun r w₁ hr => ?_
  rcases r with i | ⟨v | _ | a, m⟩
  · exact hr
  · trivial
  · exact .inl rfl
  · exact .inl rfl

/-- Evaluating a thunk in eager mode has a regular outcome, if the cooperative machine finishes from
where it drives the thunk. -/
theorem forces (hp : p.Renderless) (n : Nat) : Forces p format n := by
  induction n using Nat.strong_induction_on with
  | _ n ih =>
    intro s chain t frames w hdrive hw hc
    obtain ⟨hframes, hchain, hbounds⟩ := hdrive
    cases drive_cases hchain hbounds with
    | settles v s₁ hlater hmemo hdrive hforce =>
      exact ⟨0, 2, .of_eq_ok (hforce (engine 0) 0 w hw.heap hw.at.live) trivial⟩
    | fails e s₁ hlater hdrive hforce =>
      exact ⟨0, 2, .of_eq_error (hforce (engine 0) 0 w hw.heap hw.at.live) (.inl rfl)⟩
    | enters chunk locals s₁ hlater hrank hchunk hlocals hdrive hforce =>
      have hstack : StackSound s₁ (thunkFrame p chunk locals (chain ++ [t]) :: frames) :=
        Conf.stackSound_thunkFrame hframes hlater hrank hchain hbounds hlocals
      have hw₁ := hw.onHeap s₁.heap
      -- the code of the thunk
      obtain ⟨k, hk, hbody⟩ := hc.of_passes (Conf.drive_ok hdrive).reaches.passes
      obtain ⟨L, fuel, hregular⟩ :=
        invokeChunk_regular hp (fun j hj => ih j (by omega)) hchunk hstack hw₁ hbody
      have hfollowed := invokeChunk_followed hchunk (followsRuns_engine hp _ _ _ L fuel) hstack hw₁
      cases hr : invokeChunk (engine L) fuel p chunk locals { w with heap := s₁.heap } with
      | error i w₂ =>
        have hfails := (hforce (engine L) fuel w hw.heap hw.at.live).trans
          (bind_error (releasing_error hr))
        exact ⟨L, fuel + 2, .of_eq_error hfails (hregular.of_error hr)⟩
      | ok v w₂ =>
        rw [hr] at hfollowed
        obtain ⟨s₂, hlater₂, hw₂, hv, hpasses⟩ := hfollowed
        obtain ⟨k₁, hk₁, hleave⟩ := hbody.of_passes hpasses
        by_cases hlazy : v.isLazy = false
        · have hpublished : Leads (completeChain (chain ++ [t]) v) w₂ fun r _ => Regular r :=
            trivial
          refine ⟨L, fuel + 2, hpublished.of_eq ?_⟩
          rw [hforce (engine L) fuel w hw.heap hw.at.live, bind_ok (releasing_ok hr)]
          cases v <;> first | rfl | cases hlazy
        · -- a lazy result is driven in turn, which takes fewer rounds
          obtain ⟨next, rfl⟩ : ∃ next, v = .lazy next := by cases v <;> simp_all [Value.isLazy]
          have hsound : (Conf.leave (.thunk (chain ++ [t])) frames (.lazy next)).Sound s₂ := by
            refine Conf.sound_leave hstack hlater₂ ?_
            rw [s₁.boundsOn_cons]
            exact hv
          obtain ⟨k₂, hk₂, hdriven⟩ := hleave.of_passes (Conf.leave_lazy hsound.2.2).reaches.passes
          obtain ⟨L₂, n₂, hregular₂⟩ := ih k₂ (by omega) s₂ _ next frames w₂
            (Conf.sound_drive hsound) hw₂ hdriven
          refine ⟨max L L₂, max fuel n₂ + 2, hregular₂.of_eq ?_⟩
          have hlift : invokeChunk (engine (max L L₂)) (max fuel n₂) p chunk locals
              { w with heap := s₁.heap } = .ok (.lazy next) w₂ :=
            (invokeChunk_approximates (engine_approximates (le_max_left L L₂))
              (le_max_left fuel n₂) p chunk locals).eq_ok hr
          rw [hforce _ _ w hw.heap hw.at.live, bind_ok (releasing_ok hlift), forceNext]
          exact (forceNow_approximates (engine_approximates (le_max_right L L₂)) (by omega) _
            next).eq_of_regular hregular₂

end Ending

/-! ### Runs of programs -/

/-- What the host is told of the end of a run. -/
def Ending.answer : Ending → Answer Value
  | .done v => .ok v
  | .failed e => .error (.runtime e)
  | .aborted a => .error (.aborted a)

/-- A world with a fresh context. -/
def World.fresh (w : World) (mode : ForceMode) (format : Format) : World :=
  { w with context := { mode, format } }

/-- The run of the program from a world, on a fresh context and a machine without a limit, comes to
the answer and leaves the heap `h`. -/
def Program.RunsTo (p : Program) (mode : ForceMode) (format : Format) (w : World)
    (answer : Answer Value) (h : Heap) : Prop :=
  ∃ level m w', Machine.run level {} p (w.fresh mode format) = .ok (answer, m) w' ∧ w'.heap = h

section Programs

variable {f : Frame} {w : World} {mode : ForceMode} {answer answer' : Answer Value} {h h' : Heap}

/-- A run comes to one answer and one heap only. -/
theorem Program.RunsTo.unique (hrun : p.RunsTo mode format w answer h)
    (hrun' : p.RunsTo mode format w answer' h') : answer = answer' ∧ h = h' := by
  obtain ⟨level, m, w₁, heq, rfl⟩ := hrun
  obtain ⟨level', m', w₁', heq', rfl⟩ := hrun'
  have hlift := (run_approximates (le_max_left level level') {} p).eq_ok heq
  have hlift' := (run_approximates (le_max_right level level') {} p).eq_ok heq'
  cases hlift.symm.trans hlift'
  exact ⟨rfl, rfl⟩

/-- What an outermost run in eager mode ends with, the cooperative machine ends with as well, unless
it gives up. -/
theorem RunFollowed.endsWith {s : Store p} {c : Conf} {bounds : List ℚ} {exit : Exit} {m : Machine}
    {w' : World} (hr : RunFollowed format bounds .entry [] s c (.ok (exit, m) w')) :
    ∃ x, EndsWith x w'.heap (.ok (exit, m) w') ∧
      ((∃ n left, c.EndsIn format n s.heap (.ended x left) w'.heap) ∨ c.Aborts format s.heap) := by
  match exit with
  | .done v =>
    obtain ⟨s₁, -, hw, -, hpasses⟩ := hr
    rw [hw.heap]
    refine ⟨.done v, ⟨.done v, m, w', rfl, rfl, hw.heap⟩, hpasses.imp_left fun ⟨k, hk⟩ => ?_⟩
    exact ⟨_, [], (hk _ _ _).mpr ⟨0, rfl, Conf.leave_entry, nofun⟩⟩
  | .failed =>
    obtain ⟨e, s₁, -, hw, hpasses⟩ := hr
    rw [hw.heap]
    refine ⟨.failed e, ⟨.failed, m, w', rfl, ?_, hw.heap⟩, hpasses.imp_left fun ⟨k, hk⟩ => ?_⟩
    · rw [hw.context]
      rfl
    · exact ⟨_, [], (hk _ _ _).mpr ⟨0, rfl, Conf.drop_entry, nofun⟩⟩
  | .aborted a => exact ⟨.aborted a, ⟨.aborted a, m, w', rfl, rfl, rfl⟩, .inr hr.2⟩

/-- An outermost machine is not nested in anything. -/
theorem nest_entry (hf : f.kind = .entry) : nest .entry [] [f] = [f] := by
  cases f
  cases hf
  rfl

/-- A program without an entry has the same answer in every mode. -/
theorem runsTo_of_no_entry (hf : Frame.enter? p p.entry [] .entry = none) :
    p.RunsTo mode format w answer h ↔ answer = .error (.missingEntry p.entry) ∧ w.heap = h := by
  have hrun (level : Nat) : Machine.run level {} p (w.fresh mode format) =
      .ok (.error (.missingEntry p.entry), {}) (w.fresh mode format) := by
    simp only [Machine.run, hf]
    rfl
  constructor
  · rintro ⟨level, m, w', heq, rfl⟩
    cases (hrun level).symm.trans heq
    exact ⟨rfl, rfl⟩
  · rintro ⟨rfl, rfl⟩
    exact ⟨0, {}, _, hrun 0, rfl⟩

section Entry

variable (hf : Frame.enter? p p.entry [] .entry = some f)

include hf

/-- The host is told how the machine ended. -/
theorem RunsTo.of_endsWith {x : Ending} {level : Nat}
    (hend : EndsWith x h ((Machine.withFrames {} [f]).execute (engine level) level
      (w.fresh mode format))) : p.RunsTo mode format w x.answer h := by
  obtain ⟨exit, m, w', heq, hx, rfl⟩ := hend
  cases exit with
  | done v =>
    cases hx
    refine ⟨level, m, w', ?_, rfl⟩
    simp only [Machine.run, hf]
    exact bind_ok heq
  | aborted a =>
    cases hx
    refine ⟨level, m, w', ?_, rfl⟩
    simp only [Machine.run, hf]
    exact bind_ok heq
  | failed =>
    obtain ⟨e, he, rfl⟩ := Option.map_eq_some_iff.mp hx
    -- the failure is taken off the context to answer with it
    refine ⟨level, m, { w' with context := w'.context.takeError.2 }, ?_, rfl⟩
    simp only [Machine.run, hf]
    refine (bind_ok heq).trans ?_
    have hanswer : w'.context.hostError .failed = .runtime e := by
      rw [Context.hostError, he]
    rw [Ending.answer, ← hanswer]
    rfl

/-- A run of the program is a run of the machine from the entry. -/
theorem RunsTo.exists_execute (hrun : p.RunsTo mode format w answer h) :
    ∃ level exit m w', (Machine.withFrames {} [f]).execute (engine level) level
      (w.fresh mode format) = .ok (exit, m) w' := by
  obtain ⟨level, m, w', heq, -⟩ := hrun
  simp only [Machine.run, hf] at heq
  cases hr : (Machine.withFrames {} [f]).execute (engine level) level (w.fresh mode format) with
  | ok r w₁ => exact ⟨level, r.1, r.2, w₁, hr⟩
  | error i w₁ =>
    rw [bind_error hr] at heq
    cases heq

/-- In cooperative mode the answers are those of the configurations. -/
theorem cooperative_runsTo_iff (hw : w.heap = {}) :
    p.RunsTo .cooperative format w answer h ↔ ∃ n x left,
      (Conf.run [f]).EndsIn format n {} (.ended x left) h ∧ answer = x.answer := by
  have hw₁ : World.At (w.fresh .cooperative format) (Store.empty p).heap format False :=
    ⟨hw, rfl, .inl rfl⟩
  have hends {n : Nat} {x : Ending} {left : List Frame} {h : Heap}
      (hend : (Conf.run [f]).EndsIn format n {} (.ended x left) h) :
      p.RunsTo .cooperative format w x.answer h := by
    obtain ⟨N, hN⟩ := hend.endsWith
    exact RunsTo.of_endsWith hf (hN N N (Nat.le_refl N) (Nat.le_refl N) {} _ rfl hw₁)
  constructor
  · intro hrun
    obtain ⟨level, exit, m, w', heq⟩ := RunsTo.exists_execute hf hrun
    -- the configurations come to an end, and the run has no other answer than theirs
    obtain ⟨n, x, left, h', hend⟩ := Conf.exists_endsIn (stackSound_entry hf) rfl hw₁ heq
    obtain ⟨rfl, rfl⟩ := hrun.unique (hends hend)
    exact ⟨n, x, left, hend, rfl⟩
  · rintro ⟨n, x, left, hend, rfl⟩
    exact hends hend

/-- The answers in eager mode are those of the configurations, unless the cooperative machine gives
up. -/
theorem eager_runsTo (hp : p.Renderless) (hw : w.heap = {})
    (hrun : p.RunsTo .eager format w answer h) :
    (∃ n x left, (Conf.run [f]).EndsIn format n {} (.ended x left) h ∧ answer = x.answer) ∨
      (Conf.run [f]).Aborts format {} := by
  have hw₁ : World.Eager (w.fresh .eager format) (Store.empty p).heap format := ⟨hw, rfl⟩
  have hkind := Frame.kind_of_enter? hf
  have hnest := nest_entry hkind
  obtain ⟨level, exit, m, w', heq⟩ := RunsTo.exists_execute hf hrun
  have hfollowed := followsRuns_engine hp _ .entry [] level level (Store.empty p) [f] {} _
    (.entry hkind) (by rw [hnest]; exact stackSound_entry hf) rfl rfl hw₁
  rw [heq, hnest] at hfollowed
  obtain ⟨x, hend, hx⟩ := hfollowed.endsWith
  rw [← heq] at hend
  obtain ⟨rfl, rfl⟩ := hrun.unique (RunsTo.of_endsWith hf hend)
  exact hx.imp_left fun ⟨n, left, hendsIn⟩ => ⟨n, x, left, hendsIn, rfl⟩

/-- Where the cooperative machine finishes, eager evaluation comes to an answer, too. -/
theorem exists_eager_runsTo {n : Nat} (hp : p.Renderless) (hw : w.heap = {})
    (hc : (Conf.run [f]).Finishes format n {}) :
    ∃ answer h, p.RunsTo .eager format w answer h := by
  have hw₁ : World.Eager (w.fresh .eager format) (Store.empty p).heap format := ⟨hw, rfl⟩
  have hkind := Frame.kind_of_enter? hf
  have hnest := nest_entry hkind
  have hframes : StackSound (Store.empty p) (nest .entry [] [f]) := by
    rw [hnest]
    exact stackSound_entry hf
  obtain ⟨level, fuel, hregular⟩ : ∃ level fuel,
      Leads ((Machine.withFrames {} [f]).execute (engine level) fuel) (w.fresh .eager format)
        fun r _ => Regular r :=
    execute_regular hp (fun k _ => forces hp k) (.entry hkind) hframes rfl hw₁
      (by rw [hnest]; exact hc)
  -- one number serves as the level and as the fuel
  have hlift := (execute_approximates (engine_approximates (le_max_left level fuel))
    (le_max_right level fuel) (Machine.withFrames {} [f])).eq_of_regular hregular
  have hfollowed := followsRuns_engine hp _ .entry [] level fuel (Store.empty p) [f] {} _
    (.entry hkind) hframes rfl rfl hw₁
  cases hr : (Machine.withFrames {} [f]).execute (engine level) fuel (w.fresh .eager format) with
  | error i w' =>
    rw [hr] at hfollowed
    rcases hregular.of_error hr with rfl | rfl
    · exact hfollowed.elim
    · exact hfollowed.elim
  | ok r w' =>
    rw [hr] at hfollowed
    obtain ⟨x, hend, -⟩ := hfollowed.endsWith
    rw [← hr, ← hlift] at hend
    exact ⟨x.answer, w'.heap, RunsTo.of_endsWith hf hend⟩

end Entry

end Programs

/-- Both modes agree. If the code makes no texts of structures and the cooperative run is not given
up, cooperative and eager evaluation of a program come to the same answer, if to any: the same value
or the same failure, on heaps with the same objects and the same states of all thunks. -/
theorem modes_agree (p : Program) (hp : p.Renderless) (format : Format) (w : World)
    (hw : w.heap = {}) (hkept : ∀ a h, ¬ p.RunsTo .cooperative format w (.error (.aborted a)) h)
    (answer : Answer Value) (h : Heap) :
    p.RunsTo .cooperative format w answer h ↔ p.RunsTo .eager format w answer h := by
  cases hf : Frame.enter? p p.entry [] .entry with
  | none => rw [runsTo_of_no_entry hf, runsTo_of_no_entry hf]
  | some f =>
    have haborts : ¬ (Conf.run [f]).Aborts format {} := by
      rintro ⟨n, a, left, h', hend⟩
      exact hkept a h' ((cooperative_runsTo_iff hf hw).mpr ⟨n, _, left, hend, rfl⟩)
    rw [cooperative_runsTo_iff hf hw]
    constructor
    · rintro ⟨n, x, left, hend, rfl⟩
      have hx : ∀ a, x ≠ .aborted a := by
        rintro a rfl
        exact haborts ⟨n, a, left, h, hend⟩
      -- the run is not given up, so eager evaluation ends too, and it has no other answer to come
      -- to
      obtain ⟨answer', h', hrun⟩ := exists_eager_runsTo hf hp hw ⟨x, left, h, hend, hx⟩
      rcases eager_runsTo hf hp hw hrun with ⟨n', x', left', hend', rfl⟩ | hgiven
      · obtain ⟨-, hsame, rfl⟩ := hend.unique hend'
        cases hsame
        exact hrun
      · exact absurd hgiven haborts
    · intro hrun
      exact (eager_runsTo hf hp hw hrun).resolve_right haborts

/-- A program that forces a thunk whose value is that of another one, and yields the thunk. -/
def relaying : Program :=
  ⟨#[⟨"main", 0, #[.delay 1 0, .dup, .force, .pop]⟩, ⟨"relay", 0, #[.delay 2 0]⟩,
    ⟨"seven", 0, #[.push (.int 7)]⟩], 0⟩

/-- What both modes leave of it: the two thunks have the same value. -/
def relayed : Heap :=
  { thunks := #[.forced (.int 7), .forced (.int 7)]
    functions := #[⟨"relay", 0, [], .code relaying 1 []⟩, ⟨"seven", 0, [], .code relaying 2 []⟩] }

theorem relaying_runsTo : relaying.RunsTo .cooperative {} {} (.ok (.lazy ⟨0⟩)) relayed := by
  refine ⟨10, { steps := 10 },
    { heap := relayed, context := { mode := .cooperative }, executed := 10 }, ?_, rfl⟩
  cbv

/-- Both modes come to the same thunk there, evaluated. -/
theorem modes_agree_relaying : relaying.Renderless ∧
    relaying.RunsTo .cooperative {} {} (.ok (.lazy ⟨0⟩)) relayed ∧
    relaying.RunsTo .eager {} {} (.ok (.lazy ⟨0⟩)) relayed := by
  have hp : relaying.Renderless := by
    unfold Program.Renderless
    decide
  have hagree := modes_agree relaying hp {} {} rfl (fun a h hgiven => by
    cases (relaying_runsTo.unique hgiven).1) (.ok (.lazy ⟨0⟩)) relayed
  exact ⟨hp, relaying_runsTo, hagree.mp relaying_runsTo⟩

end LazyMachine
