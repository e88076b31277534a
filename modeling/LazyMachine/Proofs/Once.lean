import LazyMachine.Proofs.Driving
import LazyMachine.Proofs.Thrift
import Mathlib

/-!
# Closures run once

The way around the engine for `Discipline.thrift`. The one place where a closure that has been run
could be given back without a failure is the driving of a chain: if the last computation of the
chain were suspended, all thunks that wait for it would wait for their own computations again. A
closure runs to its end in eager mode, code runs on frames of the machine, and a host function
without arguments is assumed never to be suspended; so this does not happen (`drive_keepsTo`).

Hence in a run that ends with a value, and in which no handler has learnt of a failure, no closure
is run twice (`closures_run_once`). Without that assumption a closure can be run twice
(`closure_runs_twice`).
-/

namespace LazyMachine

variable {α : Type} {t : Tally}

open Discipline (Lawful thrift honesty)

/-- A computation that counts `n` where it starts has been run and has yielded a value. -/
def World.Ran (t : Tally) (n : Nat) (w w' : World) : Prop :=
  honesty.done w w' ∧ w'.heap.Quiet t ∧ w.Spares t n w'

/-- A failure has stopped an evaluation, and nothing else may. -/
def Interrupt.OnlyFails (t : Tally) (w w' : World) (i : Interrupt) : Prop :=
  i.Regular → i = .failed ∧ (thrift t).stopped .failed w w'

/-- Nothing is suspended in eager mode. -/
theorem Eval.KeepsTo.ne_suspended {x : Eval α} (hx : x.KeepsTo (thrift t)) {w : World}
    (hw : (thrift t).start w) (hmode : w.context.mode = .eager) :
    Leads x w fun r _ => r ≠ .error .suspended := by
  refine (hx w hw).imp fun r w' h => ?_
  cases r with
  | ok a => simp
  | error i =>
    rintro ⟨⟩
    -- a suspension that is recorded needs the cooperative mode
    have hcooperative : w.context.mode = .cooperative := (h (.inr rfl)).1.2.1
    rw [hmode] at hcooperative
    cases hcooperative

/-- Under eager mode nothing is suspended. -/
theorem Eval.KeepsTo.withMode_ne_suspended {x : Eval α} (hx : x.KeepsTo (thrift t)) {w : World}
    (hw : (thrift t).start w) :
    Leads (LazyMachine.withMode .eager x) w fun r _ => r ≠ .error .suspended := by
  simp only [LazyMachine.withMode, leads_bind, leads_context, leads_onContext, leads_tryCatch]
  refine (hx.ne_suspended (Lawful.eager hw) rfl).imp fun r w' h => ?_
  cases r with
  | ok a => simp
  | error i => simpa using h

/-- What is not suspended yields a value or fails. -/
theorem Eval.KeepsTo.ran {x : Eval α} (hx : x.KeepsTo (thrift t)) {w : World}
    (hw : (thrift t).start w) (hne : Leads x w fun r _ => r ≠ .error .suspended) :
    Leads x w fun
      | .ok _, w' => w.Ran t 0 w'
      | .error i, w' => i.OnlyFails t w w' := by
  refine ((hx w hw).and hne).imp fun r w' ⟨h, hne⟩ => ?_
  cases r with
  | ok a => exact h
  | error i =>
    rintro (rfl | rfl)
    · exact ⟨rfl, h (.inl rfl)⟩
    · exact absurd rfl hne

section Engine

variable {level : Nat} (hE : ∀ o, (engine level o).KeepsTo (thrift t))

include hE

/-! ### Computations behind thunks -/

/-- A closure runs to its end in eager mode and counts at most once. -/
theorem closure_ran {w : World} {code : HostCode} (hw : (thrift t).start w)
    (hhonest : code.Honest) (hmetered : code.Metered t) :
    Leads (withMode .eager (code.run (engine level))) w fun
      | .ok _, w' => w.Ran t ((Deferred.native code).toll t) w'
      | .error i, w' => i.OnlyFails t w w' := by
  rcases hmetered with hquiet | ⟨next, rfl, hnext⟩
  · rw [hquiet.toll]
    have hrun : (code.run (engine level)).KeepsTo (thrift t) :=
      hostCode_keepsTo hE ⟨hhonest, hquiet⟩
    exact hrun.withMode.ran hw (hrun.withMode_ne_suspended hw)
  · have hrun : (next.run (engine level)).KeepsTo (thrift t) :=
      hostCode_keepsTo hE ⟨hhonest, hnext⟩
    -- counting raises the stake by one, which is the toll of the closure; the rest of it is quiet
    let counted : World := { w with host := w.host.count t }
    have hcounted : (thrift t).start counted := hw
    have htoll : (Deferred.native (.count t next)).toll t = 1 := by
      simp [Deferred.toll, Thunk.unrun]
    have hstake : counted.stake t = w.stake t + 1 := by
      simp only [World.stake, counted, Host.tally_count_self]
      omega
    rw [htoll]
    have hran := hrun.withMode.ran hcounted (hrun.withMode_ne_suspended hcounted)
    refine Leads.imp (hran.of_eq rfl) fun r w' h => ?_
    cases r with
    | ok a => exact ⟨h.1, h.2.1, h.2.2.reports, fun hle => hstake ▸ h.2.2.stake hle⟩
    | error i =>
      intro hreg
      obtain ⟨hi, hhonest', hquiet', hreports, -⟩ := h hreg
      exact ⟨hi, hhonest', hquiet', hreports, by rintro ⟨⟩⟩

omit hE in
/-- Binding a function to no arguments is never suspended: only a host function without arguments
runs then. -/
theorem bind_nil_ne_suspended {w : World} (fuel : Nat) (f : Ref .function)
    (hw : (thrift t).start w) :
    Leads (bind (engine level) fuel f []) w fun r _ => r ≠ .error .suspended := by
  induction fuel generalizing f with
  | zero => simp [LazyMachine.bind]
  | succ fuel ih =>
    have hf := hw.2.function f
    simp only [LazyMachine.bind, leads_bind, Eval.ensureLive, leads_context,
      hw.1.2.interrupt?, leads_pure, leads_heap]
    split
    · simp
    · next hlack =>
      -- nothing lacks, so no argument is applied and there are none to force
      have hremaining : (w.heap.function f).remaining = 0 := by simpa using hlack
      have hnone : (w.heap.function f).applied = [] ∧ (w.heap.function f).arity = 0 := by
        rw [Function.remaining] at hremaining
        rcases hf.applied with happlied | hlt
        · rw [happlied] at hremaining
          exact ⟨happlied, by simpa using hremaining⟩
        · omega
      rw [hnone.1, hremaining]
      split
      · next code hbody =>
        rw [leads_bind]
        refine ((hf.code code hbody).2 hnone.2 level w hw.1.1 hw.1.2).imp fun r w' h => ?_
        cases r with
        | ok v => simp
        | error i => simpa using h
      · simp
      · next table hbody =>
        simp only [OverloadTable.select, forceAll, List.take_nil, List.append_nil, leads_bind,
          leads_pure]
        split
        · next c _ =>
          simp only [leads_pure]
          refine (ih c.target).imp fun r w' h => ?_
          cases r with
          | ok a => simp
          | error i => simpa using h
        · simp

/-- A computation that is bound has run, and counts where it starts. -/
theorem deferredBind_ran {w : World} (fuel : Nat) {d : Deferred} (hw : (thrift t).start w)
    (hhonest : d.Honest) (hmetered : d.Metered t) :
    Leads (d.bind (engine level) fuel) w fun
      | .ok _, w' => w.Ran t (d.toll t) w'
      | .error i, w' => i.OnlyFails t w w' := by
  cases d with
  | native code =>
    simp only [Deferred.bind, leads_bind]
    refine (closure_ran hE hw hhonest hmetered).imp fun r w' h => ?_
    cases r with
    | ok v => exact h
    | error i => exact h
  | call f => exact (bind_keepsTo hE fuel f []).ran hw (bind_nil_ne_suspended fuel f hw)

/-! ### Driving thunks -/

omit hE in
/-- A failure may give back whatever waits. -/
theorem thrift_release {w w' : World} (h : (thrift t).stopped .failed w w')
    (chain : List (Ref .thunk)) :
    (thrift t).stopped .failed w (w'.withHeap (w'.heap.releaseChain chain)) := by
  obtain ⟨⟨hhonest, hrecorded⟩, hquiet, hreports, -⟩ := h
  refine ⟨⟨hhonest.releaseChain chain, hrecorded⟩, hquiet.releaseChain chain, ?_, by rintro ⟨⟩⟩
  rw [World.withHeap, Heap.reports_releaseChain]
  exact hreports

omit hE in
/-- Completing a chain runs nothing. -/
theorem completeChain_keepsTo (chain : List (Ref .thunk)) (v : Value) :
    (completeChain chain v).KeepsTo (thrift t) := by
  refine .onHeap fun w hw => ?_
  refine thrift_withHeap (hw.1.1.completeChain chain v) (hw.2.completeChain chain v) ?_ ?_
  · exact Nat.le_of_eq (Heap.reports_completeChain _ _ _).symm
  · exact Heap.unrun_completeChain_le t w.heap chain v

omit hE in
/-- Claiming a thunk and running its computation leaves the stake as it is. What waits for the thunk
is given back only with a failure. -/
theorem releasing_claim_ran {w : World} {x : Deferred → Eval α} (hw : (thrift t).start w)
    (hx : ∀ (d : Deferred) (w₁ : World), (thrift t).start w₁ → w₁.context = w.context →
      d.Honest → d.Metered t → Leads (x d) w₁ fun
        | .ok _, w' => w₁.Ran t (d.toll t) w'
        | .error i, w' => i.OnlyFails t w₁ w')
    (waiting : List (Ref .thunk)) (r : Ref .thunk) :
    Leads (releasing waiting (claim r)) w fun
      | .ok (.ready _), w' => w' = w
      | .ok (.run d), w₁ => Leads (releasing (waiting ++ [r]) (x d)) w₁ fun
        | .ok _, w' => (thrift t).done w w'
        | .error i, w' => i.OnlyFails t w w'
      | .error i, w' => i.OnlyFails t w w' := by
  have hhonest := hw.1.1.thunk r
  have hmetered := hw.2.thunk r
  obtain ⟨v, -, hclaim⟩ | ⟨d, hs, hclaim⟩ | ⟨-, hclaim⟩ := claim_cases w r
  · exact .of_eq_ok (releasing_ok hclaim) rfl
  · rw [hs] at hhonest hmetered
    refine .of_eq_ok (releasing_ok hclaim) ?_
    have hunrun := Heap.unrun_claim t hs
    have hclaimed : (thrift t).done w (w.withHeap (w.heap.setThunk r (.running d))) :=
      thrift_withHeap (hw.1.1.setThunk r hhonest) (hw.2.setThunk r hmetered) (Nat.le_refl _)
        (by omega)
    -- the claim takes the toll off the stake, and the run puts it back
    simp only [releasing, leads_tryCatch]
    refine (hx d _ (Lawful.next hw hclaimed) rfl hhonest hmetered).imp fun o w' h => ?_
    cases o with
    | ok a =>
      refine ⟨Lawful.trans hclaimed.1 h.1, h.2.1, h.2.2.reports, fun hle => ?_⟩
      have hstake := h.2.2.stake hle
      simp only [World.stake, World.withHeap] at hstake ⊢
      omega
    | error i =>
      intro hreg
      obtain ⟨rfl, hfailed⟩ := h hreg
      exact ⟨rfl, thrift_release (Lawful.stop hclaimed hfailed) _⟩
  · refine .of_eq_error (releasing_error hclaim) fun _ => ⟨rfl, ?_⟩
    exact thrift_release (Lawful.fail .cyclicLazy hw) waiting

/-- Driving a chain gives back nothing without a failure. -/
theorem drive_keepsTo (fuel : Nat) (waiting : List (Ref .thunk)) (r : Ref .thunk) :
    (drive (engine level) fuel waiting r).KeepsTo (thrift t) := by
  -- by induction on the fuel, for whatever waits already: each thunk on the way joins the chain
  induction fuel generalizing waiting r with
  | zero => exact .cut (by simp)
  | succ fuel ih =>
    intro w hw
    simp only [drive, leads_bind]
    refine (releasing_claim_ran hw (fun d w₁ hw₁ _ => deferredBind_ran hE fuel hw₁)
      waiting r).imp fun c w₁ h => ?_
    rcases c with i | v | d
    · intro hreg
      obtain ⟨rfl, hfailed⟩ := h hreg
      exact hfailed
    · obtain rfl : w₁ = w := h
      exact Eval.KeepsTo.bind (completeChain_keepsTo _ v) (fun _ => .pure none) w₁ hw
    · simp only [leads_bind]
      refine h.imp fun a w₂ h => ?_
      rcases a with i | ⟨v, rest⟩ | ⟨program, chunk, locals, rest⟩
      · intro hreg
        obtain ⟨rfl, hfailed⟩ := h hreg
        exact hfailed
      · refine leads_resolve_bind (by simp) fun u _ => ?_
        split
        · exact (ih _ _).after hw h
        · exact (Eval.KeepsTo.bind (completeChain_keepsTo _ _) fun _ => .pure none).after hw h
      · dsimp only
        split
        · exact h
        · exact fun _ => thrift_release (Lawful.stop h (Lawful.fail _ (Lawful.next hw h))) _

/-- Settling a chain is thrifty. -/
theorem settle_keepsTo (fuel : Nat) (chain : List (Ref .thunk)) (v : Value) :
    (settle (engine level) fuel chain v).KeepsTo (thrift t) := by
  refine .bind (Parallel.keepsTo_of_forceless fun _ => .resolve v) fun u => ?_
  split
  · exact drive_keepsTo hE fuel chain _
  · exact .bind (completeChain_keepsTo _ _) fun _ => .pure _

/-- Resuming drives the pending thunk, and whatever that waits on, on the live context again. -/
theorem resume_thrifty {c : Context} {w : World} {r : Ref .thunk} (fuel : Nat)
    (hhonest : w.heap.Honest) (hquiet : w.heap.Quiet t) (hlive : c.Live)
    (hc : w.context = c.suspend r) :
    Leads (resume (engine level) fuel) w fun
      | .ok _, w' => (thrift t).done { w with context := c } w'
      | .error (.abort _), _ => False
      | .error (.interrupt i), w' => i.OnlyFails t { w with context := c } w' := by
  induction fuel generalizing w r with
  | zero => exact fun hreg => absurd hreg (by simp)
  | succ fuel ih =>
    have hw : (thrift t).start { w with context := c } := ⟨⟨hhonest, hlive⟩, hquiet⟩
    simp only [resume, leads_bind, Step.liftM_eq_ofEval, leads_ofEval, leads_context,
      leads_onContext, hc, hlive.takePending_suspend, leads_tryCatch]
    refine (drive_keepsTo hE fuel [] r { w with context := c } hw).imp fun o w₁ h => ?_
    cases o with
    | ok f => exact h
    | error i =>
      cases i with
      | suspended =>
        -- another thunk is pending; up to here the stake has not risen
        obtain ⟨⟨hhonest₁, -, r₁, hc₁, -⟩, hquiet₁, -, hspares⟩ := h (.inr rfl)
        have hdone : (thrift t).done { w with context := c } { w₁ with context := c } :=
          ⟨⟨hhonest₁, rfl⟩, hquiet₁, (hspares rfl).reports, (hspares rfl).stake⟩
        refine (ih hhonest₁ hquiet₁ hc₁).imp fun o w₂ h => ?_
        rcases o with (i | a) | f
        · exact fun hreg => ⟨(h hreg).1, Lawful.stop hdone (h hreg).2⟩
        · exact h
        · exact Lawful.trans hdone h
      | failed => exact fun _ => ⟨rfl, h (.inl rfl)⟩
      | exhausted => exact fun hreg => absurd hreg (by simp)
      | crashed => exact fun hreg => absurd hreg (by simp)

/-! ### Rounds -/

omit hE in
/-- A handler is given a new report. -/
theorem errorValue_reports (e : Option RuntimeError) (w : World) :
    Leads (errorValue e) w fun r w' => (∃ v, r = .ok v) ∧ w'.heap.thunks = w.heap.thunks ∧
      w'.heap.functions = w.heap.functions ∧ w'.heap.reports = w.heap.reports + 1 :=
  ⟨⟨_, rfl⟩, rfl, rfl, Array.countP_push⟩

omit hE in
/-- A failure that is handled has been reported. -/
theorem unwind_reports {w : World} (frames : List Frame) (hquiet : w.heap.Quiet t) :
    Leads (unwind frames) w fun
      | .ok (true, _), w' => w'.heap.Quiet t ∧ w.heap.reports < w'.heap.reports
      | .ok (false, _), w' => w'.heap.Quiet t ∧ w.heap.reports ≤ w'.heap.reports
      | .error _, _ => False := by
  induction frames generalizing w with
  | nil => exact ⟨hquiet, Nat.le_refl _⟩
  | cons f below ih =>
    unfold unwind
    split
    · simp only [leads_bind, leads_context, leads_onContext]
      refine (errorValue_reports _ _).imp fun r w' h => ?_
      obtain ⟨⟨v, rfl⟩, hthunks, hfunctions, hreports⟩ := h
      refine ⟨Heap.Each.congr hquiet hthunks hfunctions, ?_⟩
      exact Nat.lt_of_lt_of_eq (Nat.lt_succ_self _) hreports.symm
    · split
      · exact ⟨hquiet, Nat.le_refl _⟩
      · -- the frame is dropped, which gives back thunks but reports nothing
        simp only [releaseChain, leads_bind, leads_onHeap]
        refine (ih (hquiet.releaseChain f.chain)).imp fun r w' h => ?_
        rw [Heap.reports_releaseChain] at h
        exact h

/-- A run has been given up: what waited is given back, but no closure has been run twice before. -/
def World.GaveUp (t : Tally) (w w' : World) : Prop :=
  honesty.done w w' ∧ w'.heap.Quiet t ∧ w.heap.reports ≤ w'.heap.reports ∧
    (w'.heap.reports ≤ w.heap.reports → w'.host.tally t ≤ w.stake t)

/-- What a round, or a run, leaves. -/
def Machine.Exit.Thrifty (t : Tally) (w w' : World) : Exit → Prop
  | .done _ => (thrift t).done w w'
  | .failed => (thrift t).stopped .failed w w'
  | .aborted _ => w.GaveUp t w'

/-- The same of a round that may go on. -/
def Machine.Round.Thrifty (t : Tally) (w w' : World) : Round → Prop
  | .running _ => (thrift t).done w w'
  | .ended e _ => e.Thrifty t w w'

/-- What the end of a step leaves. -/
def Stop.Thrifty (t : Tally) (w w' : World) : Stop → Prop
  | .abort _ => (thrift t).done w w'
  | .interrupt i => i.Regular → (thrift t).stopped i w w'

omit hE in
/-- A thrifty end is one after thrifty steps. -/
theorem Machine.Exit.Thrifty.after {w w₁ w₂ : World} {e : Exit} (h : (thrift t).done w w₁)
    (he : e.Thrifty t w₁ w₂) : e.Thrifty t w w₂ := by
  cases e with
  | done v => exact Lawful.trans h he
  | failed => exact Lawful.stop h he
  | aborted a =>
    obtain ⟨hhonest, hquiet, hreports, htally⟩ := he
    refine ⟨Lawful.trans h.1 hhonest, hquiet, Nat.le_trans h.2.2.reports hreports, fun hle => ?_⟩
    have hstake := h.2.2.stake (Nat.le_trans hreports hle)
    have htally := htally (Nat.le_trans hle h.2.2.reports)
    omega

omit hE in
theorem Machine.Round.Thrifty.after {w w₁ w₂ : World} {r : Round} (h : (thrift t).done w w₁)
    (hr : r.Thrifty t w₁ w₂) : r.Thrifty t w w₂ := by
  cases r with
  | running m => exact Lawful.trans h hr
  | ended e m => exact Exit.Thrifty.after h hr

omit hE in
/-- Giving up is thrifty. -/
theorem abandon_thrifty {w : World} (m : Machine) (a : Abort) (hw : (thrift t).start w) :
    Leads (m.abandon a) w fun r w' => ∃ round, r = .ok round ∧ round.Thrifty t w w' := by
  refine ⟨_, rfl, ⟨hw.1.1.releaseChain _, rfl⟩, hw.2.releaseChain _, ?_, fun _ => ?_⟩
  · exact Nat.le_of_eq (Heap.reports_releaseChain _ _).symm
  · exact Nat.le_add_right _ _

omit hE in
/-- A failure is reported to a handler, or ends the run. -/
theorem recover_thrifty {w w₁ : World} (m : Machine) {stop : Stop} (hw : (thrift t).start w)
    (hstop : stop.Thrifty t w w₁) (hreg : stop.Regular) (hne : stop ≠ .interrupt .suspended) :
    Leads (m.recover stop) w₁ fun r w' => ∃ round, r = .ok round ∧ round.Thrifty t w w' := by
  cases stop with
  | abort a =>
    refine (abandon_thrifty m a (Lawful.next hw hstop)).imp fun r w' h => ?_
    obtain ⟨round, rfl, h⟩ := h
    exact ⟨round, rfl, h.after hstop⟩
  | interrupt i =>
    cases i with
    | failed =>
      obtain ⟨⟨hhonest, e, he⟩, hquiet, hreports, -⟩ := hstop (.inl rfl)
      simp only [Machine.recover, leads_bind]
      refine ((unwind_faithful m.frames hhonest hw.1.2 he).and
        (unwind_reports m.frames hquiet)).imp fun r w' h => ?_
      obtain ⟨h, h'⟩ := h
      rcases r with i | ⟨_ | _, frames⟩
      · exact h.elim
      · exact ⟨_, rfl, ⟨h.1, e, h.2⟩, h'.1, Nat.le_trans hreports h'.2, by rintro ⟨⟩⟩
      · -- the thunks of the frames that are dropped may have been run, but the failure is reported
        refine ⟨_, rfl, h, h'.1, Nat.le_of_lt (Nat.lt_of_le_of_lt hreports h'.2), fun hle => ?_⟩
        exact absurd (Nat.lt_of_le_of_lt hreports h'.2) (Nat.not_lt.mpr hle)
    | suspended => exact absurd rfl hne
    | exhausted => exact absurd hreg (by simp [Stop.Regular])
    | crashed => exact absurd hreg (by simp [Stop.Regular])

/-- A suspended instruction is resumed, and anything else ends as it is. -/
theorem halt_thrifty {w w₁ : World} (fuel : Nat) (m : Machine) {stop : Stop}
    (hw : (thrift t).start w) (hstop : stop.Thrifty t w w₁) (hreg : stop.Regular) :
    Leads (m.halt (engine level) fuel stop) w₁ fun
      | .ok round, w' => round.Thrifty t w w'
      | .error i, _ => ¬ i.Regular := by
  have hrecover {stop : Stop} {w₂ : World} (hstop : stop.Thrifty t w w₂) (hreg : stop.Regular)
      (hne : stop ≠ .interrupt .suspended) : Leads (m.recover stop) w₂ fun
        | .ok round, w' => round.Thrifty t w w'
        | .error i, _ => ¬ i.Regular :=
    (recover_thrifty m hw hstop hreg hne).imp fun _ _ ⟨_, hr, h⟩ => hr ▸ h
  unfold Machine.halt
  split
  · -- the instruction is tried again later; what counts is the world with the live context
    obtain ⟨⟨hhonest, -, r, hr, -⟩, hquiet, -, hspares⟩ := hstop (.inr rfl)
    have hdone : (thrift t).done w { w₁ with context := w.context } :=
      ⟨⟨hhonest, rfl⟩, hquiet, (hspares rfl).reports, (hspares rfl).stake⟩
    rw [leads_bind]
    refine leads_outcome ((resume_thrifty hE fuel hhonest hquiet hw.1.2 hr).imp
      fun o w₂ h hreg => ?_) fun i w' hi => hi
    match o with
    | .ok none => exact Lawful.trans hdone h
    | .ok (some f) => exact Lawful.trans hdone h
    | .error (.abort a) => exact h.elim
    | .error (.interrupt i) =>
      obtain ⟨rfl, hfailed⟩ := h hreg
      exact hrecover (fun _ => Lawful.stop hdone hfailed) (.inl rfl) (by simp)
  · next hne => exact hrecover hstop hreg hne

/-- Leaving a frame is thrifty. -/
theorem leave_thrifty {w : World} (fuel : Nat) (m : Machine) (kind : FrameKind)
    (below : List Frame) (v : Value) (hw : (thrift t).start w) :
    Leads (m.leave (engine level) fuel kind below v) w fun
      | .ok round, w' => round.Thrifty t w w'
      | .error i, _ => ¬ i.Regular := by
  have hrefl : (thrift t).done w w := Lawful.refl hw
  unfold Machine.leave
  split
  · exact hrefl
  · split
    · exact hrefl
    · exact (abandon_thrifty _ _ hw).imp fun _ _ ⟨_, hr, h⟩ => hr ▸ h
  · next chain =>
    rw [leads_bind]
    have hsettle := Step.KeepsTo.ofEval (settle_keepsTo hE fuel chain v)
    refine leads_outcome ((hsettle w hw).imp fun o w' h hreg => ?_) fun i w' hi => hi
    match o with
    | .ok none => exact h.1
    | .ok (some f) => exact h.1
    | .error (.abort a) => exact halt_thrifty hE fuel _ hw h hreg
    | .error (.interrupt i) => exact halt_thrifty hE fuel _ hw h hreg

/-- One round raises the stake only with a failure. -/
theorem round_thrifty {w : World} (fuel : Nat) (m : Machine) (hw : (thrift t).start w) :
    Leads (m.round (engine level) fuel) w fun
      | .ok round, w' => round.Thrifty t w w'
      | .error i, _ => ¬ i.Regular := by
  have hturn (m : Machine) {w : World} (hw : (thrift t).start w) :
      Leads (m.turn (engine level) fuel) w fun
        | .ok round, w' => round.Thrifty t w w'
        | .error i, _ => ¬ i.Regular := by
    unfold Machine.turn
    split
    · exact (abandon_thrifty m _ hw).imp fun _ _ ⟨_, hr, h⟩ => hr ▸ h
    · next f below _ =>
      rw [leads_bind]
      refine leads_outcome ((advance_keepsTo hE fuel f w hw).imp fun o w' h hreg => ?_)
        fun i w' hi => hi
      match o with
      | .ok (.next g) => exact h.1
      | .ok (.stay g) => exact h.1
      | .ok (.jump g target) => exact h.1
      | .ok (.enter caller callee) => exact h.1
      | .ok (.leave v) =>
        refine (leave_thrifty hE fuel m f.kind below v (Lawful.next hw h.1)).imp
          fun o w'' h' => ?_
        cases o with
        | ok round => exact h'.after h.1
        | error i => exact h'
      | .error (.abort a) => exact halt_thrifty hE fuel m hw h hreg
      | .error (.interrupt i) => exact halt_thrifty hE fuel m hw h hreg
  unfold Machine.round
  split
  · exact (abandon_thrifty m _ hw).imp fun _ _ ⟨_, hr, h⟩ => hr ▸ h
  · -- counting the instruction is no run of host code
    have hcounted : (thrift t).done w { w with executed := w.executed + 1 } :=
      ⟨⟨hw.1.1, rfl⟩, hw.2, Nat.le_refl _, fun _ => Nat.le_refl _⟩
    simp only [leads_bind, leads_countInstruction]
    refine (hturn _ (Lawful.next hw hcounted)).imp fun o w' h => ?_
    cases o with
    | ok round => exact h.after hcounted
    | error i => exact h

/-- So does a whole run. -/
theorem execute_thrifty {w : World} (fuel : Nat) (m : Machine) (hw : (thrift t).start w) :
    Leads (m.execute (engine level) fuel) w fun
      | .ok (e, _), w' => e.Thrifty t w w'
      | .error i, _ => ¬ i.Regular := by
  induction fuel generalizing m w with
  | zero => simp [Machine.execute]
  | succ fuel ih =>
    simp only [Machine.execute, leads_bind]
    refine (round_thrifty hE fuel m hw).imp fun o w₁ h => ?_
    rcases o with i | m₁ | ⟨e, m₁⟩
    · exact h
    · refine (ih m₁ (Lawful.next hw h)).imp fun o w₂ h' => ?_
      cases o with
      | ok x => exact h'.after h
      | error i => exact h'
    · exact h

/-- The invocation of a chunk gives a value or an interrupt. -/
theorem invoke_thrifty {w : World} (fuel : Nat) (m : Machine) (program : Program) (chunk : Nat)
    (locals : List Value) (hw : (thrift t).start w) :
    Leads (m.invoke (engine level) fuel program chunk locals) w fun
      | .ok (.ok _, _), w' => (thrift t).done w w'
      | .ok (.error i, _), w' => i.Regular → (thrift t).stopped i w w'
      | .error i, _ => ¬ i.Regular := by
  simp only [Machine.invoke, leads_bind, leads_context, hw.1.2.interrupt?]
  split
  · exact fun _ => Lawful.fail _ hw
  · rw [leads_bind]
    refine (execute_thrifty hE fuel _ hw).imp fun o w' h => ?_
    rcases o with i | ⟨v | _ | a, m'⟩
    · exact h
    · exact h
    · exact fun _ => h
    · -- to whoever invoked the chunk an abort is a failure
      obtain ⟨⟨hhonest, hsame⟩, hquiet, hreports, -⟩ := h
      refine fun _ => ⟨⟨hhonest, .fault "Call" a.message, ?_⟩, hquiet, hreports, by rintro ⟨⟩⟩
      show w'.context.fail _ = _
      rw [hsame]

/-- Running a chunk on a machine of its own is thrifty. -/
theorem invokeChunk_keepsTo (fuel : Nat) (program : Program) (chunk : Nat) (locals : List Value) :
    (invokeChunk (engine level) fuel program chunk locals).KeepsTo (thrift t) := by
  intro w hw
  simp only [invokeChunk, leads_bind]
  refine (invoke_thrifty hE fuel {} program chunk locals hw).imp fun o w' h => ?_
  match o with
  | .ok (.ok v, m') => exact h
  | .ok (.error i, m') => exact h
  | .error i => exact fun hreg => absurd hreg h

/-! ### Operations -/

/-- Evaluating a thunk at once, in eager mode. -/
theorem forceNow_thrifty {w : World} (fuel : Nat) (waiting : List (Ref .thunk)) (r : Ref .thunk)
    (hw : (thrift t).start w) (hmode : w.context.mode = .eager) :
    Leads (forceNow (engine level) fuel waiting r) w fun
      | .ok _, w' => (thrift t).done w w'
      | .error i, w' => i.Regular → (thrift t).stopped i w w' := by
  have hrun (fuel : Nat) (d : Deferred) (w₁ : World) (hw₁ : (thrift t).start w₁)
      (hsame : w₁.context = w.context) (hhonest : d.Honest) (hmetered : d.Metered t) :
      Leads (d.run (engine level) fuel) w₁ fun
        | .ok _, w' => w₁.Ran t (d.toll t) w'
        | .error i, w' => i.OnlyFails t w₁ w' := by
    cases d with
    | native code => exact closure_ran hE hw₁ hhonest hmetered
    | call f =>
      -- in eager mode a function is never suspended, whether it is immediate or not
      have happly := applyFunction_keepsTo hE (invokeChunk_keepsTo hE) fuel f []
      exact happly.ran hw₁ (happly.ne_suspended hw₁ (by rw [hsame, hmode]))
  induction fuel generalizing w waiting r with
  | zero => exact fun hreg => absurd hreg (by simp)
  | succ fuel ih =>
    simp only [forceNow, leads_bind]
    refine (releasing_claim_ran hw (hrun fuel) waiting r).imp fun c w₁ h => ?_
    match c with
    | .error i =>
      intro hreg
      obtain ⟨rfl, hfailed⟩ := h hreg
      exact hfailed
    | .ok (.ready v) =>
      obtain rfl : w₁ = w := h
      exact completeChain_keepsTo waiting v w₁ hw
    | .ok (.run d) =>
      simp only [leads_bind]
      refine h.imp fun o w₂ h => ?_
      cases o with
      | error i =>
        intro hreg
        obtain ⟨rfl, hfailed⟩ := h hreg
        exact hfailed
      | ok v =>
        have hsame : w₂.context = w.context := h.1.2
        dsimp only
        split
        · refine (ih _ _ (Lawful.next hw h) (by rw [hsame, hmode])
            (by rw [hsame]; exact hrun)).imp fun o w₃ h' => ?_
          cases o with
          | ok u => exact Lawful.trans h h'
          | error i => exact fun hreg => Lawful.stop h (h' hreg)
        · exact (completeChain_keepsTo _ _).after hw h

/-- Forcing a thunk is thrifty. -/
theorem forceThunk_keepsTo (fuel : Nat) (r : Ref .thunk) :
    (forceThunk (engine level) fuel r).KeepsTo (thrift t) := by
  intro w hw
  simp only [forceThunk, leads_bind, leads_heap]
  split
  · exact Lawful.refl hw
  · next hmemo =>
    simp only [leads_bind, leads_context]
    split
    · next hmode => exact forceNow_thrifty hE fuel [] r hw hmode
    · next hmode =>
      -- the thunk is named, and nothing is run
      refine fun _ => ⟨⟨hw.1.1, hmode, r, rfl, hmemo⟩, hw.2, Nat.le_refl _, fun _ => ?_⟩
      exact ⟨Nat.le_refl _, fun _ => Nat.le_refl _⟩

end Engine

/-- The operations of every level keep to the discipline. -/
theorem engine_thrifty (level : Nat) (o : Operation) :
    (engine level o).KeepsTo (thrift t) := by
  induction level generalizing o with
  | zero => exact .cut (by simp)
  | succ level ih =>
    exact perform_keepsTo ih (forceThunk_keepsTo ih) (invokeChunk_keepsTo ih) level o

/-! ### Runs -/

/-- A run that yields a value is thrifty; one that is given up runs no closure twice before. -/
theorem run_thrifty {w : World} (level : Nat) (m : Machine) (program : Program)
    (hw : (thrift t).start w) :
    Leads (m.run level program) w fun r w' =>
      (∀ v m', r = .ok (.ok v, m') → (thrift t).done w w') ∧
      ∀ a m', r = .ok (.error (.aborted a), m') → w.GaveUp t w' := by
  unfold Machine.run
  split
  · simp
  · rw [leads_bind]
    refine (execute_thrifty (engine_thrifty level) level _ hw).imp fun r w₁ h => ?_
    match r with
    | .ok (.done v, m') => exact ⟨fun _ _ _ => h, by rintro _ _ ⟨⟩⟩
    | .ok (.aborted a, m') => exact ⟨by rintro _ _ ⟨⟩, fun _ _ _ => h⟩
    | .ok (.failed, m') =>
      simp only [finish, leads_bind, leads_context, if_true, leads_onContext, leads_pure,
        Context.hostError]
      cases w₁.context.error <;> simp
    | .error i => simp

/-- Host code counts only where the closures behind thunks start, and no host function without
arguments is ever suspended. If a run or an invocation ends with a value then, and no handler has
learnt of a failure, each call that was counted has used up a closure that had not been started. So
if there is one closure that counts it is called at most once, and never again once it has been
started. A run that is aborted has not made more calls than there were closures either. -/
theorem closures_run_once {w : World} (hhonest : w.heap.Honest) (hquiet : w.heap.Quiet t)
    (hreachable : w.context.Reachable) (hlive : w.context.interrupt? = none) (level fuel : Nat)
    (m : Machine) (program : Program) :
    (∀ v m' w', m.run level program w = .ok (.ok v, m') w' →
      w'.heap.reports = w.heap.reports →
      w'.host.tally t + w'.heap.unrun t ≤ w.host.tally t + w.heap.unrun t) ∧
    (∀ a m' w', m.run level program w = .ok (.error (.aborted a), m') w' →
      w'.heap.reports = w.heap.reports →
      w'.host.tally t ≤ w.host.tally t + w.heap.unrun t) ∧
    ∀ chunk locals v m' w',
      m.invoke (engine level) fuel program chunk locals w = .ok (.ok v, m') w' →
      w'.heap.reports = w.heap.reports →
      w'.host.tally t + w'.heap.unrun t ≤ w.host.tally t + w.heap.unrun t := by
  have hw : (thrift t).start w := ⟨⟨hhonest, hreachable.live hlive⟩, hquiet⟩
  have hrun := run_thrifty level m program hw
  refine ⟨fun v m' w' hdone hreports => ?_, fun a m' w' haborted hreports => ?_,
    fun chunk locals v m' w' hdone hreports => ?_⟩
  · exact ((hrun.of_ok hdone).1 v m' rfl).2.2.stake (Nat.le_of_eq hreports)
  · exact ((hrun.of_ok haborted).2 a m' rfl).2.2.2 (Nat.le_of_eq hreports)
  · have hinvoke := invoke_thrifty (engine_thrifty level) fuel m program chunk locals hw
    exact (hinvoke.of_ok hdone).2.2.stake (Nat.le_of_eq hreports)

/-- A closure that counts its runs hands on a thunk, behind which stands a host function without
arguments. -/
def World.handing (function : HostCode) : World where
  heap :=
    { thunks := #[.waiting (.native (.done (.int 41))), .waiting (.call ⟨0⟩),
        .waiting (.native (.count .runs (.done (.lazy ⟨1⟩))))]
      functions := #[⟨"handed", 0, [], .native fun _ => function⟩] }
  context := { mode := .cooperative }

/-- Code that forces its local. -/
def Program.forcing : Program :=
  ⟨#[⟨"forcing", 0, #[.load 0, .force, .ret]⟩], 0⟩

/-- The heap is honest if the code of its function is. -/
theorem World.handing_honest {function : HostCode} (hfunction : function.Honest) :
    (World.handing function).heap.Honest := by
  refine Heap.honest_of ?_ ?_
  · intro i s hs
    match i with
    | 0 | 1 | 2 =>
      cases hs
      trivial
    | i + 3 => cases hs
  · intro i f hf
    match i with
    | 0 =>
      cases hf
      exact fun _ => hfunction
    | i + 1 => cases hf

/-- A function that yields its value at once: the closure is called once. -/
theorem closures_run_once_handing :
    (World.handing (.done (.int 7))).heap.Honest ∧
      (World.handing (.done (.int 7))).heap.Quiet .runs ∧
      (World.handing (.done (.int 7))).heap.unrun .runs = 1 ∧
      ∃ m' w', Machine.invoke (engine 4) 9 {} .forcing 0 [.lazy ⟨2⟩]
          (.handing (.done (.int 7))) = .ok (.ok (.int 7), m') w' ∧
        w'.heap.reports = 0 ∧ w'.host.runs + w'.heap.unrun .runs ≤ 1 := by
  have hhonest : (World.handing (.done (.int 7))).heap.Honest := World.handing_honest trivial
  have hquiet : (World.handing (.done (.int 7))).heap.Quiet .runs := by
    constructor
    · intro i s hs
      match i with
      | 0 =>
        cases hs
        exact .inl trivial
      | 1 =>
        cases hs
        trivial
      | 2 =>
        cases hs
        exact .inr ⟨_, rfl, trivial⟩
      | i + 3 => cases hs
    · intro i f hf
      match i with
      | 0 =>
        cases hf
        refine ⟨.inl rfl, ?_⟩
        rintro _ ⟨⟩
        exact ⟨fun _ => trivial, fun _ _ _ _ _ => by rintro ⟨⟩⟩
      | i + 1 => cases hf
  have honce := closures_run_once hhonest hquiet (.fresh _ _) rfl 4 9 {} .forcing
  obtain ⟨m', w', hdone, hreports⟩ : ∃ m' w',
      Machine.invoke (engine 4) 9 {} .forcing 0 [.lazy ⟨2⟩] (.handing (.done (.int 7))) =
        .ok (.ok (.int 7), m') w' ∧ w'.heap.reports = 0 :=
    ⟨_, _, by cbv, rfl⟩
  exact ⟨hhonest, hquiet, rfl, m', w', hdone, hreports,
    honce.2.2 0 [.lazy ⟨2⟩] _ m' w' hdone hreports⟩

/-- A function that forces a thunk is suspended on it in cooperative mode. All that waits for the
function is given back, and so the closure, which had yielded its value, is called again. -/
theorem closure_runs_twice :
    (World.handing (.perform (.force (.lazy ⟨0⟩)) .done)).heap.Honest ∧
      (World.handing (.perform (.force (.lazy ⟨0⟩)) .done)).heap.unrun .runs = 1 ∧
      ∃ m' w', Machine.invoke (engine 4) 9 {} .forcing 0 [.lazy ⟨2⟩]
          (.handing (.perform (.force (.lazy ⟨0⟩)) .done)) = .ok (.ok (.int 41), m') w' ∧
        w'.heap.reports = 0 ∧ w'.host.runs = 2 :=
  ⟨World.handing_honest fun _ => trivial, rfl, _, _, by cbv, rfl, rfl⟩

end LazyMachine
