import LazyMachine.Proofs.Rounds

/-!
# What a round does to the frames

A run goes from one `Snapshot` to the next by the rounds of the machine, `Snapshot.Goes`. In a round
an instruction may be suspended on a thunk (`Suspends`), thunks may be driven (`Drives`), the code
of one of them may be entered (`Enters`), and something may fail (`Fails`).

`Snapshot.Passage` lists what becomes of the frames: an instruction goes through, a call returns, a
thunk is driven on top of the frames that wait for it, or a failure goes to a handler;
`Snapshot.Aborts` lists what a run is given up for. Every round that leads to another state is one
of the former, and every one that gives up the run has one of the latter (`round_classified`), as
long as nothing is suspended while it is driven. On a store nothing is: `advance_spec`,
`resume_spec` and `settle_spec` say what an instruction, the driving of the thunk that it waits on
and the result of a thunk's code come to.
-/

namespace LazyMachine

variable {p : Program} {format : Format}

open Machine (Round)

/-- The world in which a round executes its instruction, which has been counted by then. -/
def World.counted (w : World) : World :=
  { w with executed := w.executed + 1 }

/-- A state of a run between two rounds. -/
structure Snapshot where
  /-- The fuel of the next round. -/
  fuel : Nat
  machine : Machine
  world : World

namespace Snapshot

/-- The frames, the top one first. -/
def frames (a : Snapshot) : List Frame :=
  a.machine.frames

/-- The heap. -/
def heap (a : Snapshot) : Heap :=
  a.world.heap

/-- One round leads from the one state to the other. -/
structure Goes (E : Engine) (a b : Snapshot) : Prop where
  fuel : a.fuel = b.fuel + 1
  round : a.machine.round E a.fuel a.world = .ok (.running b.machine) b.world

/-! ### Events of a round -/

/-- The instruction or the pending call of the top frame is suspended on a thunk. -/
def Suspends (E : Engine) (a : Snapshot) (f : Frame) (below : List Frame) (t : Ref .thunk) : Prop :=
  a.frames = f :: below ∧ ∃ w, w.context.pending = some t ∧
    f.advance E a.fuel a.world.counted = .error (.interrupt .suspended) w

/-- A thunk is driven for a chain of others, with a result, while some frames wait. -/
inductive Drives (E : Engine) (a : Snapshot) :
    List (Ref .thunk) → List Frame → EStateM.Result Stop World (Option Frame) → Prop
  /-- It is the one that an instruction is suspended on. -/
  | awaited {f : Frame} {below : List Frame} {w : World} (hframes : a.frames = f :: below)
      (hadvance : f.advance E a.fuel a.world.counted = .error (.interrupt .suspended) w) :
      Drives E a [] (f :: below) (resume E a.fuel w)
  /-- It is the result of the code of the last thunk of the chain, unless that is its value. -/
  | result {f : Frame} {below : List Frame} {chain : List (Ref .thunk)} {v : Value} {w : World}
      (hframes : a.frames = f :: below) (hkind : f.kind = .thunk chain)
      (hadvance : f.advance E a.fuel a.world.counted = .ok (.leave v) w) :
      Drives E a chain below (Step.ofEval (settle E a.fuel chain v) w)

/-- The code of a thunk is entered. -/
def Enters (E : Engine) (a : Snapshot) (u : Ref .thunk) : Prop :=
  ∃ chain waiting g w, a.Drives E chain waiting (.ok (some g) w) ∧ g.kind = .thunk (chain ++ [u])

/-- An instruction fails, or the driving of a thunk. -/
inductive Fails (E : Engine) (a : Snapshot) : Prop
  | instruction {f : Frame} {below : List Frame} {w : World} (hframes : a.frames = f :: below)
      (hadvance : f.advance E a.fuel a.world.counted = .error (.interrupt .failed) w)
  | driving {chain : List (Ref .thunk)} {waiting : List Frame} {w : World}
      (hdrives : a.Drives E chain waiting (.error (.interrupt .failed) w))

/-- The limit is not reached yet, so the round executes an instruction. -/
def Allowed (a : Snapshot) : Prop :=
  ∀ limit ∈ a.machine.stepLimit, a.machine.steps < limit

/-- The run is given up. -/
inductive Aborts (E : Engine) (a : Snapshot) : Abort → Prop
  /-- The limit is reached. -/
  | limit {limit : Nat} (hlimit : a.machine.stepLimit = some limit)
      (hle : limit ≤ a.machine.steps) : Aborts E a (.stepLimit limit)
  /-- The instruction of the top frame gives up. -/
  | instruction {f : Frame} {below : List Frame} {x : Abort} {w : World} (hallowed : a.Allowed)
      (hframes : a.frames = f :: below)
      (hadvance : f.advance E a.fuel a.world.counted = .error (.abort x) w) : Aborts E a x
  /-- So does the driving of a thunk. -/
  | driving {chain : List (Ref .thunk)} {waiting : List Frame} {x : Abort} {w : World}
      (hallowed : a.Allowed) (hdrives : a.Drives E chain waiting (.error (.abort x) w)) :
      Aborts E a x
  /-- There is no frame. -/
  | noFrame (hallowed : a.Allowed) (hframes : a.frames = []) : Aborts E a .noFrame
  /-- There is no caller for the result of a call. -/
  | noCaller {f : Frame} {rest : List Value} (hallowed : a.Allowed) (hframes : a.frames = [f])
      (hkind : f.kind = .call rest) : Aborts E a .noFrame

/-- A failure has been handled by one of the frames, and those above it are gone. -/
inductive Handled : List Frame → List Frame → Prop
  | here {f : Frame} {below : List Frame} {handler : Handler} {handlers : List Handler} {v : Value}
      (hf : f.handlers = handler :: handlers) :
      Handled (f :: below) (f.handle handler handlers v :: below)
  | drop {f : Frame} {below frames : List Frame} (hbelow : Handled below frames) :
      Handled (f :: below) frames

/-- What becomes of the frames in a round that leads to another state. -/
inductive Passage (E : Engine) (a b : Snapshot) : Prop
  /-- The instruction of the top frame goes through. -/
  | flows {f : Frame} {below : List Frame} {flow : Flow} (hframes : a.frames = f :: below)
      (hadvance : f.advance E a.fuel a.world.counted = .ok flow b.world)
      (hleave : ∀ v, flow ≠ .leave v) (hb : b.frames = flow.frames ++ below)
  /-- A call returns. -/
  | returns {f caller : Frame} {below : List Frame} {rest : List Value} {v : Value}
      (hframes : a.frames = f :: caller :: below) (hkind : f.kind = .call rest)
      (hadvance : f.advance E a.fuel a.world.counted = .ok (.leave v) b.world)
      (hb : b.frames = caller.pushResult caller.stack v rest :: below)
  /-- A thunk is driven: its value is there, or the frame of its code comes on top of what waits. -/
  | drives {chain : List (Ref .thunk)} {waiting : List Frame} {x : Option Frame}
      (hdrives : a.Drives E chain waiting (.ok x b.world)) (hb : b.frames = x.toList ++ waiting)
  /-- A failure is handled. -/
  | fails (hfails : a.Fails E) (hb : Handled a.frames b.frames)

end Snapshot

open Snapshot (Handled)

/-! ### Reading a round -/

section Reading

/-- A machine that gives up does not go on. -/
theorem abandon_not_running (m : Machine) (x : Abort) (w : World) :
    Leads (m.abandon x) w fun r _ => ∀ m', r ≠ .ok (.running m') := by
  simp only [Machine.abandon, releaseChain, leads_bind, leads_onHeap, leads_pure]
  rintro _ ⟨⟩

/-- Where unwinding finds a handler, it has left the frames above it. -/
theorem unwind_handled (frames : List Frame) (w : World) :
    Leads (unwind frames) w fun r _ => ∀ frames', r = .ok (true, frames') →
      Handled frames frames' := by
  induction frames generalizing w with
  | nil => rintro _ ⟨⟩
  | cons f below ih =>
    unfold unwind
    split
    · next handler handlers hf =>
      simp only [leads_bind, leads_context, leads_onContext]
      refine (errorValue_leads _ _).imp fun r w' h => ?_
      obtain ⟨⟨v, rfl⟩, -⟩ := h
      rintro frames' ⟨⟩
      exact .here hf
    · split
      · rintro _ ⟨⟩
      · simp only [releaseChain, leads_bind, leads_onHeap]
        exact (ih _).imp fun r w' h frames' hr => .drop (h frames' hr)

/-- After a failure a run goes on at a handler, or it ends, but it is not given up. -/
theorem recover_handled (m : Machine) (i : Interrupt) (w : World) :
    Leads (m.recover (.interrupt i)) w fun r _ =>
      (∀ m', r = .ok (.running m') → Handled m.frames m'.frames) ∧
        ∀ x m', r ≠ .ok (.ended (.aborted x) m') := by
  simp only [Machine.recover, leads_bind]
  refine (unwind_handled m.frames w).imp fun r w' h => ?_
  rcases r with i | ⟨_ | _, frames⟩
  · exact ⟨by rintro _ ⟨⟩, by rintro _ _ ⟨⟩⟩
  · exact ⟨by rintro _ ⟨⟩, by rintro _ _ ⟨⟩⟩
  · refine ⟨?_, by rintro _ _ ⟨⟩⟩
    rintro m' ⟨⟩
    exact h frames rfl

end Reading

namespace Snapshot

variable {E : Engine} {a b : Snapshot}

/-- Whatever a round comes to, if it leads to another state, it is one of the passages, and if the
run is given up in it, there is one of the reasons for that. -/
def Classified (E : Engine) (a : Snapshot) (r : Except Interrupt Round) (w : World) : Prop :=
  (∀ m, r = .ok (.running m) → ∀ fuel, a.Passage E ⟨fuel, m, w⟩) ∧
    ∀ x m, r = .ok (.ended (.aborted x) m) → a.Aborts E x

/-- Nothing is said of what ends a round otherwise. -/
theorem classified_error (i : Interrupt) (w : World) : a.Classified E (.error i) w :=
  ⟨nofun, nofun⟩

/-- A passage is a class of its own. -/
theorem classified_running {m : Machine} {w : World} (h : ∀ fuel, a.Passage E ⟨fuel, m, w⟩) :
    a.Classified E (.ok (.running m)) w := by
  refine ⟨?_, nofun⟩
  rintro _ ⟨⟩
  exact h

/-- So is giving up for a reason that the state has. -/
theorem abandon_classified {x : Abort} (hx : a.Aborts E x) (m : Machine) (w : World) :
    Leads (m.abandon x) w (a.Classified E) := by
  simp only [Machine.abandon, releaseChain, leads_bind, leads_onHeap, leads_pure]
  refine ⟨by rintro _ ⟨⟩, ?_⟩
  rintro _ _ ⟨⟩
  exact hx

/-- What was not completed has been given up, or it has failed, since it is not suspended. -/
theorem recover_classified {m : Machine} {stop : Stop} (hreg : stop.Regular)
    (hsuspended : stop ≠ .interrupt .suspended) (hfails : stop = .interrupt .failed → a.Fails E)
    (haborts : ∀ x, stop = .abort x → a.Aborts E x)
    (hframes : ∀ frames', Handled m.frames frames' → Handled a.frames frames') (w : World) :
    Leads (m.recover stop) w (a.Classified E) := by
  cases stop with
  | abort x => exact abandon_classified (haborts x rfl) m w
  | interrupt i =>
    have hfailed : i = .failed := hreg.resolve_right fun hi => hsuspended (congrArg _ hi)
    refine (recover_handled m i w).imp fun r w' h => ⟨fun m' hr fuel => ?_, fun x m' hr => ?_⟩
    · exact .fails (hfails (congrArg _ hfailed)) (hframes _ (h.1 m' hr))
    · exact absurd hr (h.2 x m')

variable {f : Frame} {below : List Frame} {m : Machine}

/-- The instruction of the top frame is not completed. -/
theorem halt_classified {stop : Stop} {w : World} (hallowed : a.Allowed)
    (hframes : a.frames = f :: below) (hm : m.frames = f :: below) (hreg : stop.Regular)
    (hadvance : f.advance E a.fuel a.world.counted = .error stop w)
    (hdriven : ∀ chain waiting w, ¬ a.Drives E chain waiting (.error (.interrupt .suspended) w)) :
    Leads (m.halt E a.fuel stop) w (a.Classified E) := by
  have hsame : m.frames = a.frames := hm.trans hframes.symm
  unfold Machine.halt
  -- a suspended instruction drives its thunk before the failure, if any, is handled
  split
  · rw [leads_bind]
    have hdrives := Drives.awaited hframes hadvance
    refine leads_outcome (.intro (fun x w' hresume _ => ?_) fun stop w' hresume hreg => ?_)
      fun i w' _ => classified_error i w'
    · rw [hresume] at hdrives
      cases x with
      | none => exact classified_running fun fuel => .drives hdrives hm
      | some g => exact classified_running fun fuel => .drives hdrives (congrArg (g :: ·) hm)
    · rw [hresume] at hdrives
      refine recover_classified hreg ?_ ?_ ?_ (fun _ => by rw [hsame]; exact id) w'
      · rintro rfl
        exact hdriven _ _ _ hdrives
      · rintro rfl
        exact .driving hdrives
      · rintro x rfl
        exact .driving hallowed hdrives
  · next hne =>
    refine recover_classified hreg (fun heq => hne heq) ?_ ?_ (fun _ => by rw [hsame]; exact id) w
    · rintro rfl
      exact .instruction hframes hadvance
    · rintro x rfl
      exact .instruction hallowed hframes hadvance

/-- The top frame is left. -/
theorem leave_classified {v : Value} {w : World} (hallowed : a.Allowed)
    (hframes : a.frames = f :: below)
    (hadvance : f.advance E a.fuel a.world.counted = .ok (.leave v) w)
    (hdriven : ∀ chain waiting w, ¬ a.Drives E chain waiting (.error (.interrupt .suspended) w)) :
    Leads (m.leave E a.fuel f.kind below v) w (a.Classified E) := by
  unfold Machine.leave
  split
  · exact ⟨nofun, nofun⟩
  · next rest hkind =>
    cases below with
    | nil => exact abandon_classified (.noCaller hallowed hframes hkind) _ w
    | cons caller below =>
      exact classified_running fun fuel => .returns hframes hkind hadvance rfl
  · next chain hkind =>
    rw [leads_bind]
    have hdrives := Drives.result hframes hkind hadvance
    refine leads_outcome (.intro (fun x w' hsettle _ => ?_) fun stop w' hsettle hreg => ?_)
      fun i w' _ => classified_error i w'
    · rw [hsettle] at hdrives
      cases x with
      | none => exact classified_running fun fuel => .drives hdrives rfl
      | some g => exact classified_running fun fuel => .drives hdrives rfl
    · -- what is driven here is not suspended, so the failure goes to a handler at once
      rw [hsettle] at hdrives
      have hsuspended : stop ≠ .interrupt .suspended := by
        rintro rfl
        exact hdriven _ _ _ hdrives
      dsimp only
      rw [Machine.halt_eq_recover hsuspended]
      refine recover_classified hreg hsuspended ?_ ?_ ?_ w'
      · rintro rfl
        exact .driving hdrives
      · rintro x rfl
        exact .driving hallowed hdrives
      · intro frames' hhandled
        rw [hframes]
        exact .drop hhandled

/-- A round is classified, if nothing that is driven is suspended itself. -/
theorem round_classified (hdriven : ∀ chain waiting w,
      ¬ a.Drives E chain waiting (.error (.interrupt .suspended) w)) :
    Leads (a.machine.round E a.fuel) a.world (a.Classified E) := by
  unfold Machine.round
  split
  -- the limit is looked at before anything is counted
  · next limit hlimit =>
    obtain ⟨hlimit, hle⟩ := Option.filter_eq_some_iff.mp hlimit
    exact abandon_classified (.limit hlimit (of_decide_eq_true hle)) _ _
  · next hlimit =>
    have hallowed : a.Allowed := by
      intro limit hl
      simpa using Option.filter_eq_none_iff.mp hlimit limit hl
    simp only [leads_bind, leads_countInstruction]
    unfold Machine.turn
    split
    · next hframes => exact abandon_classified (.noFrame hallowed hframes) _ _
    · next f below hframes =>
      rw [leads_bind]
      refine leads_outcome (.intro (fun flow w hadvance _ => ?_) fun stop w hadvance hreg => ?_)
        fun i w _ => classified_error i w
      · cases flow with
        | leave v => exact leave_classified hallowed hframes hadvance hdriven
        | next g | stay g | jump g target | enter caller callee =>
          exact classified_running fun fuel => .flows hframes hadvance (by rintro _ ⟨⟩) rfl
      · exact halt_classified hallowed hframes hframes hreg hadvance hdriven

/-- A round that leads to another state is one of the passages. -/
theorem Goes.passage (hgoes : a.Goes E b)
    (hdriven : ∀ chain waiting w, ¬ a.Drives E chain waiting (.error (.interrupt .suspended) w)) :
    a.Passage E b :=
  ((round_classified hdriven).of_ok hgoes.round).1 b.machine rfl b.fuel

end Snapshot

/-! ### Driving thunks whose computation is code -/

/-- The frame runs the code of a thunk. -/
def Frame.Evaluates (h : Heap) (g : Frame) (u : Ref .thunk) : Prop :=
  ∃ k captures, h.thunk u = .running (.call k) ∧
    (h.function k).body = .code g.program g.chunk captures

/-- What driving comes to: the chain and the thunk that it waits on have a value, or the thunk
waited and its code is run now. -/
def DrivenTo (h : Heap) (chain : List (Ref .thunk)) (u : Ref .thunk) (x : Option Frame)
    (h' : Heap) : Prop :=
  match x with
  | none => ∀ t ∈ chain ++ [u], h'.IsForced t
  | some g => g.kind = .thunk (chain ++ [u]) ∧ (∃ d, h.thunks[u.index]? = some (.waiting d)) ∧
      g.Started ∧ g.Evaluates h' u

section Driving

variable {s : Store p} {f : Frame} {below : List Frame} {level fuel : Nat} {w w' : World}

/-- A failure has been recorded, besides changes to the heap. -/
def World.FailsTo (w w' : World) : Prop :=
  ∃ e h, w' = { w with heap := h, context := w.context.fail e }

/-- Driving is interrupted by a failure or for lack of fuel. -/
def DrivingStops (w : World) (i : Interrupt) (w' : World) : Prop :=
  i = .exhausted ∨ i = .failed ∧ w.FailsTo w'

/-- Driving does not stop for a suspension. -/
theorem DrivingStops.ne_suspended {i : Interrupt} (h : DrivingStops w i w') : i ≠ .suspended := by
  rcases h with rfl | ⟨rfl, -⟩ <;> exact nofun

/-- Driving a described thunk leads to what the description says, or stops. -/
theorem Driven.leads {E : Engine} {bounds : List ℚ} {chain : List (Ref .thunk)} {t : Ref .thunk}
    (hdriven : Driven s bounds chain t) (hw : w.heap = s.heap)
    (hlive : w.context.interrupt? = none) :
    Leads (drive E fuel chain t) w fun
      | .ok x, w' => DrivenTo w.heap chain t x w'.heap
      | .error i, w' => DrivingStops w i w' := by
  -- driving is described for enough fuel; with less it is cut short or the same
  rcases drive_approximates (fun o => .refl (E o)) (Nat.le_add_right fuel 2) chain t w with
    heq | ⟨w', hcut⟩
  · cases hdriven with
    | settles v s₁ hlater hmemo hdrive hforce hforced =>
      exact .of_eq_ok (heq.trans (hdrive E fuel w hw hlive)) hforced
    | enters chunk locals s₁ hlater hrank hchunk hlocals hdrive hforce hbody =>
      obtain ⟨k, captures, hwaiting, hrunning, hcode⟩ := hbody
      refine .of_eq_ok (heq.trans (hdrive E fuel w hw hlive)) ⟨rfl, ⟨.call k, ?_⟩, ?_, ?_⟩
      · rw [hw]
        exact Heap.getElem?_of_thunk _ t hwaiting rfl
      · obtain ⟨c, hc⟩ := hchunk
        exact ⟨locals, by simp only [Frame.enter?, thunkFrame, hc]⟩
      · exact ⟨k, captures, hrunning, hcode⟩
    | fails e s₁ hlater hdrive hforce =>
      exact .of_eq_error (heq.trans (hdrive E fuel w hw hlive)) (.inr ⟨rfl, e, s₁.heap, rfl⟩)
  · exact .of_eq_error hcut (.inl rfl)

/-- An instruction has the outcome that it has at any other level, unless it runs out of fuel. -/
theorem advance_known {L n : Nat} {r : EStateM.Result Stop World Flow}
    (h : f.advance (engine L) n w = r) (hr : ∀ w', r ≠ .error (.interrupt .exhausted) w') :
    f.advance (engine level) fuel w = r ∨
      ∃ w', f.advance (engine level) fuel w = .error (.interrupt .exhausted) w' := by
  have hlift := Conf.advance_lift h hr (Nat.le_max_right level L) (Nat.le_max_right fuel n)
  rw [← hlift]
  exact advance_approximates (engine_approximates (Nat.le_max_left level L))
    (Nat.le_max_left fuel n) f w

/-- An instruction that goes through fits the frames below; one that is suspended does nothing but
ask for a thunk without a value. -/
def Advanced (s : Store p) (f : Frame) (below : List Frame) (w : World) :
    Except Stop Flow → World → Prop
  | .ok flow, w' => ∃ s₁ : Store p, s.Later s₁ ∧ flow.Sound s₁ (s.boundsOn (f :: below)) f.kind ∧
      w' = { w with heap := s₁.heap }
  | .error (.interrupt .suspended), w' => ∃ t, s.Fits (s.boundsOn (f :: below)) (.lazy t) ∧
      s.heap.memo? t = none ∧ w' = { w with context := w.context.suspend t }
  | .error (.interrupt .failed), w' => w.FailsTo w'
  | .error (.interrupt _), _ => True
  | .error (.abort x), w' => f.Aborts x ∧ w' = w

/-- An instruction on a sound stack advances in one of the described ways. -/
theorem advance_spec (hframes : StackSound s (f :: below)) (hw : w.At s.heap format False) :
    Leads (f.advance (engine level) fuel) w (Advanced s f below w) := by
  have hcut {w' : World} (h : f.advance (engine level) fuel w = .error (.interrupt .exhausted) w') :
      Leads (f.advance (engine level) fuel) w (Advanced s f below w) := .of_eq_error h trivial
  -- enough fuel decides what the instruction does; with less it does the same or is cut short
  cases Conf.advance_stride format hframes with
  | makes flow s₁ hlater hflow h =>
    rcases advance_known (h w hw) (by simp) with heq | ⟨w', heq⟩
    · exact .of_eq_ok heq ⟨s₁, hlater, hflow, rfl⟩
    · exact hcut heq
  | fails e s₁ hlater h =>
    have hfail : f.advance (engine (s.heap.extent + 1)) 1 w =
        .error (.interrupt .failed) ⟨s₁.heap, w.context.fail e, w.host, w.executed⟩ := h w hw
    rcases advance_known hfail (by simp) with heq | ⟨w', heq⟩
    · exact .of_eq_error heq ⟨e, s₁.heap, rfl⟩
    · exact hcut heq
  | waits t ht hmemo hc he =>
    have hsuspend : f.advance (engine (s.heap.extent + 1)) 1 w =
        .error (.interrupt .suspended) { w with context := w.context.suspend t } :=
      hc w hw (hw.covered.resolve_right id)
    rcases advance_known hsuspend (by simp) with heq | ⟨w', heq⟩
    · exact .of_eq_error heq ⟨t, ht, hmemo, rfl⟩
    · exact hcut heq
  | stops stop hstop h =>
    rcases hstop with ⟨x, rfl, hx⟩ | rfl
    · rcases advance_known (h w hw) (by simp) with heq | ⟨w', heq⟩
      · exact .of_eq_error heq ⟨hx, rfl⟩
      · exact hcut heq
    · rcases advance_known (h w hw) (by simp) with heq | ⟨w', heq⟩
      · exact .of_eq_error heq trivial
      · exact hcut heq
  | cut hshort h => exact absurd ⟨Nat.le_refl _, trivial⟩ hshort

/-- The thunk that an instruction is suspended on is driven. -/
theorem resume_spec (hframes : StackSound s (f :: below)) (hw : w.At s.heap format False)
    {t : Ref .thunk} (ht : s.Fits (s.boundsOn (f :: below)) (.lazy t)) :
    Leads (resume (engine level) fuel) { w with context := w.context.suspend t } fun
      | .ok x, w' => DrivenTo w.heap [] t x w'.heap
      | .error stop, w' => ∃ i, stop = .interrupt i ∧ DrivingStops w i w' := by
  cases fuel with
  | zero => exact ⟨.exhausted, rfl, .inl rfl⟩
  | succ fuel =>
    have hsound := Conf.sound_waits hframes ht
    have hdrive : Leads (drive (engine level) fuel [] t) w fun
        | .ok x, w' => DrivenTo w.heap [] t x w'.heap
        | .error i, w' => DrivingStops w i w' :=
      (drive_cases hsound.2.1 hsound.2.2).leads hw.heap hw.live
    have hresume := Conf.resume_suspended hw fun w' heq => (hdrive.of_error heq).ne_suspended rfl
    refine Leads.of_eq ?_ hresume
    rw [leads_ofEval]
    refine hdrive.imp fun r w' h => ?_
    cases r with
    | ok x => exact h
    | error i => exact ⟨i, rfl, h⟩

/-- The result of a thunk's code is the value of the chain, or is driven for it. -/
theorem settle_spec {chain : List (Ref .thunk)} {v : Value}
    (hsound : (Conf.leave (.thunk chain) below v).Sound s) (hw : w.At s.heap format False) :
    Leads (settle (engine level) fuel chain v) w fun
      | .ok none, w' => ∀ t ∈ chain, w'.heap.IsForced t
      | .ok (some g), w' => ∃ u, DrivenTo w.heap chain u (some g) w'.heap
      | .error i, w' => DrivingStops w i w' := by
  refine leads_resolve_bind (.inl rfl) fun v' hv' => ?_
  split
  · next u =>
    have hresolve : s.heap.resolve v = .lazy u := (Heap.resolve_of_resolve? (hw.heap ▸ hv')).1
    -- what is returned soundly has no link to itself, so it is the pending thunk
    obtain rfl : v = .lazy u := by
      rcases s.resolve_cases hsound.2.2 with ⟨hlazy, -⟩ | ⟨t, -, hself, -⟩
      · rw [hresolve] at hlazy
        cases hlazy
      · exact hself.symm.trans hresolve
    have hdrive := Conf.sound_drive hsound
    refine ((drive_cases hdrive.2.1 hdrive.2.2).leads hw.heap hw.live).imp fun r w' h => ?_
    rcases r with i | _ | g
    · exact h
    · exact fun t ht => h t (List.mem_append_left _ ht)
    · exact ⟨u, h⟩
  · simp only [completeChain, leads_bind, leads_onHeap, leads_pure]
    rw [hw.heap]
    exact (Heap.isForced_completeChain _ hsound.2.1.1.1).2

end Driving

end LazyMachine
