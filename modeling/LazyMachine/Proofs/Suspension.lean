import LazyMachine.Proofs.Availability
import LazyMachine.Proofs.Moves
import LazyMachine.Proofs.Passages
import LazyMachine.Proofs.StepLimit

/-!
# Suspended instructions are executed again

In cooperative mode an instruction that needs the value of a thunk is suspended, the code of the
thunk runs in a frame directly above, and the instruction is then executed again. This makes
progress: when the frame of the instruction is on top again, it is as it was and the thunk has a
value, unless a failure came in between (`suspension_progresses`).

The states of a run are `Sound`: heap and frames fit a store, the thunks claimed are those in the
chains of the frames, and each frame of a chain runs the code of its last thunk. What waits below is
`Buried` until the chain that starts with the awaited thunk has its value; each round keeps it so,
comes back to it or fails (`Snapshot.Sound.comesTo`).
-/

namespace LazyMachine

open Heap (Settled Owned)
open Relation (ReflTransGen TransGen)

variable {p : Program} {format : Format} {level : Nat}

/-! ### Claims and code from state to state -/

namespace Heap

variable {h h' : Heap} {u : Ref .thunk}

/-- A forced thunk has a value. -/
theorem IsForced.memo?_isSome (hu : h.IsForced u) : (h.memo? u).isSome := by
  obtain ⟨v, hv⟩ := hu
  rw [h.memo?_of_memoAt? u hv, Option.isSome_some]

/-- Values of thunks are never lost. -/
theorem Evolves.isForced (e : h.Evolves h') (hu : h.IsForced u) : h'.IsForced u :=
  hu.imp fun _ => e.memoAt?

/-- A thunk that waits after claims have been settled had no value before, nor was it claimed. -/
theorem Settled.of_waiting {d : Deferred} (s : h.Settled h')
    (hu : h'.thunks[u.index]? = some (.waiting d)) :
    ¬ h.IsForced u ∧ ∀ d', h.thunks[u.index]? ≠ some (.running d') := by
  have hs := s.thunks u.index
  constructor
  · rintro ⟨v, hv⟩
    have hv' := s.memoAt? hv
    rw [Heap.memoAt?, hu] at hv'
    cases hv'
  · intro d' hd'
    rw [hd', hu] at hs
    cases hs

/-- A claim that is still there is for the same computation. -/
theorem Owned.running {claims claims' : List (Ref .thunk)} {d : Deferred}
    (o : (h.releaseChain claims).Owned h' claims') (hu : u ∈ claims')
    (hd : h.thunk u = .running d) : h'.thunk u = .running d := by
  obtain ⟨d', hd', hbase⟩ := o.claimed u hu
  rw [getElem?_releaseChain, h.getElem?_of_thunk u hd rfl] at hbase
  split at hbase
  · rcases hbase with heq | ⟨v, heq⟩
    · cases heq
      exact h'.thunk_of_getElem? u hd'
    · cases heq
  · cases hbase

/-- Functions stay as they are. -/
theorem Retains.body {k : Ref .function} {chunk : Nat} {captures : List Value} (r : h.Retains h')
    (hk : (h.function k).body = .code p chunk captures) :
    (h'.function k).body = .code p chunk captures := by
  rw [function, Array.getD_eq_getD_getElem?] at hk ⊢
  cases hget : h.functions[k.index]? with
  | none =>
    rw [hget] at hk
    cases hk
  | some fn =>
    rw [hget] at hk
    rw [r.functions _ _ hget]
    exact hk

end Heap

/-- An instruction that goes through leaves the claims with its frame. -/
theorem Flow.Keeps.claimsOf_eq {f : Frame} {flow : Flow} (hflow : flow.Keeps f)
    (hleave : ∀ v, flow ≠ .leave v) (below : List Frame) :
    claimsOf (flow.frames ++ below) = claimsOf (f :: below) := by
  cases flow with
  | next g | stay g | jump g target =>
    simp [Flow.frames, claimsOf, Frame.chain, Frame.kind_of_task hflow]
  | enter caller callee =>
    obtain ⟨hcaller, rest, hcallee⟩ := hflow
    simp [Flow.frames, claimsOf, Frame.chain, Frame.kind_of_task hcaller, hcallee]
  | leave v => exact absurd rfl (hleave v)

/-- Counting an instruction does not move the world. -/
theorem World.At.counted {w : World} {h : Heap} (hw : w.At h format False) :
    w.counted.At h format False :=
  ⟨hw.heap, hw.context, hw.covered⟩

namespace Snapshot

variable {a b : Snapshot} {chain : List (Ref .thunk)} {waiting : List Frame}

/-! ### Sound states -/

/-- What holds in every state of a run of a program. -/
structure Sound (p : Program) (format : Format) (a : Snapshot) : Prop where
  fits : ∃ s : Store p, a.world.At s.heap format False ∧ StackSound s a.frames
  stacked : Stacked a.frames
  /-- The claims are with the frames. -/
  owned : Owned {} a.heap (claimsOf a.frames)
  /-- The frame of a chain runs the code of its last thunk. -/
  bodies : ∀ g ∈ a.frames, ∀ u ∈ g.chain.getLast?, g.Evaluates a.heap u

/-- What driving a thunk for a chain comes to. -/
def DrivesTo (a : Snapshot) (chain : List (Ref .thunk)) :
    Except Stop (Option Frame) → World → Prop
  | .ok none, w => ∀ t ∈ chain, w.heap.IsForced t
  | .ok (some g), w => ∃ u h, a.heap.Settled h ∧ DrivenTo h chain u (some g) w.heap
  | .error stop, w => ∃ i, stop = .interrupt i ∧ DrivingStops a.world.counted i w

/-- On a sound state driving comes to that, and is not suspended itself. -/
theorem Sound.drives {r : EStateM.Result Stop World (Option Frame)} (ha : a.Sound p format)
    (hdrives : a.Drives (engine level) chain waiting r) :
    Leads (fun _ => r) a.world (a.DrivesTo chain) := by
  obtain ⟨s, hw, hstack⟩ := ha.fits
  cases hdrives with
  | awaited hframes hadvance =>
    rw [hframes] at hstack
    obtain ⟨t, ht, -, rfl⟩ := (advance_spec hstack hw.counted).of_error hadvance
    refine .of_eq ((resume_spec hstack hw.counted ht).imp fun r w' h => ?_) rfl
    match r with
    | .ok none => simp [DrivesTo]
    | .ok (some g) => exact ⟨t, a.heap, .refl _, h⟩
    | .error stop => exact h
  | @result f below chain v w hframes hkind hadvance =>
    rw [hframes] at hstack
    obtain ⟨s₁, hlater, hflow, rfl⟩ := (advance_spec hstack hw.counted).of_ok hadvance
    -- what waits after the instruction that leaves the frame also waited before it
    have hsettled : a.heap.Settled s₁.heap :=
      ((advance_yields (engine_settles level) a.fuel f _).of_ok hadvance).1 trivial
    have hsound := Conf.sound_leave hstack hlater hflow
    rw [hkind] at hsound
    refine .of_eq (x := fun _ => Step.ofEval _ _) (y := Step.ofEval _) ?_ rfl
    rw [leads_ofEval]
    refine (settle_spec hsound (hw.counted.onHeap s₁.heap)).imp fun r w' h => ?_
    match r with
    | .ok none => exact h
    | .ok (some g) =>
      obtain ⟨u, hu⟩ := h
      exact ⟨u, s₁.heap, hsettled, hu⟩
    | .error i => exact ⟨i, rfl, h⟩

/-- What is driven is not suspended itself. -/
theorem Sound.not_suspended {w : World} (ha : a.Sound p format) :
    ¬ a.Drives (engine level) chain waiting (.error (.interrupt .suspended) w) := by
  intro hdrives
  obtain ⟨i, hi, hstops⟩ := (ha.drives hdrives).of_error rfl
  cases hi
  exact hstops.ne_suspended rfl

/-- Every round from a sound state is one of the passages. -/
theorem Sound.passage (ha : a.Sound p format) (hgoes : a.Goes (engine level) b) :
    a.Passage (engine level) b :=
  hgoes.passage fun _ _ _ => ha.not_suspended

/-! ### Claims along a run -/

/-- All frames wait, or those below the one whose thunks wait in turn. -/
theorem Drives.frames_eq {E : Engine} {r : EStateM.Result Stop World (Option Frame)}
    (hdrives : a.Drives E chain waiting r) : (chain = [] ∧ a.frames = waiting) ∨
      ∃ f : Frame, f.kind = .thunk chain ∧ a.frames = f :: waiting := by
  cases hdrives with
  | awaited hframes hadvance => exact .inl ⟨rfl, hframes⟩
  | result hframes hkind hadvance => exact .inr ⟨_, hkind, hframes⟩

/-- The claims of the frames are those of the chain for which a thunk is driven, and those of the
frames that wait. -/
theorem Drives.claimsOf_eq {E : Engine} {r : EStateM.Result Stop World (Option Frame)}
    (hdrives : a.Drives E chain waiting r) : claimsOf a.frames = chain ++ claimsOf waiting := by
  rcases hdrives.frames_eq with ⟨rfl, hframes⟩ | ⟨f, hkind, hframes⟩
  · rw [hframes, List.nil_append]
  · rw [hframes, claimsOf, List.flatMap_cons, Frame.chain, hkind]
    rfl

/-- An instruction that goes on keeps its frame, or what is below it. -/
theorem Passage.keeps {f : Frame} {flow : Flow}
    (hadvance : f.advance (engine level) a.fuel a.world.counted = .ok flow b.world) :
    flow.Keeps f :=
  ((advance_yields (engine_settles level) a.fuel f _).of_ok hadvance).2 flow rfl

/-- Unless something fails, a thunk that is claimed stays so until it has a value. -/
theorem Sound.claims (ha : a.Sound p format) (hpassage : a.Passage (engine level) b)
    (hcalm : ¬ a.Fails (engine level)) {u : Ref .thunk} (hu : u ∈ claimsOf a.frames) :
    u ∈ claimsOf b.frames ∨ b.heap.IsForced u := by
  cases hpassage with
  | flows hframes hadvance hleave hb =>
    rw [hb, (Passage.keeps hadvance).claimsOf_eq hleave, ← hframes]
    exact .inl hu
  | @returns f caller below rest v hframes hkind hadvance hb =>
    rw [hframes, claimsOf, List.flatMap_cons, Frame.chain, hkind, List.nil_append] at hu
    rw [hb, claimsOf, List.flatMap_cons, Frame.chain,
      Frame.kind_of_task (caller.task_pushResult _ _ _)]
    exact .inl hu
  | @drives chain waiting x hdrives hb =>
    rw [hdrives.claimsOf_eq, List.mem_append] at hu
    have hdriven := (ha.drives hdrives).of_ok rfl
    rw [hb]
    rcases hu with hu | hu
    · -- the chain has its value, or it waits in the frame that was entered
      cases x with
      | none => exact .inr (hdriven u hu)
      | some g =>
        obtain ⟨t, h, -, hkind, -⟩ := hdriven
        refine .inl (List.mem_flatMap.mpr ⟨g, by simp, ?_⟩)
        rw [Frame.chain, hkind]
        exact List.mem_append_left _ hu
    · rw [claimsOf, List.flatMap_append]
      exact .inl (List.mem_append_right _ hu)
  | fails hfails hb => exact absurd hfails hcalm

/-! ### Soundness along a run -/

/-- Below the limit a round executes an instruction. -/
theorem Goes.turn {E : Engine} (hgoes : a.Goes E b) :
    Machine.turn E a.fuel { a.machine with steps := a.machine.steps + 1 } a.world.counted =
      .ok (.running b.machine) b.world := by
  have hround := hgoes.round
  cases hlimit : a.machine.stepLimit.filter (· ≤ a.machine.steps) with
  | some limit =>
    simp only [Machine.round, hlimit] at hround
    exact absurd rfl ((abandon_not_running _ _ _).of_ok hround b.machine)
  | none =>
    simp only [Machine.round, hlimit] at hround
    exact hround

/-- The frames that go on fit a store. -/
theorem Goes.fits {s : Store p} (hgoes : a.Goes (engine level) b)
    (hw : a.world.At s.heap format False) (hstack : StackSound s a.frames) :
    ∃ s₁ : Store p, b.world.At s₁.heap format False ∧ StackSound s₁ b.frames := by
  obtain ⟨o, s₁, hlater, ho, N, hturn⟩ : (Conf.run a.frames).Progresses format s :=
    Conf.progresses_run hstack
  let m : Machine := { a.machine with steps := a.machine.steps + 1 }
  -- the store tells what the round comes to at a high level, which is what it comes to here
  have happroximates := turn_approximates (engine_approximates (Nat.le_max_left level N))
    (Nat.le_max_left a.fuel N) m
  have hresult : o.result m { a.world.counted with heap := s₁.heap } =
      .ok (.running b.machine) b.world := by
    rw [← happroximates.eq_ok hgoes.turn]
    exact (hturn _ _ (Nat.le_max_right level N) (Nat.le_max_right a.fuel N) m _ hw.counted).symm
  cases o with
  | running frames =>
    obtain ⟨hm, hworld⟩ := EStateM.Result.ok.inj hresult
    refine ⟨s₁, hworld ▸ hw.counted.onHeap s₁.heap, ?_⟩
    rw [Snapshot.frames, ← Machine.Round.running.inj hm]
    exact ho
  | ended x frames => cases x <;> cases hresult
  | crashed => cases hresult

/-- Handling a failure leaves frames at their tasks. -/
theorem Handled.task {frames frames' : List Frame} (hhandled : Handled frames frames') :
    ∀ g ∈ frames', ∃ f ∈ frames, g.task = f.task := by
  induction hhandled with
  | @here f below handler handlers v hf =>
    intro g hg
    rcases List.mem_cons.mp hg with rfl | hg
    · exact ⟨f, List.mem_cons_self, rfl⟩
    · exact ⟨g, List.mem_cons_of_mem _ hg, rfl⟩
  | drop hbelow ih =>
    intro g hg
    obtain ⟨f, hf, htask⟩ := ih g hg
    exact ⟨f, List.mem_cons_of_mem _ hf, htask⟩

/-- Each frame goes on with its task, or has been entered for a call or for a thunk. -/
theorem Sound.origin (ha : a.Sound p format) (hpassage : a.Passage (engine level) b) :
    ∀ g ∈ b.frames, (∃ f ∈ a.frames, g.task = f.task) ∨
      ∀ u ∈ g.chain.getLast?, g.Evaluates b.heap u := by
  have hcall {g : Frame} {rest : List Value} (hg : g.kind = .call rest) :
      ∀ u ∈ g.chain.getLast?, g.Evaluates b.heap u := by simp [Frame.chain, hg]
  intro g hg
  cases hpassage with
  | @flows f below flow hframes hadvance hleave hb =>
    rw [hframes]
    rw [hb] at hg
    -- the frames below the top are the same; the top goes on, and a callee has no chain
    rcases List.mem_append.mp hg with hg | hg
    · have hkeeps := Passage.keeps hadvance
      cases flow with
      | next g' | stay g' | jump g' target =>
        cases List.mem_singleton.mp hg
        exact .inl ⟨f, List.mem_cons_self, hkeeps⟩
      | enter caller callee =>
        obtain ⟨hcaller, rest, hcallee⟩ := hkeeps
        rcases List.mem_pair.mp hg with rfl | rfl
        · exact .inr (hcall hcallee)
        · exact .inl ⟨f, List.mem_cons_self, hcaller⟩
      | leave v => exact absurd rfl (hleave v)
    · exact .inl ⟨g, List.mem_cons_of_mem _ hg, rfl⟩
  | @returns f caller below rest v hframes hkind hadvance hb =>
    rw [hframes]
    rw [hb] at hg
    rcases List.mem_cons.mp hg with rfl | hg
    · exact .inl ⟨caller, by simp, caller.task_pushResult _ _ _⟩
    · exact .inl ⟨g, by simp [hg], rfl⟩
  | @drives chain waiting x hdrives hb =>
    rw [hb] at hg
    rcases List.mem_append.mp hg with hg | hg
    · obtain rfl : x = some g := by simpa using hg
      obtain ⟨u, h, -, hkind, -, -, heval⟩ := (ha.drives hdrives).of_ok rfl
      have hlast : g.chain.getLast? = some u := by simp [Frame.chain, hkind]
      refine .inr fun t ht => ?_
      rw [hlast] at ht
      cases ht
      exact heval
    · refine .inl ⟨g, ?_, rfl⟩
      rcases hdrives.frames_eq with ⟨-, hframes⟩ | ⟨f, -, hframes⟩
      · rwa [hframes]
      · rw [hframes]
        exact List.mem_cons_of_mem _ hg
  | fails hfails hb => exact .inl (hb.task g hg)

/-- A round leads from a sound state to a sound one. -/
theorem Sound.step (ha : a.Sound p format) (hgoes : a.Goes (engine level) b) :
    b.Sound p format := by
  have hround {base : Heap} (o : base.Owned a.heap (claimsOf a.frames)) :
      Stacked b.frames ∧ base.Owned b.heap (claimsOf b.frames) :=
    (round_owned (engine_settles level) a.fuel ha.stacked o).of_ok hgoes.round
  obtain ⟨hstacked, howned⟩ := hround ha.owned
  obtain ⟨s, hw, hstack⟩ := ha.fits
  refine ⟨hgoes.fits hw hstack, hstacked, howned, fun g hg u hu => ?_⟩
  rcases ha.origin (ha.passage hgoes) g hg with ⟨f, hf, htask⟩ | heval
  · -- the frame and its claims were there before, and claims are for the same computation
    have hchain : g.chain = f.chain := by rw [Frame.chain, Frame.kind_of_task htask]; rfl
    obtain ⟨k, captures, hrunning, hbody⟩ := ha.bodies f hf u (hchain ▸ hu)
    obtain ⟨-, orestart⟩ := hround ha.owned.restart
    have hclaimed : u ∈ claimsOf b.frames :=
      List.mem_flatMap.mpr ⟨g, hg, List.mem_of_mem_getLast? hu⟩
    refine ⟨k, captures, orestart.running hclaimed hrunning, ?_⟩
    have hprogram : g.program = f.program := congrArg (·.1) htask
    have hchunk : g.chunk = f.chunk := congrArg (·.2.1) htask
    rw [hprogram, hchunk]
    exact ((a.heap.retains_releaseChain _).trans orestart.toRetains).body hbody
  · exact heval u hu

/-- Soundness does not depend on the fuel that is left. -/
theorem Sound.refuel {n k : Nat} {m : Machine} {w : World} (ha : Sound p format ⟨n, m, w⟩) :
    Sound p format ⟨k, m, w⟩ :=
  ⟨ha.fits, ha.stacked, ha.owned, ha.bodies⟩

/-! ### Waiting frames -/

variable {f : Frame} {below : List Frame} {t : Ref .thunk}

/-- A frame waits for a thunk: directly above it is the frame of the chain that starts with the
thunk. -/
inductive Buried (f : Frame) (below : List Frame) (t : Ref .thunk) : List Frame → Prop
  | here {g : Frame} {more : List (Ref .thunk)} (hg : g.kind = .thunk (t :: more)) :
      Buried f below t (g :: f :: below)
  | above (g : Frame) {frames : List Frame} (hframes : Buried f below t frames) :
      Buried f below t (g :: frames)

/-- A failure has reached a frame: it goes on at its latest handler, or it is gone. -/
def Reached (f : Frame) (below frames : List Frame) : Prop :=
  (∃ handler handlers v, f.handlers = handler :: handlers ∧
    frames = f.handle handler handlers v :: below) ∨ frames.length ≤ below.length

/-- What a round does with a frame that waits for a thunk: it still waits, or it goes on as it was
and the thunk has a value, or a failure has reached it. -/
inductive ComesTo (E : Engine) (f : Frame) (below : List Frame) (t : Ref .thunk) (a b : Snapshot) :
    Prop
  | waits (hburied : Buried f below t b.frames)
  | retries (hframes : b.frames = f :: below) (hforced : b.heap.IsForced t)
  | fails (hfails : a.Fails E) (hreached : Reached f below b.frames)

theorem Buried.append {frames : List Frame} (hburied : Buried f below t frames)
    (above : List Frame) : Buried f below t (above ++ frames) := by
  induction above with
  | nil => exact hburied
  | cons g above ih => exact .above g ih

/-- The top frame may change but for its kind. -/
theorem Buried.replace {g g' : Frame} {frames : List Frame}
    (hburied : Buried f below t (g :: frames)) (hkind : g'.kind = g.kind) :
    Buried f below t (g' :: frames) := by
  cases hburied with
  | here hg => exact .here (hkind.trans hg)
  | above _ hframes => exact .above _ hframes

/-- An instruction that goes through leaves those that wait. -/
theorem Buried.flow {g : Frame} {frames : List Frame} {flow : Flow}
    (hburied : Buried f below t (g :: frames)) (hflow : flow.Keeps g)
    (hleave : ∀ v, flow ≠ .leave v) : Buried f below t (flow.frames ++ frames) := by
  cases flow with
  | next g' | stay g' | jump g' target => exact hburied.replace (Frame.kind_of_task hflow)
  | enter caller callee => exact .above _ (hburied.replace (Frame.kind_of_task hflow.1))
  | leave v => exact absurd rfl (hleave v)

theorem Buried.length {frames : List Frame} (hburied : Buried f below t frames) :
    below.length + 1 < frames.length := by
  induction hburied with
  | here hg => simp
  | above g hframes ih => exact Nat.lt_succ_of_lt ih

/-- The frames above a buried one end with that of a chain for the thunk. -/
theorem Buried.exists_above {frames : List Frame} (hburied : Buried f below t frames) :
    ∃ above g more, frames = above ++ g :: f :: below ∧ g.kind = .thunk (t :: more) := by
  induction hburied with
  | @here g more hg => exact ⟨[], g, more, rfl, hg⟩
  | above h hframes ih =>
    obtain ⟨above, g, more, rfl, hg⟩ := ih
    exact ⟨h :: above, g, more, rfl, hg⟩

theorem Handled.length {frames frames' : List Frame} (hhandled : Handled frames frames') :
    frames'.length ≤ frames.length := by
  induction hhandled with
  | here hf => simp
  | drop hbelow ih => exact Nat.le_succ_of_le ih

/-- A failure of the top frame reaches it, or a frame further down. -/
theorem Handled.reached {frames : List Frame} (hhandled : Handled (f :: below) frames) :
    Reached f below frames := by
  cases hhandled with
  | here hf => exact .inl ⟨_, _, _, hf, rfl⟩
  | drop hbelow => exact .inr hbelow.length

/-- A failure above a waiting frame is handled above it, or reaches it. -/
theorem Buried.handled {frames frames' : List Frame} (hburied : Buried f below t frames)
    (hhandled : Handled frames frames') : Buried f below t frames' ∨ Reached f below frames' := by
  -- the handler is searched from the top, where the chain's frame comes before the one that waits
  induction hhandled with
  | here hf =>
    cases hburied with
    | here hg => exact .inl (.here hg)
    | above _ hframes => exact .inl (.above _ hframes)
  | drop hbelow ih =>
    cases hburied with
    | here hg => exact .inr hbelow.reached
    | above _ hframes => exact ih hframes

/-- A frame that waits goes on waiting until its thunk has a value or a failure reaches it. -/
theorem Sound.comesTo (ha : a.Sound p format) (hgoes : a.Goes (engine level) b)
    (hburied : Buried f below t a.frames) : ComesTo (engine level) f below t a b := by
  cases ha.passage hgoes with
  | flows hframes hadvance hleave hb =>
    rw [hframes] at hburied
    refine .waits ?_
    rw [hb]
    exact hburied.flow (Passage.keeps hadvance) hleave
  | @returns g caller rest surplus v hframes hkind hadvance hb =>
    rw [hframes] at hburied
    refine .waits ?_
    rw [hb]
    cases hburied with
    | here hg =>
      rw [hkind] at hg
      cases hg
    | above _ hcaller =>
      exact hcaller.replace (Frame.kind_of_task (caller.task_pushResult _ _ _))
  | @drives chain waiting x hdrives hb =>
    rcases hdrives.frames_eq with ⟨-, hframes⟩ | ⟨g, hkind, hframes⟩
    · rw [hframes] at hburied
      refine .waits ?_
      rw [hb]
      exact hburied.append _
    · rw [hframes] at hburied
      cases hburied with
      | above _ hwaiting =>
        refine .waits ?_
        rw [hb]
        exact hwaiting.append _
      | @here _ more hg =>
        -- the code of the chain that the frame waits for is left
        obtain rfl : chain = t :: more := FrameKind.thunk.inj (hkind.symm.trans hg)
        have hdriven := (ha.drives hdrives).of_ok rfl
        cases x with
        | none => exact .retries hb (hdriven t List.mem_cons_self)
        | some g' =>
          obtain ⟨u, h, -, hkind', -⟩ := hdriven
          refine .waits ?_
          rw [hb]
          exact .here hkind'
  | fails hfails hb =>
    rcases hburied.handled hb with hburied | hreached
    · exact .waits hburied
    · exact .fails hfails hreached

/-! ### The round of an event -/

section Events

variable {E : Engine} {r : EStateM.Result Stop World (Option Frame)}

/-- A state drives thunks in one way. -/
theorem Drives.unique {chain' : List (Ref .thunk)} {waiting' : List Frame}
    {r' : EStateM.Result Stop World (Option Frame)} (hdrives : a.Drives E chain waiting r)
    (hdrives' : a.Drives E chain' waiting' r') : waiting = waiting' ∧ r = r' := by
  cases hdrives with
  | awaited hframes hadvance =>
    cases hdrives' with
    | awaited hframes' hadvance' =>
      cases hframes.symm.trans hframes'
      cases hadvance.symm.trans hadvance'
      exact ⟨rfl, rfl⟩
    -- one kind drives while the instruction is under way, the other behind the result
    | result hframes' hkind' hadvance' =>
      cases hframes.symm.trans hframes'
      cases hadvance.symm.trans hadvance'
  | result hframes hkind hadvance =>
    cases hdrives' with
    | awaited hframes' hadvance' =>
      cases hframes.symm.trans hframes'
      cases hadvance.symm.trans hadvance'
    | result hframes' hkind' hadvance' =>
      cases hframes.symm.trans hframes'
      cases hadvance.symm.trans hadvance'
      cases hkind.symm.trans hkind'
      exact ⟨rfl, rfl⟩

/-- If thunks are driven in a round, the frames are those that wait and the frame that was entered,
or driving has failed. -/
theorem Passage.of_drives (hpassage : a.Passage E b) (hdrives : a.Drives E chain waiting r) :
    (∃ x, r = .ok x b.world ∧ b.frames = x.toList ++ waiting) ∨
      a.Fails E ∧ (∃ w, r = .error (.interrupt .failed) w) ∧ Handled a.frames b.frames := by
  -- a round is one of these: the other kinds have another outcome of the same instruction
  cases hpassage with
  | flows hframes hadvance hleave hb =>
    cases hdrives with
    | awaited hframes' hadvance' =>
      cases hframes.symm.trans hframes'
      cases hadvance.symm.trans hadvance'
    | @result _ _ _ v _ hframes' hkind' hadvance' =>
      cases hframes.symm.trans hframes'
      exact absurd (EStateM.Result.ok.inj (hadvance.symm.trans hadvance')).1 (hleave v)
  | returns hframes hkind hadvance hb =>
    cases hdrives with
    | awaited hframes' hadvance' =>
      cases hframes.symm.trans hframes'
      cases hadvance.symm.trans hadvance'
    | result hframes' hkind' hadvance' =>
      cases hframes.symm.trans hframes'
      cases hkind.symm.trans hkind'
  | drives hdrives' hb =>
    obtain ⟨rfl, rfl⟩ := hdrives.unique hdrives'
    exact .inl ⟨_, rfl, hb⟩
  | fails hfails hb =>
    refine .inr ⟨hfails, ?_, hb⟩
    cases hfails with
    | instruction hframes hadvance =>
      cases hdrives with
      | awaited hframes' hadvance' =>
        cases hframes.symm.trans hframes'
        cases hadvance.symm.trans hadvance'
      | result hframes' hkind' hadvance' =>
        cases hframes.symm.trans hframes'
        cases hadvance.symm.trans hadvance'
    | driving hdrives' => exact ⟨_, (hdrives.unique hdrives').2⟩

end Events

/-- An instruction that is suspended does nothing but ask for a thunk that has no value and is on
the store. -/
theorem Sound.awaits (ha : a.Sound p format) (hsuspends : a.Suspends (engine level) f below t) :
    ∃ s : Store p, a.world.At s.heap format False ∧ StackSound s (f :: below) ∧
      s.Fits (s.boundsOn (f :: below)) (.lazy t) ∧ s.heap.memo? t = none ∧
      f.advance (engine level) a.fuel a.world.counted = .error (.interrupt .suspended)
        { a.world.counted with context := a.world.counted.context.suspend t } := by
  obtain ⟨s, hw, hstack⟩ := ha.fits
  obtain ⟨hframes, w, hpending, hadvance⟩ := hsuspends
  rw [hframes] at hstack
  obtain ⟨u, hu, hmemo, rfl⟩ := (advance_spec hstack hw.counted).of_error hadvance
  cases hpending
  exact ⟨s, hw, hstack, hu, hmemo, hadvance⟩

/-- A thunk that an instruction is suspended on has no value. -/
theorem Sound.not_isForced (ha : a.Sound p format)
    (hsuspends : a.Suspends (engine level) f below t) : ¬ a.heap.IsForced t := by
  obtain ⟨s, hw, -, -, hmemo, -⟩ := ha.awaits hsuspends
  intro hforced
  have hsome := hforced.memo?_isSome
  rw [heap, hw.heap, hmemo] at hsome
  cases hsome

/-- A frame whose instruction is suspended waits for the thunk, or goes on at once if the thunk has
a value by then. -/
theorem Sound.suspended (ha : a.Sound p format) (hsuspends : a.Suspends (engine level) f below t)
    (hgoes : a.Goes (engine level) b) : ComesTo (engine level) f below t a b := by
  obtain ⟨s, hw, hstack, ht, -, hadvance⟩ := ha.awaits hsuspends
  have hframes := hsuspends.1
  rcases (ha.passage hgoes).of_drives (.awaited hframes hadvance) with
    ⟨x, hresume, hb⟩ | ⟨hfails, -, hb⟩
  · have hdriven := (resume_spec hstack hw.counted ht).of_ok hresume
    cases x with
    | none => exact .retries hb (hdriven t (by simp))
    | some g =>
      refine .waits ?_
      rw [hb]
      exact .here hdriven.1
  · rw [hframes] at hb
    exact .fails hfails hb.reached

/-- A thunk whose code is entered is claimed from then on. -/
theorem Sound.entered {u : Ref .thunk} (ha : a.Sound p format) (henters : a.Enters (engine level) u)
    (hgoes : a.Goes (engine level) b) : u ∈ claimsOf b.frames := by
  obtain ⟨chain, waiting, g, w, hdrives, hkind⟩ := henters
  rcases (ha.passage hgoes).of_drives hdrives with ⟨x, hx, hb⟩ | ⟨-, ⟨w, hw⟩, -⟩
  · cases hx
    rw [hb]
    refine List.mem_flatMap.mpr ⟨g, by simp, ?_⟩
    simp [Frame.chain, hkind]
  · cases hw

/-- A thunk whose code is entered neither has a value nor is claimed before. -/
theorem Sound.not_entered {u : Ref .thunk} (ha : a.Sound p format)
    (hu : u ∈ claimsOf a.frames ∨ a.heap.IsForced u) : ¬ a.Enters (engine level) u := by
  rintro ⟨chain, waiting, g, w, hdrives, hkind⟩
  obtain ⟨u', h, hsettled, hkind', ⟨d, hd⟩, -⟩ := (ha.drives hdrives).of_ok rfl
  obtain rfl : u = u' := by
    have heq := List.append_cancel_left (FrameKind.thunk.inj (hkind.symm.trans hkind'))
    exact (List.cons.inj heq).1
  obtain ⟨hunforced, hunclaimed⟩ := hsettled.of_waiting hd
  rcases hu with hu | hu
  · obtain ⟨d', hd', -⟩ := ha.owned.claimed u hu
    exact hunclaimed d' hd'
  · exact hunforced hu

/-! ### Runs -/

/-- A round after which there are more frames than `height`. -/
def Above (E : Engine) (height : Nat) (a b : Snapshot) : Prop :=
  a.Goes E b ∧ height < b.frames.length

/-- A round in which nothing fails. -/
def Calm (E : Engine) (a b : Snapshot) : Prop :=
  a.Goes E b ∧ ¬ a.Fails E

/-- Whatever the machine does, forced thunks stay forced. -/
theorem Goes.isForced {u : Ref .thunk} (hgoes : a.Goes (engine level) b) (hu : a.heap.IsForced u) :
    b.heap.IsForced u :=
  have evolves : a.heap.Evolves b.heap :=
    (round_evolves (engine_evolves level) a.fuel a.machine a.world).of_ok hgoes.round trivial
  evolves.isForced hu

/-- As long as a frame is not on top after its instruction was suspended, it waits. -/
theorem Sound.above (ha : a.Sound p format) (hsuspends : a.Suspends (engine level) f below t)
    (hpath : ReflTransGen (Above (engine level) (below.length + 1)) a b) :
    b.Sound p format ∧ ∀ c, b.Goes (engine level) c → ComesTo (engine level) f below t b c := by
  induction hpath with
  | refl => exact ⟨ha, fun c hgoes => ha.suspended hsuspends hgoes⟩
  | @tail b c hpath hlast ih =>
    obtain ⟨hgoes, hheight⟩ := hlast
    obtain ⟨hb, hcomes⟩ := ih
    have hc := hb.step hgoes
    refine ⟨hc, fun d hnext => hc.comesTo hnext ?_⟩
    -- the frame is not on top, so the round before has neither come back to it nor reached it
    cases hcomes c hgoes with
    | waits hburied => exact hburied
    | retries hframes hforced =>
      rw [hframes, List.length_cons] at hheight
      exact absurd hheight (Nat.lt_irrefl _)
    | fails hfails hreached =>
      rcases hreached with ⟨handler, handlers, v, -, hframes⟩ | hlength
      · rw [hframes, List.length_cons] at hheight
        exact absurd hheight (Nat.lt_irrefl _)
      · omega

/-- While nothing fails, the frame of a suspended instruction waits until the thunk has a value. -/
theorem Sound.calm_suspended (ha : a.Sound p format)
    (hsuspends : a.Suspends (engine level) f below t) (hpath : TransGen (Calm (engine level)) a b) :
    b.Sound p format ∧ (Buried f below t b.frames ∨ b.heap.IsForced t) := by
  have hcalm {b c : Snapshot} (hb : ¬ b.Fails (engine level))
      (hcomes : ComesTo (engine level) f below t b c) :
      Buried f below t c.frames ∨ c.heap.IsForced t := by
    cases hcomes with
    | waits hburied => exact .inl hburied
    | retries hframes hforced => exact .inr hforced
    | fails hfails hreached => exact absurd hfails hb
  induction hpath with
  | single hstep => exact ⟨ha.step hstep.1, hcalm hstep.2 (ha.suspended hsuspends hstep.1)⟩
  | tail hpath hstep ih =>
    obtain ⟨hb, hstate⟩ := ih
    refine ⟨hb.step hstep.1, ?_⟩
    rcases hstate with hburied | hforced
    · exact hcalm hstep.2 (hb.comesTo hstep.1 hburied)
    · exact .inr (hstep.1.isForced hforced)

/-- While nothing fails, a thunk whose code was entered is claimed until it has a value. -/
theorem Sound.calm_entered {u : Ref .thunk} (ha : a.Sound p format)
    (henters : a.Enters (engine level) u) (hpath : TransGen (Calm (engine level)) a b) :
    b.Sound p format ∧ (u ∈ claimsOf b.frames ∨ b.heap.IsForced u) := by
  induction hpath with
  | single hstep => exact ⟨ha.step hstep.1, .inl (ha.entered henters hstep.1)⟩
  | tail hpath hstep ih =>
    obtain ⟨hb, hstate⟩ := ih
    refine ⟨hb.step hstep.1, ?_⟩
    rcases hstate with hclaimed | hforced
    · exact hb.claims (hb.passage hstep.1) hstep.2 hclaimed
    · exact .inr (hstep.1.isForced hforced)

/-- The states that a run of a program on a machine visits between its rounds. -/
def Visited (level : Nat) (m : Machine) (p : Program) (w : World) (a : Snapshot) : Prop :=
  ∃ f, Frame.enter? p p.entry [] .entry = some f ∧
    Machine.Passes (engine level) level (m.withFrames (f :: m.frames)) w (a.fuel + 1) a.machine
      a.world

/-- What holds at the start of a run, whatever fuel is left, and is kept by every round holds in
every state that the run visits. -/
theorem Visited.induction {P : Snapshot → Prop} {m : Machine} {w : World}
    (hrefuel : ∀ n k m w, P ⟨n, m, w⟩ → P ⟨k, m, w⟩)
    (hstart : ∀ f, Frame.enter? p p.entry [] .entry = some f →
      P ⟨level, m.withFrames (f :: m.frames), w⟩)
    (hgoes : ∀ a b, P a → a.Goes (engine level) b → P b) (hvisited : a.Visited level m p w) :
    P a := by
  obtain ⟨f, hf, hpasses⟩ := hvisited
  have hpassed {fuel left k : Nat} {m m' : Machine} {w w' : World}
      (hpasses : Machine.Passes (engine level) fuel m w k m' w') (hk : k = left + 1)
      (hm : P ⟨fuel, m, w⟩) : P ⟨left, m', w'⟩ := by
    induction hpasses with
    | start => exact hrefuel _ _ _ _ hm
    | @round fuel k m m₁ m' w w₁ w' hround hnext ih =>
      cases fuel with
      | zero =>
        -- without fuel no further state is passed
        cases hnext
        cases hk
      | succ fuel =>
        have hgo : Goes (engine level) ⟨fuel + 1, m, w⟩ ⟨fuel, m₁, w₁⟩ := ⟨rfl, hround⟩
        exact ih hk (hrefuel _ _ _ _ (hgoes _ _ (hrefuel _ _ _ _ hm) hgo))
  exact hpassed hpasses rfl (hstart f hf)

/-- A machine that starts is sound. -/
theorem Sound.start {m : Machine} {w : World} {f : Frame} (hm : m.frames = []) (hheap : w.heap = {})
    (hcontext : w.context = { mode := .cooperative, format })
    (hf : Frame.enter? p p.entry [] .entry = some f) :
    Sound p format ⟨level, m.withFrames (f :: m.frames), w⟩ := by
  have hkind := Frame.kind_of_enter? hf
  obtain ⟨hstacked, howned⟩ := entry_owned m hm hkind w.heap
  have hframes : (m.withFrames (f :: m.frames)).frames = [f] := congrArg (f :: ·) hm
  have hw : w.At (Store.empty p).heap format False :=
    ⟨hheap, by rw [hcontext], .inl (by rw [hcontext])⟩
  refine ⟨⟨Store.empty p, hw, ?_⟩, hstacked, ?_, fun g hg u hu => ?_⟩
  · rw [Snapshot.frames, hframes]
    exact stackSound_entry hf
  · rw [← hheap]
    exact howned
  · rw [Snapshot.frames, hframes] at hg
    cases List.mem_singleton.mp hg
    simp [Frame.chain, hkind] at hu

theorem Sound.visited {m : Machine} {w : World} (hm : m.frames = []) (hheap : w.heap = {})
    (hcontext : w.context = { mode := .cooperative, format }) (hvisited : a.Visited level m p w) :
    a.Sound p format :=
  hvisited.induction (fun _ _ _ _ h => h.refuel) (fun _ hf => .start hm hheap hcontext hf)
    fun _ _ h hgoes => h.step hgoes

/-- Directly above a frame that waits, the code of the last thunk of a chain is run that starts with
the thunk that the frame waits for. -/
theorem Sound.runs_above (ha : a.Sound p format) (hburied : Buried f below t a.frames) :
    ∃ above g more, a.frames = above ++ g :: f :: below ∧ g.kind = .thunk (t :: more) ∧
      ∀ u ∈ (t :: more).getLast?, g.Evaluates a.heap u := by
  obtain ⟨above, g, more, hframes, hkind⟩ := hburied.exists_above
  refine ⟨above, g, more, hframes, hkind, fun u hu => ha.bodies g ?_ u ?_⟩
  · simp [hframes]
  · rwa [Frame.chain, hkind]

end Snapshot

/-- Suspended instructions make progress. Let a program run in cooperative mode, on a fresh heap.

If an instruction of a frame is suspended on a thunk, then from there on the code of the thunk, or
of the last of the thunks that it led to, is run by the frame directly above; when the frame is on
top again, it is as it was and the thunk has a value, or something failed in the round before and
the frame goes on at its latest handler, or it is gone. Unless something fails, no instruction of a
frame at the same height or further down is suspended on the same thunk again.

Unless something fails, the code of a thunk is entered only once. -/
theorem suspension_progresses (p : Program) (level : Nat) (m : Machine) (hm : m.frames = [])
    (w : World) (hheap : w.heap = {}) (format : Format)
    (hcontext : w.context = { mode := .cooperative, format }) (a : Snapshot)
    (ha : a.Visited level m p w) :
    (∀ f below t, a.Suspends (engine level) f below t →
      (∀ b c, ReflTransGen (Snapshot.Above (engine level) (below.length + 1)) a b →
        b.Goes (engine level) c →
        (∃ above g more, c.frames = above ++ g :: f :: below ∧ g.kind = .thunk (t :: more) ∧
          ∀ u ∈ (t :: more).getLast?, g.Evaluates c.heap u) ∨
        (c.frames = f :: below ∧ (c.heap.memo? t).isSome) ∨
        b.Fails (engine level) ∧ Snapshot.Reached f below c.frames) ∧
      ∀ b f' below', TransGen (Snapshot.Calm (engine level)) a b →
        b.Suspends (engine level) f' below' t → below.length < below'.length) ∧
    ∀ u b, a.Enters (engine level) u → TransGen (Snapshot.Calm (engine level)) a b →
      ¬ b.Enters (engine level) u := by
  have hsound := Snapshot.Sound.visited hm hheap hcontext ha
  refine ⟨fun f below t hsuspends =>
      ⟨fun b c hpath hgoes => ?_, fun b f' below' hpath hagain => ?_⟩,
    fun u b henters hpath => ?_⟩
  · -- while the machine stays above, the frame is buried under the thunk that it waits for
    obtain ⟨hb, hcomes⟩ := hsound.above hsuspends hpath
    cases hcomes c hgoes with
    | waits hburied => exact .inl ((hb.step hgoes).runs_above hburied)
    | retries hframes hforced => exact .inr (.inl ⟨hframes, hforced.memo?_isSome⟩)
    | fails hfails hreached => exact .inr (.inr ⟨hfails, hreached⟩)
  · obtain ⟨hb, hstate⟩ := hsound.calm_suspended hsuspends hpath
    rcases hstate with hburied | hforced
    · have hlength := hburied.length
      rw [hagain.1, List.length_cons] at hlength
      omega
    · exact absurd hforced (hb.not_isForced hagain)
  · obtain ⟨hb, hstate⟩ := hsound.calm_entered henters hpath
    exact hb.not_entered hstate

/-- A thunk whose code leads to another one. -/
def chained : Program :=
  ⟨#[⟨"main", 0, #[.delay 1 0, .force]⟩, ⟨"first", 0, #[.delay 2 0]⟩,
    ⟨"second", 0, #[.push (.int 7)]⟩], 0⟩

/-- The function over the code of a thunk. -/
def chained.body (name : String) (chunk : Nat) : Function :=
  ⟨name, 0, [], .code chained chunk []⟩

/-- A frame of the run. -/
def chained.frame (chunk pc : Nat) (stack : List Value) (kind : FrameKind) : Frame :=
  { program := chained, chunk, pc, locals := #[], stack, kind }

/-- The frame whose instruction forces the first thunk. -/
def chained.waiting : Frame :=
  chained.frame 0 1 [.lazy ⟨0⟩] .entry

/-- A state of the run in which that frame is the lowest one. -/
def chained.state (fuel steps : Nat) (above : List Frame) (functions : Array Function)
    (thunks : Array Thunk) : Snapshot where
  fuel := fuel
  machine := { frames := above ++ [chained.waiting], steps }
  world := { heap := { functions, thunks }, context := { mode := .cooperative }, executed := steps }

/-- The instruction that forces the first of two thunks is suspended in one state, and its frame is
on top again five rounds later, as it was, with a value for the thunk. -/
theorem suspension_progresses_chained :
    ∃ a f t b c, Snapshot.Visited 9 {} chained { context := { mode := .cooperative } } a ∧
      a.Suspends (engine 9) f [] t ∧ ReflTransGen (Snapshot.Above (engine 9) 1) a b ∧
      b.Goes (engine 9) c ∧ c.frames = [f] ∧ (c.heap.memo? t).isSome := by
  let first := chained.body "first" 1
  let second := chained.body "second" 2
  -- the code of the first thunk makes the second one, whose code is run in its place
  let a := chained.state 7 1 [] #[first] #[.waiting (.call ⟨0⟩)]
  let a₁ := chained.state 6 2 [chained.frame 1 0 [] (.thunk [⟨0⟩])] #[first]
    #[.running (.call ⟨0⟩)]
  let a₂ := chained.state 5 3 [chained.frame 1 1 [.lazy ⟨1⟩] (.thunk [⟨0⟩])] #[first, second]
    #[.running (.call ⟨0⟩), .waiting (.call ⟨1⟩)]
  let a₃ := chained.state 4 4 [chained.frame 2 0 [] (.thunk [⟨0⟩, ⟨1⟩])] #[first, second]
    #[.running (.call ⟨0⟩), .running (.call ⟨1⟩)]
  let b := chained.state 3 5 [chained.frame 2 1 [.int 7] (.thunk [⟨0⟩, ⟨1⟩])] #[first, second]
    #[.running (.call ⟨0⟩), .running (.call ⟨1⟩)]
  let c := chained.state 2 6 [] #[first, second] #[.forced (.int 7), .forced (.int 7)]
  have ha : a.Visited 9 {} chained { context := { mode := .cooperative } } :=
    ⟨_, rfl, .round rfl (.start _ _ _)⟩
  have hsuspends : a.Suspends (engine 9) chained.waiting [] ⟨0⟩ := ⟨rfl, _, rfl, rfl⟩
  have h₁ : Snapshot.Above (engine 9) 1 a a₁ := ⟨⟨rfl, rfl⟩, by decide⟩
  have h₂ : Snapshot.Above (engine 9) 1 a₁ a₂ := ⟨⟨rfl, rfl⟩, by decide⟩
  have h₃ : Snapshot.Above (engine 9) 1 a₂ a₃ := ⟨⟨rfl, rfl⟩, by decide⟩
  have h₄ : Snapshot.Above (engine 9) 1 a₃ b := ⟨⟨rfl, rfl⟩, by decide⟩
  have hpath : ReflTransGen (Snapshot.Above (engine 9) 1) a b :=
    .head h₁ (.head h₂ (.head h₃ (.single h₄)))
  have hgoes : b.Goes (engine 9) c := ⟨rfl, rfl⟩
  have hprogress := suspension_progresses chained 9 {} rfl _ rfl {} rfl a ha
  refine ⟨a, chained.waiting, ⟨0⟩, b, c, ha, hsuspends, hpath, hgoes, ?_⟩
  -- nothing runs above the frame any more, and it has no handler for a failure
  rcases (hprogress.1 chained.waiting [] ⟨0⟩ hsuspends).1 b c hpath hgoes with
    ⟨above, g, more, hframes, -⟩ | hretries | ⟨-, ⟨handler, handlers, v, hhandlers, -⟩ | hgone⟩
  · have hlength := congrArg List.length hframes
    rw [List.length_append] at hlength
    cases hlength
  · exact hretries
  · cases hhandlers
  · cases hgone

end LazyMachine
