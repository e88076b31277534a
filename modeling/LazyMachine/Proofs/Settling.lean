import LazyMachine.Proofs.Growth
import LazyMachine.Proofs.Ownership

/-!
# Evaluations settle their claims

Whatever an operation or a run of a machine claims, it settles before it ends, whether it ends with
a value, a failure, a suspension or an abort.

The proof goes once around the engine. Given that the operations of an engine settle their claims,
so do the driving of thunks, the rounds of a machine and the operations built on them
(`perform_settles`); hence the engine of every level does (`engine_settles`). Host code and single
instructions claim nothing by themselves, so for them `Settled` is one relation that admits new
objects among others.
-/

namespace LazyMachine

open Heap (Settled Owned)

variable {α : Type}

/-- New objects leave everything settled. -/
instance : Heap.Growth Settled where
  of_grows e := e.toExtends.settled
  of_addThunk := Heap.settled_addThunk

/-! ### Claims of a chain -/

/-- Claiming a thunk adds it to the claims, unless its value is there already or it is claimed
itself. -/
theorem claim_owned {base : Heap} {claims : List (Ref .thunk)} {w : World} (t : Ref .thunk)
    (o : base.Owned w.heap claims) :
    Leads (claim t) w fun
      | .ok (.run _), w' => base.Owned w'.heap (t :: claims)
      | .ok (.ready v), w' => base.Owned w'.heap claims ∧ w'.heap.memo? t = some v
      | .error _, w' => base.Owned w'.heap claims := by
  simp only [claim, leads_bind, leads_heap]
  split
  · next v hv => exact ⟨o, by rw [Heap.memo?, hv]⟩
  · next d hd =>
    simp only [leads_bind, leads_onHeap]
    exact o.claim (w.heap.getElem?_of_thunk t hd rfl)
  · exact o
  · exact o

/-- If an evaluation that releases a chain on interrupts has a regular outcome, it yielded a value,
or was interrupted and the chain was released. -/
theorem leads_releasing {x : Eval α} {chain : List (Ref .thunk)} {w : World}
    {Q : Except Interrupt α → World → Prop}
    (hok : Leads x w fun r w' => Regular r → match r with
      | .ok a => Q (.ok a) w'
      | .error i => Q (.error i) { w' with heap := w'.heap.releaseChain chain }) :
    Leads (releasing chain x) w fun r w' => Regular r → Q r w' := by
  simp only [releasing, leads_tryCatch]
  refine hok.imp fun r w' h => ?_
  cases r with
  | ok a => exact h
  | error i => exact h

/-- Claiming the thunk that a chain waits on adds it to the chain; if that fails, the chain is
released. -/
theorem releasing_claim_owned {base : Heap} {claims waiting : List (Ref .thunk)} {w : World}
    (t : Ref .thunk) (o : base.Owned w.heap (waiting ++ claims)) :
    Leads (releasing waiting (claim t)) w fun r w' => Regular r → match r with
      | .ok (.run _) => base.Owned w'.heap (waiting ++ [t] ++ claims)
      | .ok (.ready v) => base.Owned w'.heap (waiting ++ claims) ∧ w'.heap.memo? t = some v
      | .error _ => base.Owned w'.heap claims := by
  refine leads_releasing ((claim_owned t o).imp fun r w' h _ => ?_)
  match r with
  | .ok (.run d) =>
    refine h.perm ?_
    rw [List.append_assoc]
    exact List.perm_middle.symm
  | .ok (.ready v) => exact h
  | .error i => exact h.release

/-- An evaluation that settles its own claims leaves those of a chain to whatever comes next, or
releases them. -/
theorem Eval.Preserves.releasing_owned {base : Heap} {claims chain : List (Ref .thunk)}
    {w : World} {x : Eval α} (hx : x.Preserves Settled) (o : base.Owned w.heap (chain ++ claims)) :
    Leads (releasing chain x) w fun r w' => Regular r → match r with
      | .ok _ => base.Owned w'.heap (chain ++ claims)
      | .error _ => base.Owned w'.heap claims := by
  refine leads_releasing ((hx w).imp fun r w' h hreg => ?_)
  cases r with
  | ok a => exact o.mono (h hreg)
  | error i => exact (o.mono (h hreg)).release

/-- What driving a chain comes to, over the claims of others: they are all that is left, unless a
frame goes on with the chain. -/
def DriveOwned (base : Heap) (claims : List (Ref .thunk)) (r : Except Interrupt (Option Frame))
    (w : World) : Prop :=
  Regular r → match r with
    | .ok (some f) => (∃ chain, f.kind = .thunk chain) ∧ base.Owned w.heap (f.chain ++ claims)
    | _ => base.Owned w.heap claims

/-- The lowest frame, and no other, is the entry. -/
def Stacked : List Frame → Prop
  | [] => False
  | f :: below =>
    match f.kind with
    | .entry => below = []
    | _ => Stacked below

/-- The claims of the chains of all frames. -/
def claimsOf (frames : List Frame) : List (Ref .thunk) :=
  frames.flatMap Frame.chain

/-- A round leaves the claims to the frames that go on; at the end of the run no frame and no claim
is left. -/
def RoundOwned (base : Heap) (r : Except Interrupt Machine.Round) (w : World) : Prop :=
  match r with
  | .ok (.running m) => Stacked m.frames ∧ base.Owned w.heap (claimsOf m.frames)
  | .ok (.ended _ m) => m.frames = [] ∧ base.Settled w.heap
  | .error i => ¬ Regular (.error i : Except Interrupt Unit)

/-- What is not suspended is not driven. -/
theorem Machine.halt_eq_recover {E : Engine} {fuel : Nat} {m : Machine} {stop : Stop}
    (hsuspended : stop ≠ .interrupt .suspended) : m.halt E fuel stop = m.recover stop := by
  unfold Machine.halt
  split
  · exact absurd rfl hsuspended
  · rfl

/-- Making the value for a handler always succeeds. -/
theorem errorValue_leads (e : Option RuntimeError) (w : World) :
    Leads (errorValue e) w fun r w' => (∃ v, r = .ok v) ∧ w.heap.Settled w'.heap :=
  ⟨⟨_, rfl⟩, errorValue_preserves e w trivial⟩

section Engine

variable {E : Engine} (hE : ∀ o, (E o).Preserves Settled)

include hE

/-! ### Driving thunks -/

/-- Driving a chain settles its claims or hands them to the frame that it gives. -/
theorem drive_owned {base : Heap} {claims : List (Ref .thunk)} {w : World} (fuel : Nat)
    (waiting : List (Ref .thunk)) (t : Ref .thunk) (o : base.Owned w.heap (waiting ++ claims)) :
    Leads (drive E fuel waiting t) w (DriveOwned base claims) := by
  induction fuel generalizing waiting t w with
  | zero => simp [drive, DriveOwned]
  | succ fuel ih =>
    -- the claims handed on are those of the frame that is entered; otherwise they are completed or
    -- released before the drive ends
    simp only [drive, leads_bind]
    refine (releasing_claim_owned t o).imp fun r w' h => ?_
    rcases r with i | v | d
    · exact h
    · obtain ⟨ho, hv⟩ := h trivial
      simp only [completeChain, leads_bind, leads_onHeap, leads_pure]
      rw [Heap.completeChain_append_memo hv]
      exact fun _ => (ho.mono (Heap.settled_mark hv)).complete v
    · simp only [leads_bind]
      refine ((deferredBind_preserves hE fuel d).releasing_owned (h trivial)).imp fun r w'' h' => ?_
      rcases r with i | ⟨v, rest⟩ | ⟨program, chunk, locals, rest⟩
      · exact h'
      · refine leads_resolve_bind (not_regular_exhausted · |>.elim) fun u _ => ?_
        split
        · exact ih _ _ (h' trivial)
        · exact fun _ => (h' trivial).complete _
      · dsimp only
        split
        · next f hf =>
          have hkind := Frame.kind_of_enter? hf
          refine fun _ => ⟨⟨_, hkind⟩, ?_⟩
          rw [Frame.chain, hkind]
          exact h' trivial
        · simp only [releaseChain, leads_bind, leads_onHeap, leads_fail]
          exact fun _ => (h' trivial).release

/-- The result of a thunk's code settles the claims of its chain or hands them to the frame that it
gives. -/
theorem settle_owned {base : Heap} {claims : List (Ref .thunk)} {w : World} (fuel : Nat)
    (chain : List (Ref .thunk)) (v : Value) (o : base.Owned w.heap (chain ++ claims)) :
    Leads (settle E fuel chain v) w (DriveOwned base claims) := by
  refine leads_resolve_bind (not_regular_exhausted · |>.elim) fun u _ => ?_
  split
  · exact drive_owned hE fuel chain _ o
  · exact fun _ => o.complete _

/-- Driving whatever a suspended instruction waits on settles the claims on it or hands them to the
frame that it gives. -/
theorem resume_owned {base : Heap} {claims : List (Ref .thunk)} {w : World} (fuel : Nat)
    (o : base.Owned w.heap claims) :
    Leads (resume E fuel) w fun r w' => Step.Regular r → match r with
      | .ok (some f) => (∃ chain, f.kind = .thunk chain) ∧ base.Owned w'.heap (f.chain ++ claims)
      | _ => base.Owned w'.heap claims := by
  induction fuel generalizing w with
  | zero => simp [resume, Step.Regular, Stop.Regular]
  | succ fuel ih =>
    simp only [resume, leads_bind, Step.liftM_eq_ofEval, leads_ofEval, leads_context,
      leads_onContext]
    split
    · exact fun _ => o
    · next t _ =>
      simp only [leads_tryCatch, leads_ofEval]
      let w₀ : World := { w with context := w.context.takePending.2 }
      refine (drive_owned hE (w := w₀) fuel [] t o).imp fun r w' h => ?_
      cases r with
      | ok frame =>
        cases frame with
        | none => exact fun _ => h trivial
        | some f => exact fun _ => h trivial
      | error i =>
        cases i with
        -- the next thunk that is waited on is driven, with the fuel that is left
        | suspended => exact ih (h (by simp))
        | failed => exact fun _ => h (by simp)
        | exhausted => exact fun hreg => absurd hreg (by simp [Step.Regular, Stop.Regular])
        | crashed => exact fun hreg => absurd hreg (by simp [Step.Regular, Stop.Regular])

/-! ### Rounds -/

omit hE in
/-- Leaving frames releases their claims. If no handler is found, nothing is left. -/
theorem unwind_owned {base : Heap} {w : World} {frames : List Frame} (hs : Stacked frames)
    (o : base.Owned w.heap (claimsOf frames)) :
    Leads (unwind frames) w fun
      | .ok (true, frames'), w' => Stacked frames' ∧ base.Owned w'.heap (claimsOf frames')
      | .ok (false, frames'), w' => frames' = [] ∧ base.Settled w'.heap
      | .error _, _ => False := by
  induction frames generalizing w with
  | nil => exact hs.elim
  | cons f below ih =>
    unfold unwind
    split
    · next h handlers _ =>
      simp only [leads_bind, leads_context, leads_onContext]
      refine (errorValue_leads _ _).imp fun r w' hr => ?_
      obtain ⟨⟨v, rfl⟩, hsettled⟩ := hr
      exact ⟨hs, o.mono hsettled⟩
    -- without a handler the frame goes: the last one ends this, a thunk is given back
    · split
      · next hkind =>
        have hbelow : below = [] := by rwa [Stacked, hkind] at hs
        subst hbelow
        rw [claimsOf, List.flatMap_cons, Frame.chain, hkind] at o
        exact ⟨rfl, o.settled⟩
      · next hkind =>
        simp only [releaseChain, leads_bind, leads_onHeap]
        have hbelow : Stacked below := by
          rw [Stacked] at hs
          split at hs
          · next h => exact absurd h hkind
          · exact hs
        exact ih hbelow o.release

omit hE in
/-- Giving up releases every claim. -/
theorem abandon_owned {base : Heap} {w : World} (m : Machine) (a : Abort)
    (o : base.Owned w.heap (claimsOf m.frames)) : Leads (m.abandon a) w (RoundOwned base) := by
  simp only [Machine.abandon, releaseChain, leads_bind, leads_onHeap, leads_pure]
  rw [← List.append_nil (claimsOf m.frames)] at o
  exact ⟨rfl, o.release.settled⟩

omit hE in
theorem recover_owned {base : Heap} {w : World} {m : Machine} (stop : Stop)
    (hs : Stacked m.frames) (o : base.Owned w.heap (claimsOf m.frames)) :
    Leads (m.recover stop) w (RoundOwned base) := by
  cases stop with
  | abort a => exact abandon_owned m a o
  | interrupt i =>
    simp only [Machine.recover, leads_bind]
    refine (unwind_owned hs o).imp fun r w' h => ?_
    rcases r with i | ⟨_ | _, frames⟩
    · exact h.elim
    · exact h
    · exact h

omit hE in
/-- A frame for a chain of thunks may come on top of the others. -/
theorem stacked_cons_thunk {f : Frame} {frames : List Frame} (hs : Stacked frames)
    (hf : ∃ chain, f.kind = .thunk chain) : Stacked (f :: frames) := by
  obtain ⟨chain, hchain⟩ := hf
  rwa [Stacked, hchain]

omit hE in
/-- Frames and claims fit together as before when the top frame changes but keeps its task. -/
theorem owned_of_task_eq {base h : Heap} {f g : Frame} {below : List Frame} (hg : g.task = f.task)
    (hs : Stacked (f :: below)) (o : base.Owned h (claimsOf (f :: below))) :
    Stacked (g :: below) ∧ base.Owned h (claimsOf (g :: below)) := by
  replace hg := Frame.kind_of_task hg
  have hclaims : claimsOf (g :: below) = claimsOf (f :: below) := by
    simp [claimsOf, Frame.chain, hg]
  rw [hclaims, Stacked, hg]
  exact ⟨hs, o⟩

/-- After an instruction was not completed, the claims are with the frames that go on. -/
theorem halt_owned {base : Heap} {w : World} (fuel : Nat) {m : Machine} (stop : Stop)
    (hs : Stacked m.frames) (o : base.Owned w.heap (claimsOf m.frames)) :
    Leads (m.halt E fuel stop) w (RoundOwned base) := by
  unfold Machine.halt
  split
  · rw [leads_bind]
    refine leads_outcome ((resume_owned hE fuel o).imp fun r w' h hreg => ?_) fun i w' hi => hi
    have h := h hreg
    match r with
    | .ok none => exact ⟨hs, h⟩
    | .ok (some f) => exact ⟨stacked_cons_thunk hs h.1, h.2⟩
    | .error stop => exact recover_owned stop hs h
  · exact recover_owned _ hs o

/-- The result of a frame goes to whatever waits for it, with the claims of its chain. -/
theorem leave_owned {base : Heap} {w : World} (fuel : Nat) {m : Machine} {f : Frame}
    {below : List Frame} (v : Value) (hs : Stacked (f :: below))
    (o : base.Owned w.heap (claimsOf (f :: below))) :
    Leads (m.leave E fuel f.kind below v) w (RoundOwned base) := by
  have hclaims : claimsOf (f :: below) = f.chain ++ claimsOf below := rfl
  rw [hclaims, Frame.chain] at o
  rw [Stacked] at hs
  unfold Machine.leave
  split
  -- nothing waits for the result of the last frame
  · next hkind =>
    simp only [hkind] at hs o
    subst hs
    exact ⟨rfl, o.settled⟩
  -- the caller keeps its own claims
  · next rest hkind =>
    simp only [hkind] at hs o
    cases below with
    | nil => exact hs.elim
    | cons caller others =>
      exact owned_of_task_eq (caller.task_pushResult _ _ _) hs o
  -- the chain gets the value, or its claims pass on to the function that it gets instead
  · next chain hkind =>
    simp only [hkind] at hs o
    rw [leads_bind]
    refine leads_outcome ?_ fun i w' hi => hi
    rw [leads_ofEval]
    refine (settle_owned hE fuel chain v o).imp fun r w' h => ?_
    match r with
    | .ok none => exact fun _ => ⟨hs, h trivial⟩
    | .ok (some g) => exact fun _ => ⟨stacked_cons_thunk hs (h trivial).1, (h trivial).2⟩
    | .error i => exact fun hreg => halt_owned hE fuel _ hs (h hreg)

/-- One instruction keeps the claims with the frames, or ends the run with every claim settled. -/
theorem turn_owned {base : Heap} {w : World} (fuel : Nat) {m : Machine} (hs : Stacked m.frames)
    (o : base.Owned w.heap (claimsOf m.frames)) :
    Leads (m.turn E fuel) w (RoundOwned base) := by
  unfold Machine.turn
  split
  · next hframes =>
    rw [hframes] at hs
    exact hs.elim
  · next f below hframes =>
    rw [hframes] at hs o
    rw [leads_bind]
    refine leads_outcome ((advance_yields hE fuel f w).imp fun r w' h hreg => ?_) fun i w' hi => hi
    have ho := o.mono (h.1 hreg)
    match r with
    | .ok (.next g) => exact owned_of_task_eq (h.2 _ rfl) hs ho
    | .ok (.stay g) => exact owned_of_task_eq (h.2 _ rfl) hs ho
    | .ok (.jump g target) => exact owned_of_task_eq (h.2 _ rfl) hs ho
    -- the frame that is entered is a call and has no claims of its own
    | .ok (.enter caller callee) =>
      obtain ⟨hcaller, rest, hcallee⟩ := h.2 _ rfl
      obtain ⟨hs', ho'⟩ := owned_of_task_eq hcaller hs ho
      refine ⟨by rwa [Machine.withFrames, Stacked, hcallee], ?_⟩
      have hclaims : claimsOf (callee :: caller :: below) = claimsOf (caller :: below) := by
        simp [claimsOf, Frame.chain, hcallee]
      rwa [Machine.withFrames, hclaims]
    | .ok (.leave v) => exact leave_owned hE fuel v hs ho
    | .error stop => exact halt_owned hE fuel stop (by rwa [hframes]) (by rwa [hframes])

/-- So does one round. -/
theorem round_owned {base : Heap} {w : World} (fuel : Nat) {m : Machine} (hs : Stacked m.frames)
    (o : base.Owned w.heap (claimsOf m.frames)) :
    Leads (m.round E fuel) w (RoundOwned base) := by
  unfold Machine.round
  split
  · exact abandon_owned m _ o
  · simp only [leads_bind, leads_countInstruction]
    exact turn_owned hE fuel hs o

/-- A run settles whatever it claims. -/
theorem execute_settles {base : Heap} {w : World} (fuel : Nat) {m : Machine}
    (hs : Stacked m.frames) (o : base.Owned w.heap (claimsOf m.frames)) :
    Leads (m.execute E fuel) w fun
      | .ok (_, m'), w' => m'.frames = [] ∧ base.Settled w'.heap
      | .error i, _ => ¬ Regular (.error i : Except Interrupt Unit) := by
  induction fuel generalizing m w with
  | zero => simp [Machine.execute]
  | succ fuel ih =>
    simp only [Machine.execute, leads_bind]
    refine (round_owned hE fuel hs o).imp fun r w' h => ?_
    rcases r with i | m | ⟨e, m⟩
    · exact h
    · exact ih h.1 h.2
    · exact h

omit hE in
/-- A machine that enters its first frame claims nothing yet. -/
theorem entry_owned (m : Machine) {f : Frame} (hm : m.frames = []) (hf : f.kind = .entry)
    (h : Heap) :
    Stacked (m.withFrames (f :: m.frames)).frames ∧
      h.Owned h (claimsOf (m.withFrames (f :: m.frames)).frames) := by
  have hframes : (m.withFrames (f :: m.frames)).frames = [f] := by rw [hm]; rfl
  rw [hframes]
  refine ⟨by rw [Stacked, hf], ?_⟩
  simpa [claimsOf, Frame.chain, hf] using Owned.start h

/-- A run that starts with one frame settles whatever it claims. -/
theorem execute_entry_settles {w : World} (fuel : Nat) {m : Machine} {f : Frame}
    (hm : m.frames = []) (hf : f.kind = .entry) :
    Leads ((m.withFrames (f :: m.frames)).execute E fuel) w fun
      | .ok (_, m'), w' => m'.frames = [] ∧ w.heap.Settled w'.heap
      | .error i, _ => ¬ Regular (.error i : Except Interrupt Unit) := by
  obtain ⟨hs, o⟩ := entry_owned m hm hf w.heap
  exact execute_settles hE fuel hs o

/-- So does the invocation of a chunk on a machine without frames. -/
theorem invoke_settles {w : World} (fuel : Nat) {m : Machine} (hm : m.frames = [])
    (program : Program) (chunk : Nat) (locals : List Value) :
    Leads (m.invoke E fuel program chunk locals) w fun
      | .ok (_, m'), w' => m'.frames = [] ∧ w.heap.Settled w'.heap
      | .error i, _ => ¬ Regular (.error i : Except Interrupt Unit) := by
  simp only [Machine.invoke, leads_bind, leads_context]
  split
  · exact ⟨hm, Settled.refl _⟩
  · split
    · exact ⟨hm, Settled.refl _⟩
    · next f hf =>
      rw [leads_bind]
      refine (execute_entry_settles hE fuel hm (Frame.kind_of_enter? hf)).imp fun r w' h => ?_
      rcases r with i | ⟨v | _ | a, m'⟩ <;> exact h

/-! ### Operations -/

theorem invokeChunk_settles (fuel : Nat) (program : Program) (chunk : Nat) (locals : List Value) :
    (invokeChunk E fuel program chunk locals).Preserves Settled := by
  intro w
  simp only [invokeChunk, leads_bind]
  refine (invoke_settles hE fuel (m := {}) rfl program chunk locals).imp fun r w' h => ?_
  rcases r with i | ⟨i | v, m'⟩
  · exact fun hreg => absurd hreg h
  · exact fun _ => h.2
  · exact fun _ => h.2

/-- Evaluating a chain at once settles its claims. -/
theorem forceNow_owned {base : Heap} {claims : List (Ref .thunk)} {w : World} (fuel : Nat)
    (waiting : List (Ref .thunk)) (t : Ref .thunk) (o : base.Owned w.heap (waiting ++ claims)) :
    Leads (forceNow E fuel waiting t) w fun r w' => Regular r → base.Owned w'.heap claims := by
  induction fuel generalizing waiting t w with
  | zero => simp [forceNow]
  | succ fuel ih =>
    simp only [forceNow, leads_bind]
    refine (releasing_claim_owned t o).imp fun r w' h => ?_
    rcases r with i | v | d
    · exact h
    · exact fun _ => (h trivial).1.complete v
    · simp only [leads_bind]
      have hrun := deferredRun_preserves hE (invokeChunk_settles hE) fuel d
      refine (hrun.releasing_owned (h trivial)).imp fun r w'' h' => ?_
      cases r with
      | error i => exact h'
      | ok v =>
        dsimp only
        split
        · exact ih _ _ (h' trivial)
        · exact fun _ => (h' trivial).complete _

theorem forceThunk_settles (fuel : Nat) (t : Ref .thunk) :
    (forceThunk E fuel t).Preserves Settled := by
  refine .bind .heap fun h => ?_
  split
  · exact .pure _
  · refine .bind .context fun c => ?_
    split
    · intro w
      exact (forceNow_owned hE fuel [] t (Owned.start w.heap)).imp fun r w' h hreg =>
        (h hreg).settled
    · exact .suspend t

/-- Every operation settles its claims. -/
theorem perform_settles (fuel : Nat) (o : Operation) : (perform E fuel o).Preserves Settled :=
  perform_preserves hE (forceThunk_settles hE) (invokeChunk_settles hE) fuel o

end Engine

/-- The operations of every level settle their claims. -/
theorem engine_settles (level : Nat) (o : Operation) : (engine level o).Preserves Settled := by
  induction level generalizing o with
  | zero => exact .throw _
  | succ level ih => exact perform_settles ih level o

end LazyMachine
