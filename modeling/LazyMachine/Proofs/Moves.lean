import LazyMachine.Proofs.Settling

/-!
# Moves of the heap

`Heap.Move` lists all that evaluations ever do to the heap: they add objects, claim thunks that
wait, return claimed ones to waiting, publish values, and mark thunks with a value as done. What is
published is either a value that is not lazy or the value of a thunk that has one already.

An evaluation is a sequence of such moves, whatever it evaluates and however it ends
(`engine_evolves`, `invoke_evolves`, `forceNow_evolves`). So a property of heaps that each move
keeps is kept by every evaluation. If code of the host or foreign values do more than that, the
moves are mixed with what these do: a relation of heaps that admits moves and holds across theirs
holds across the evaluation (`Heap.Moving`).
-/

namespace LazyMachine

variable {α : Type}

/-- A value that is no thunk is not lazy. -/
theorem Value.isLazy_eq_false {v : Value} (hv : ∀ t, v ≠ .lazy t) : v.isLazy = false := by
  cases v with
  | lazy t => exact absurd rfl (hv t)
  | _ => rfl

namespace Heap

/-- A value that may be published. -/
def Publishable (h : Heap) (v : Value) : Prop :=
  v.isLazy = false ∨ ∃ i : Nat, h.memoAt? i = some v

/-- One change of the heap. -/
inductive Move : Heap → Heap → Prop
  /-- Objects other than thunks are added. -/
  | grow {h h' : Heap} : h.Grows h' → Move h h'
  /-- A waiting thunk is added. -/
  | defer (h : Heap) (d : Deferred) : Move h (h.addThunk (.waiting d)).2
  | claim {h : Heap} {t : Ref .thunk} {d : Deferred} :
      h.thunk t = .waiting d → Move h (h.setThunk t (.running d))
  | release {h : Heap} {t : Ref .thunk} {d : Deferred} :
      h.thunk t = .running d → Move h (h.setThunk t (.waiting d))
  | publish {h : Heap} {t : Ref .thunk} {v : Value} :
      h.memo? t = none → h.Publishable v → Move h (h.setThunk t (.forced v))
  | mark {h : Heap} {t : Ref .thunk} {v : Value} :
      h.memo? t = some v → Move h (h.setThunk t (.forced v))

/-- `h'` comes from `h` by moves. -/
def Evolves : Heap → Heap → Prop :=
  Relation.ReflTransGen Move

/-- A reflexive and transitive relation of heaps that admits every move. -/
class Moving (R : Heap → Heap → Prop) : Prop extends IsPreorder Heap R where
  of_move {h h' : Heap} : h.Move h' → R h h'

/-- New objects are moves. -/
instance {R : Heap → Heap → Prop} [Moving R] : Growth R where
  of_grows e := Moving.of_move (.grow e)
  of_addThunk h d := Moving.of_move (.defer h d)

/-- Moves one after the other are moves. -/
instance : Moving Evolves where
  refl _ := .refl
  trans _ _ _ := .trans
  of_move := .single

/-- A relation that admits every move admits sequences of them. -/
theorem Evolves.related {R : Heap → Heap → Prop} [Moving R] {h h' : Heap} (e : h.Evolves h') :
    R h h' := by
  induction e with
  | refl => exact refl_of R _
  | tail _ m ih => exact trans_of R ih (Moving.of_move m)

/-- What every move keeps, a sequence of moves keeps. -/
theorem Evolves.keeps {P : Heap → Prop} (hmove : ∀ {h h' : Heap}, h.Move h' → P h → P h')
    {h h' : Heap} (e : h.Evolves h') (hP : P h) : P h' := by
  induction e with
  | refl => exact hP
  | tail _ m ih => exact hmove m ih

/-- A move leaves the objects other than thunks. -/
theorem Move.retains {h h' : Heap} (m : h.Move h') : h.Retains h' := by
  cases m with
  | grow e => exact e.toRetains
  | defer d => exact h.retains_withThunks _
  | claim _ => exact h.retains_setThunk _ _
  | release _ => exact h.retains_setThunk _ _
  | publish _ _ => exact h.retains_setThunk _ _
  | mark _ => exact h.retains_setThunk _ _

/-- All objects but thunks stay as they are made. -/
theorem Evolves.retains {h h' : Heap} (e : h.Evolves h') : h.Retains h' :=
  e.keeps (P := h.Retains) (fun m hr => hr.trans m.retains) (.refl h)

/-! ### Values of thunks -/

section Thunks

variable {h h' : Heap} {t : Ref .thunk} {v : Value}

/-- Replacing a thunk without a value leaves the values of the others. -/
theorem memoAt?_setThunk {i : Nat} (ht : h.memo? t = none) (s : Thunk)
    (hi : h.memoAt? i = some v) : (h.setThunk t s).memoAt? i = some v := by
  have hne : t.index ≠ i := by
    rintro rfl
    rw [h.memo?_of_memoAt? t hi] at ht
    cases ht
  rw [memoAt?, getElem?_setThunk, if_neg fun heq => hne heq.1]
  exact hi

/-- Marking a thunk as done leaves all values. -/
theorem memoAt?_mark {i : Nat} {u : Value} (ht : h.memo? t = some u) (hi : h.memoAt? i = some v) :
    (h.setThunk t (.forced u)).memoAt? i = some v := by
  rw [memoAt?, getElem?_setThunk]
  split
  · next heq =>
    obtain ⟨rfl, -⟩ := heq
    rw [h.memo?_of_memoAt? t hi] at ht
    cases ht
    rfl
  · exact hi

/-- A waiting thunk has no value. -/
theorem memo?_of_waiting {d : Deferred} (ht : h.thunk t = .waiting d) : h.memo? t = none := by
  rw [memo?, ht]

/-- A running thunk has no value. -/
theorem memo?_of_running {d : Deferred} (ht : h.thunk t = .running d) : h.memo? t = none := by
  rw [memo?, ht]

/-- A move replaces no value of a thunk. -/
theorem Move.memo {i : Nat} (m : h.Move h') (hi : h.memoAt? i = some v) :
    h'.memoAt? i = some v := by
  cases m with
  | grow e => rwa [memoAt?, e.thunks]
  | defer d => exact h.memoAt?_addThunk _ hi
  | claim hd => exact memoAt?_setThunk (memo?_of_waiting hd) _ hi
  | release hd => exact memoAt?_setThunk (memo?_of_running hd) _ hi
  | publish ht _ => exact memoAt?_setThunk ht _ hi
  | mark ht => exact memoAt?_mark ht hi

/-- Values of thunks are never replaced. -/
theorem Evolves.memoAt? {i : Nat} (e : h.Evolves h') (hi : h.memoAt? i = some v) :
    h'.memoAt? i = some v :=
  e.keeps (P := fun k => k.memoAt? i = some v) (fun m hi => m.memo hi) hi

/-- What may be published may be published later. -/
theorem Move.publishable (m : h.Move h') (hv : h.Publishable v) : h'.Publishable v :=
  hv.imp_right fun ⟨i, hi⟩ => ⟨i, m.memo hi⟩

/-- The value of a thunk may be published. The default value, of a thunk that was never made, is not
lazy. -/
theorem publishable_of_memo (ht : h.memo? t = some v) : h.Publishable v := by
  by_cases hlt : t.index < h.thunks.size
  · exact .inr ⟨t.index, h.memoAt?_of_memo? t hlt ht⟩
  · rw [h.memo?_of_size_le t (Nat.le_of_not_lt hlt)] at ht
    cases ht
    exact .inl rfl

/-- Completing a thunk publishes the value that it gives. -/
theorem evolves_complete (t : Ref .thunk) (hv : h.Publishable v) :
    h.Evolves (h.complete t v).2 ∧ (h.complete t v).2.Publishable (h.complete t v).1 := by
  cases ht : h.memo? t with
  | some first =>
    rw [h.complete_of_memo t ht]
    have m : h.Move (h.setThunk t (.forced first)) := .mark ht
    exact ⟨.single m, m.publishable (publishable_of_memo ht)⟩
  | none =>
    rw [h.complete_of_unforced t ht]
    have m : h.Move (h.setThunk t (.forced v)) := .publish ht hv
    exact ⟨.single m, m.publishable hv⟩

/-- Completing a chain publishes one value after the other. -/
theorem evolves_completeChain (chain : List (Ref .thunk)) (hv : h.Publishable v) :
    h.Evolves (h.completeChain chain v).2 ∧
      (h.completeChain chain v).2.Publishable (h.completeChain chain v).1 := by
  induction chain with
  | nil => exact ⟨.refl, hv⟩
  | cons r rs ih =>
    obtain ⟨hrest, hpub⟩ := ih
    obtain ⟨hlast, hpub'⟩ := evolves_complete r hpub
    exact ⟨hrest.trans hlast, hpub'⟩

/-- Releasing a thunk is a move, or nothing if it is not running. -/
theorem evolves_release (h : Heap) (t : Ref .thunk) : h.Evolves (h.release t) := by
  unfold release
  split
  · next d hd => exact .single (.release hd)
  · exact .refl

/-- Releasing a chain is a sequence of moves. -/
theorem evolves_releaseChain (h : Heap) (chain : List (Ref .thunk)) :
    h.Evolves (h.releaseChain chain) := by
  induction chain generalizing h with
  | nil => exact .refl
  | cons r rs ih => exact (evolves_release h r).trans (ih (h.release r))

end Thunks

end Heap

open Heap (Evolves Moving)

variable {R : Heap → Heap → Prop} [Moving R]

/-! ### Chains -/

/-- Giving a chain back is a sequence of moves. -/
theorem releaseChain_evolves (chain : List (Ref .thunk)) :
    (releaseChain chain).Preserves R :=
  .onHeap fun h => (h.evolves_releaseChain chain).related

/-- Giving a chain back after an interrupt adds moves. -/
theorem releasing_evolves {x : Eval α} (chain : List (Ref .thunk)) (hx : x.Preserves R) :
    (releasing chain x).Preserves R := by
  intro w
  refine leads_releasing ((hx w).imp fun r w' h hreg => ?_)
  cases r with
  | ok a => exact h hreg
  | error i => exact trans_of R (h hreg) (w'.heap.evolves_releaseChain chain).related

/-- Claiming a thunk is a move, or gives a value that may be published. -/
theorem claim_evolves {w : World} (t : Ref .thunk) :
    Leads (claim t) w fun r w' => R w.heap w'.heap ∧ ∀ v, r = .ok (.ready v) →
      w'.heap.Publishable v := by
  simp only [claim, leads_bind, leads_heap]
  split
  · next v hv =>
    refine ⟨refl_of R _, ?_⟩
    rintro _ ⟨⟩
    exact Heap.publishable_of_memo (t := t) (by rw [Heap.memo?, hv])
  · next d hd => exact ⟨Moving.of_move (.claim hd), fun v hv => by cases hv⟩
  · exact ⟨refl_of R _, fun v hv => by cases hv⟩
  · exact ⟨refl_of R _, fun v hv => by cases hv⟩

/-- The same of a claim after which the chain is released if it fails. -/
theorem releasing_claim_evolves {w : World} (waiting : List (Ref .thunk)) (t : Ref .thunk) :
    Leads (releasing waiting (claim t)) w fun r w' => Regular r → R w.heap w'.heap ∧
      ∀ v, r = .ok (.ready v) → w'.heap.Publishable v := by
  refine leads_releasing ((claim_evolves (R := R) t).imp fun r w' h hreg => ?_)
  cases r with
  | ok c => exact h
  | error i =>
    exact ⟨trans_of R h.1 (w'.heap.evolves_releaseChain waiting).related, fun v hv => by cases hv⟩

section Engine

variable [Embedding] {E : Engine} [(Discipline.ofHeaps R).Hosted E] (hE : ∀ o, (E o).Preserves R)

include hE

/-! ### Driving thunks -/

/-- Driving a chain is a sequence of moves. -/
theorem drive_evolves (fuel : Nat) (waiting : List (Ref .thunk)) (t : Ref .thunk) :
    (drive E fuel waiting t).Preserves R := by
  induction fuel generalizing waiting t with
  | zero => exact .throw _
  | succ fuel ih =>
    intro w
    simp only [drive, leads_bind]
    refine (releasing_claim_evolves (R := R) waiting t).imp fun r w₁ hclaim => ?_
    -- three ways: the claim has failed, the thunk is forced already, or its code is to be run
    rcases r with i | v | d
    · exact fun hreg => (hclaim hreg).1
    · obtain ⟨hclaimed, hv⟩ := hclaim trivial
      exact fun _ => trans_of R hclaimed (Heap.evolves_completeChain _ (hv v rfl)).1.related
    · obtain ⟨hclaimed, -⟩ := hclaim trivial
      have hbody : (releasing (waiting ++ [t]) (d.bind E fuel)).Preserves R :=
        releasing_evolves _ (deferredBind_preserves hE fuel d)
      simp only [leads_bind]
      refine (hbody w₁).imp fun r w₂ h => ?_
      rcases r with i | ⟨v, rest⟩ | ⟨program, chunk, locals, rest⟩
      · exact fun hreg => trans_of R hclaimed (h hreg)
      · have hbound := trans_of R hclaimed (h trivial)
        refine leads_resolve_bind (not_regular_exhausted · |>.elim) fun u _ => ?_
        split
        · exact (ih _ _ w₂).imp fun r w₃ h hreg => trans_of R hbound (h hreg)
        · next hlazy =>
          have hpub := Value.isLazy_eq_false hlazy
          exact fun _ => trans_of R hbound (Heap.evolves_completeChain _ (.inl hpub)).1.related
      · have hbound := trans_of R hclaimed (h trivial)
        dsimp only
        split
        · exact fun _ => hbound
        · simp only [releaseChain, leads_bind, leads_onHeap, leads_fail]
          exact fun _ => trans_of R hbound (w₂.heap.evolves_releaseChain _).related

/-- So is handing a result on along a chain. -/
theorem settle_evolves (fuel : Nat) (chain : List (Ref .thunk)) (v : Value) :
    (settle E fuel chain v).Preserves R := by
  intro w
  refine leads_resolve_bind (not_regular_exhausted · |>.elim) fun u _ => ?_
  split
  · exact drive_evolves hE fuel chain _ w
  · next hlazy =>
    have hpub := Value.isLazy_eq_false hlazy
    exact fun _ => (w.heap.evolves_completeChain chain (.inl hpub)).1.related

/-- Driving whatever a suspended instruction waits on. -/
theorem resume_evolves (fuel : Nat) : (resume E fuel).Yields R fun _ => True := by
  induction fuel with
  | zero => exact .throw _
  | succ fuel ih =>
    intro w
    simp only [resume, leads_bind, Step.liftM_eq_ofEval, leads_ofEval, leads_context,
      leads_onContext]
    split
    · exact ⟨fun _ => refl_of R _, fun _ _ => trivial⟩
    · next t _ =>
      simp only [leads_tryCatch, leads_ofEval]
      refine (drive_evolves hE fuel [] t _).imp fun r w₁ h => ?_
      cases r with
      | ok f => exact ⟨fun _ => h trivial, fun _ _ => trivial⟩
      | error i =>
        cases i with
        | suspended =>
          exact (ih w₁).imp fun r w₂ h' => ⟨fun hreg => trans_of R (h (.inr rfl)) (h'.1 hreg), h'.2⟩
        | failed | exhausted | crashed => exact ⟨fun hreg => h hreg, fun _ _ => trivial⟩

/-! ### Rounds -/

omit [Embedding] hE in
/-- Unwinding releases the chains of the frames that it drops. -/
theorem unwind_evolves (frames : List Frame) : (unwind frames).Preserves R := by
  induction frames with
  | nil => exact .pure _
  | cons f below ih =>
    unfold unwind
    split
    · refine .bind .context fun c => .bind (.onContext _) fun _ => ?_
      exact .bind (errorValue_preserves _) fun v => .pure _
    · split
      · exact .pure _
      · exact .bind (releaseChain_evolves _) fun _ => ih

omit [Embedding] hE in
/-- An abort releases the chains of all frames. -/
theorem abandon_evolves (m : Machine) (a : Abort) : (m.abandon a).Preserves R :=
  .bind (releaseChain_evolves _) fun _ => .pure _

omit [Embedding] hE in
/-- Recovering from an interrupt unwinds frames. -/
theorem recover_evolves (m : Machine) (stop : Stop) : (m.recover stop).Preserves R := by
  cases stop with
  | abort a => exact abandon_evolves m a
  | interrupt i =>
    refine .bind (unwind_evolves _) fun (caught, frames) => ?_
    cases caught with
    | true => exact .pure _
    | false => exact .pure _

/-- A step that is halted is resumed or recovered from. -/
theorem halt_evolves (fuel : Nat) (m : Machine) (stop : Stop) :
    (m.halt E fuel stop).Preserves R := by
  unfold Machine.halt
  split
  · refine .bind (resume_evolves hE fuel).outcome fun r => ?_
    match r with
    | .ok none => exact .pure _
    | .ok (some f) => exact .pure _
    | .error stop => exact recover_evolves m stop
  · exact recover_evolves m _

/-- Leaving a frame hands its result on. -/
theorem leave_evolves (fuel : Nat) (m : Machine) (kind : FrameKind) (below : List Frame)
    (v : Value) : (m.leave E fuel kind below v).Preserves R := by
  unfold Machine.leave
  split
  · exact .pure _
  · split
    · exact .pure _
    · exact abandon_evolves _ _
  · refine .bind (Step.Yields.ofEval (settle_evolves hE fuel _ v)).outcome fun r => ?_
    match r with
    | .ok none => exact .pure _
    | .ok (some f) => exact .pure _
    | .error stop => exact halt_evolves hE fuel _ stop

/-- A round of a machine is a sequence of moves. -/
theorem round_evolves (fuel : Nat) (m : Machine) : (m.round E fuel).Preserves R := by
  have hturn (m : Machine) : (m.turn E fuel).Preserves R := by
    unfold Machine.turn
    split
    · exact abandon_evolves m _
    · next f below _ =>
      refine .bind (advance_yields hE fuel f).outcome fun r => ?_
      match r with
      | .ok (.next g) => exact .pure _
      | .ok (.stay g) => exact .pure _
      | .ok (.jump g target) => exact .pure _
      | .ok (.enter caller callee) => exact .pure _
      | .ok (.leave v) => exact leave_evolves hE fuel m _ below v
      | .error stop => exact halt_evolves hE fuel m stop
  unfold Machine.round
  split
  · exact abandon_evolves m _
  · exact .bind (.of_eq fun _ => by simp) fun _ => hturn _

/-- So is a run, round by round. -/
theorem execute_evolves (fuel : Nat) (m : Machine) : (m.execute E fuel).Preserves R := by
  induction fuel generalizing m with
  | zero => exact .throw _
  | succ fuel ih =>
    refine .bind (round_evolves hE fuel m) fun r => ?_
    cases r with
    | running m => exact ih m
    | ended e m => exact .pure _

/-- Running a chunk is a sequence of moves. -/
theorem invoke_evolves (fuel : Nat) (m : Machine) (program : Program) (chunk : Nat)
    (locals : List Value) : (m.invoke E fuel program chunk locals).Preserves R := by
  have hfault (message : String) (m : Machine) : (do
      Eval.onContext (·.fail (.fault "Call" message))
      return (.error .failed, m) : Eval (Except Interrupt Value × Machine)).Preserves R :=
    .bind (.onContext _) fun _ => .pure _
  refine .bind .context fun c => ?_
  split
  · exact .pure _
  · split
    · exact hfault _ m
    · refine .bind (execute_evolves hE fuel _) fun (e, m) => ?_
      cases e with
      | done v => exact .pure _
      | failed => exact .pure _
      | aborted a => exact hfault _ m

/-- So is the run of a chunk on a machine of its own. -/
theorem invokeChunk_evolves (fuel : Nat) (program : Program) (chunk : Nat) (locals : List Value) :
    (invokeChunk E fuel program chunk locals).Preserves R := by
  refine .bind (invoke_evolves hE fuel {} program chunk locals) fun (r, m) => ?_
  cases r with
  | ok v => exact .pure _
  | error i => exact .throw _

/-! ### Operations -/

/-- Evaluating a chain at once is a sequence of moves, and gives what may be published. -/
theorem forceNow_leads {w : World} (fuel : Nat) (waiting : List (Ref .thunk)) (t : Ref .thunk) :
    Leads (forceNow E fuel waiting t) w fun r w' => Regular r → R w.heap w'.heap ∧
      ∀ v, r = .ok v → w'.heap.Publishable v := by
  induction fuel generalizing waiting t w with
  | zero => simp [forceNow]
  | succ fuel ih =>
    simp only [forceNow, leads_bind]
    refine (releasing_claim_evolves (R := R) waiting t).imp fun r w₁ hclaim => ?_
    -- the same three ways; a value is published only with the chain completed
    match r with
    | .error i => exact fun hreg => ⟨(hclaim hreg).1, fun v hv => by cases hv⟩
    | .ok (.ready v) =>
      obtain ⟨hclaimed, hv⟩ := hclaim trivial
      obtain ⟨hdone, hpub⟩ := Heap.evolves_completeChain waiting (hv v rfl)
      refine fun _ => ⟨trans_of R hclaimed hdone.related, ?_⟩
      rintro _ ⟨⟩
      exact hpub
    | .ok (.run d) =>
      obtain ⟨hclaimed, -⟩ := hclaim trivial
      have hbody : (releasing (waiting ++ [t]) (d.run E fuel)).Preserves R :=
        releasing_evolves _ (deferredRun_preserves hE (invokeChunk_evolves hE) fuel d)
      simp only [leads_bind]
      refine (hbody w₁).imp fun r w₂ h => ?_
      cases r with
      | error i => exact fun hreg => ⟨trans_of R hclaimed (h hreg), fun v hv => by cases hv⟩
      | ok v =>
        have hran := trans_of R hclaimed (h trivial)
        dsimp only
        split
        · exact (ih _ _).imp fun r w₃ h hreg => ⟨trans_of R hran (h hreg).1, (h hreg).2⟩
        · next hlazy =>
          obtain ⟨hdone, hpub⟩ :=
            Heap.evolves_completeChain (waiting ++ [t]) (.inl (Value.isLazy_eq_false hlazy))
          refine fun _ => ⟨trans_of R hran hdone.related, ?_⟩
          rintro _ ⟨⟩
          exact hpub

/-- Evaluating a chain at once is a sequence of moves. -/
theorem forceNow_evolves (fuel : Nat) (waiting : List (Ref .thunk)) (t : Ref .thunk) :
    (forceNow E fuel waiting t).Preserves R :=
  fun _ => (forceNow_leads hE fuel waiting t).imp fun _ _ h hreg => (h hreg).1

/-- Forcing a thunk evaluates it at once or suspends. -/
theorem forceThunk_evolves (fuel : Nat) (t : Ref .thunk) :
    (forceThunk E fuel t).Preserves R := by
  refine .bind .heap fun h => ?_
  split
  · exact .pure _
  · refine .bind .context fun c => ?_
    split
    · exact forceNow_evolves hE fuel [] t
    · exact .suspend t

end Engine

/-- Every operation is a sequence of moves. -/
theorem engine_evolves (level : Nat) (o : Operation) : (engine level o).Preserves Evolves := by
  induction level generalizing o with
  | zero => exact .throw _
  | succ level ih =>
    exact perform_preserves ih (forceThunk_evolves ih) (invokeChunk_evolves ih) level o

end LazyMachine
