import LazyMachine.Proofs.Interrupts
import LazyMachine.Proofs.Links

/-!
# Evaluation at once

A thunk that is evaluated at once is claimed and its computation run; as long as that hands on to
another thunk, the other one is evaluated in turn, and at the end the whole chain takes one value or
goes back to waiting. `Hands` is one such step, `Reaches` a sequence of them, and `Claims` tells
which thunks are claimed on the way and for which computation.

`forceNow_concludes` says what becomes of them. In two cases the evaluation does not come to a value
(`forceNow_leaves_open`). A thunk that was made with a lazy value ends the chain like any other that
has a value, so the result may be lazy. And the mode of the context is switched for host code only
where a thunk holds it directly: a function of the host without arguments runs in the mode at hand
and may be suspended.
-/

namespace LazyMachine

open Heap (Settled Owned)

namespace Heap

variable {base h : Heap} {chain : List (Ref .thunk)}

/-- A value that is published in claimed thunks becomes the value of each of them. -/
theorem Owned.completeChain_eq (o : base.Owned h chain) (v : Value) :
    (h.completeChain chain v).1 = v ∧
      ∀ s ∈ chain, (h.completeChain chain v).2.memo? s = some v := by
  have hclaimed (s : Ref .thunk) (hs : s ∈ chain) :
      ∃ d, h.thunks[s.index]? = some (.running d) := by
    obtain ⟨d, hd, -⟩ := o.claimed s hs
    exact ⟨d, hd⟩
  -- of the claims, the induction needs that they are under way and differ from each other
  have hnodup := o.nodup
  clear o
  induction chain with
  | nil => exact ⟨rfl, by simp⟩
  | cons r rs ih =>
    rw [List.nodup_cons] at hnodup
    obtain ⟨hvalue, hmemo⟩ := ih (fun s hs => hclaimed s (.tail _ hs)) hnodup.2
    obtain ⟨d, hd⟩ := hclaimed r (.head _)
    have hfold : h.completeChain (r :: rs) v =
        (h.completeChain rs v).2.complete r (h.completeChain rs v).1 := rfl
    -- the thunk at hand is not among those after it, so it is still claimed when its turn comes
    have hr : (h.completeChain rs v).2.thunks[r.index]? = some (.running d) :=
      ((h.getElem?_completeChain rs v r.index).1 hnodup.1).trans hd
    have hrmemo : (h.completeChain rs v).2.memo? r = none := by
      rw [memo?, thunk_of_getElem? _ r hr]
    rw [hfold, hvalue, complete_of_unforced _ r hrmemo]
    refine ⟨rfl, fun s hs => ?_⟩
    rcases List.mem_cons.mp hs with rfl | hs
    · refine memo?_of_forced ?_
      rw [getElem?_setThunk, if_pos ⟨rfl, (Array.getElem?_eq_some_iff.mp hr).1⟩]
    · obtain ⟨d', hd'⟩ := hclaimed s (.tail _ hs)
      obtain ⟨u, hu⟩ := (h.getElem?_completeChain rs v s.index).2 hs d' hd'
      have hlt := (Array.getElem?_eq_some_iff.mp hu).1
      exact memo?_of_memoAt? _ s (memoAt?_setThunk hrmemo _ (memoAt?_of_memo? _ s hlt (hmemo s hs)))

end Heap

/-! ### The chain of an evaluation -/

variable {E : Engine} {fuel left : Nat} {w w' w₁ : World} {t s u : Ref .thunk} {d : Deferred}
  {waiting : List (Ref .thunk)} {v : Value}

/-- The world in which a thunk has been claimed for a computation. -/
def World.claiming (w : World) (t : Ref .thunk) (d : Deferred) : World :=
  { w with heap := w.heap.setThunk t (.running d) }

/-- The thunk waits for a computation, which yields another thunk. -/
def Hands (E : Engine) (fuel : Nat) (w : World) (t : Ref .thunk) (w' : World) (u : Ref .thunk) :
    Prop :=
  ∃ d, w.heap.thunk t = .waiting d ∧ d.run E fuel (w.claiming t d) = .ok (.lazy u) w'

/-- The evaluation of one thunk at once comes to another one. -/
inductive Reaches (E : Engine) : Nat → World → Ref .thunk → Nat → World → Ref .thunk → Prop
  | here {fuel : Nat} {w : World} {t : Ref .thunk} : Reaches E fuel w t fuel w t
  | next {fuel left : Nat} {w w₁ w' : World} {t u s : Ref .thunk} :
      Hands E fuel w t w₁ u → Reaches E fuel w₁ u left w' s → Reaches E (fuel + 1) w t left w' s

/-- The evaluation of the thunk `t` at once claims the thunk `s` for the computation `d`. -/
def Claims (E : Engine) (fuel : Nat) (w : World) (t s : Ref .thunk) (d : Deferred) : Prop :=
  ∃ left w', Reaches E fuel w t (left + 1) w' s ∧ w'.heap.thunk s = .waiting d

/-- A thunk that hands on is claimed itself; the others are claimed further on. -/
theorem Claims.cases {d' : Deferred} (hc : Claims E (fuel + 1) w t s d')
    (ht : w.heap.thunk t = .waiting d) :
    (s = t ∧ d' = d) ∨
      ∃ w₁ u, d.run E fuel (w.claiming t d) = .ok (.lazy u) w₁ ∧ Claims E fuel w₁ u s d' := by
  obtain ⟨left, w', hreach, hs⟩ := hc
  cases hreach with
  | here =>
    rw [ht] at hs
    exact .inl ⟨rfl, by cases hs; rfl⟩
  | next hhands hrest =>
    obtain ⟨d₁, hd₁, hrun⟩ := hhands
    rw [ht] at hd₁
    cases hd₁
    exact .inr ⟨_, _, hrun, _, _, hrest, hs⟩

/-- Nothing is claimed where the first thunk does not wait. -/
theorem Claims.first (hc : Claims E fuel w t s d) : ∃ d', w.heap.thunk t = .waiting d' := by
  obtain ⟨left, w', hreach, hs⟩ := hc
  cases hreach with
  | here => exact ⟨d, hs⟩
  | next hhands _ =>
    obtain ⟨d₁, hd₁, -⟩ := hhands
    exact ⟨d₁, hd₁⟩

/-! ### One thunk of the chain -/

/-- A thunk with a value gives it to the chain. -/
theorem forceNow_of_memo (ht : w.heap.memo? t = some v) :
    forceNow E (fuel + 1) waiting t w = completeChain waiting v w :=
  bind_ok (releasing_ok (claim_of_memo ht))

/-- A thunk that cannot be claimed fails, and the chain waits again. -/
theorem forceNow_of_not_claimable (ht : ¬ (w.heap.thunk t).Claimable) :
    forceNow E (fuel + 1) waiting t w = .error .failed { w with
      heap := w.heap.releaseChain waiting
      context := w.context.fail .cyclicLazy } :=
  bind_error (releasing_error (claim_of_not_claimable ht))

/-- A thunk that yields another one hands on to it, with a longer chain. -/
theorem forceNow_hands (ht : w.heap.thunk t = .waiting d)
    (hrun : d.run E fuel (w.claiming t d) = .ok (.lazy u) w₁) :
    forceNow E (fuel + 1) waiting t w = forceNow E fuel (waiting ++ [t]) u w₁ :=
  (bind_ok (releasing_ok (claim_waiting ht))).trans (bind_ok (releasing_ok hrun))

/-- A thunk that yields a value ends the chain. -/
theorem forceNow_yields (ht : w.heap.thunk t = .waiting d)
    (hrun : d.run E fuel (w.claiming t d) = .ok v w₁) (hv : v.isLazy = false) :
    forceNow E (fuel + 1) waiting t w = completeChain (waiting ++ [t]) v w₁ := by
  refine (bind_ok (releasing_ok (claim_waiting ht))).trans ((bind_ok (releasing_ok hrun)).trans ?_)
  cases v with
  | lazy u => cases hv
  | _ => rfl

/-- A thunk that is interrupted ends the chain, which waits again. -/
theorem forceNow_stops {i : Interrupt} (ht : w.heap.thunk t = .waiting d)
    (hrun : d.run E fuel (w.claiming t d) = .error i w₁) :
    forceNow E (fuel + 1) waiting t w =
      .error i { w₁ with heap := w₁.heap.releaseChain (waiting ++ [t]) } :=
  (bind_ok (releasing_ok (claim_waiting ht))).trans (bind_error (releasing_error hrun))

/-- The value is published in all thunks of a chain that is owned. -/
theorem completeChain_of_owned {base : Heap} (o : base.Owned w.heap waiting) (v : Value) :
    completeChain waiting v w = .ok v { w with heap := (w.heap.completeChain waiting v).2 } := by
  have hcomplete : completeChain waiting v w = .ok (w.heap.completeChain waiting v).1
      { w with heap := (w.heap.completeChain waiting v).2 } := rfl
  rw [hcomplete, (o.completeChain_eq v).1]

/-! ### Whole chains -/

/-- Claiming a thunk adds it to the end of the chain. -/
theorem Heap.Owned.claiming {base : Heap} (o : base.Owned w.heap waiting)
    (ht : w.heap.thunk t = .waiting d) :
    base.Owned (w.claiming t d).heap (waiting ++ [t]) :=
  (o.claim (w.heap.getElem?_of_thunk t ht rfl)).perm (List.perm_append_singleton t waiting).symm

/-- The claimed thunk is under way. -/
theorem World.thunk_claiming (ht : w.heap.thunk t = .waiting d) :
    (w.claiming t d).heap.thunk t = .running d := by
  have hlt := (Array.getElem?_eq_some_iff.mp (w.heap.getElem?_of_thunk t ht rfl)).1
  refine Heap.thunk_of_getElem? _ t ?_
  rw [World.claiming, Heap.getElem?_setThunk, if_pos ⟨rfl, hlt⟩]

/-- Those that are under way already stay so. -/
theorem World.thunk_claiming_of_running {d' : Deferred} (ht : w.heap.thunk t = .waiting d)
    (hs : w.heap.thunk s = .running d') : (w.claiming t d).heap.thunk s = .running d' := by
  have hne : t.index ≠ s.index := by
    intro heq
    have hts : t = s := by cases t; cases s; cases heq; rfl
    rw [hts, hs] at ht
    cases ht
  refine Heap.thunk_of_getElem? _ s ?_
  rw [World.claiming, Heap.getElem?_setThunk, if_neg fun h => hne h.1,
    w.heap.getElem?_of_thunk s hs rfl]

/-- A claim under way is left alone by evaluations that settle their own claims. -/
theorem Heap.Settled.running {h h' : Heap} (hs : h.Settled h') (ht : h.thunk t = .running d) :
    h'.thunk t = .running d := by
  have := hs.thunks t.index
  rw [h.getElem?_of_thunk t ht rfl] at this
  exact h'.thunk_of_getElem? t this

/-- What the evaluation of a thunk at once leaves in the chain: one value everywhere, which is lazy
only if a thunk that had it ended the chain; or everything waits as it did. -/
structure Concluded (E : Engine) (fuel : Nat) (w : World) (waiting : List (Ref .thunk))
    (t : Ref .thunk) (r : Except Interrupt Value) (w' : World) : Prop where
  published : ∀ v, r = .ok v → w'.heap.memo? t = some v ∧
    (∀ s ∈ waiting, w'.heap.memo? s = some v) ∧
    (∀ s d, Claims E fuel w t s d → w'.heap.memo? s = some v) ∧
    (v.isLazy = true → ∃ left w₁ s, Reaches E fuel w t (left + 1) w₁ s ∧ w₁.heap.memo? s = some v)
  released : ∀ i, r = .error i →
    (∀ s ∈ waiting, ∀ d, w.heap.thunk s = .running d → w'.heap.thunk s = .waiting d) ∧
    ∀ s d, Claims E fuel w t s d → w'.heap.thunk s = .waiting d
  /-- The evaluation is suspended only by the computation of the last thunk. -/
  suspended : r = .error .suspended → ∃ left w₁ s d w₂, Reaches E fuel w t (left + 1) w₁ s ∧
    w₁.heap.thunk s = .waiting d ∧ d.run E left (w₁.claiming s d) = .error .suspended w₂

namespace Concluded

/-- A thunk that has a value ends the chain. -/
theorem valued {base : Heap} (o : base.Owned w.heap waiting) (hmemo : w.heap.memo? t = some v)
    (fuel : Nat) :
    Concluded E (fuel + 1) w waiting t (.ok v)
      { w with heap := (w.heap.completeChain waiting v).2 } := by
  refine ⟨?_, by rintro _ ⟨⟩, by rintro ⟨⟩⟩
  rintro _ ⟨⟩
  refine ⟨?_, (o.completeChain_eq v).2, fun s d hc => ?_, fun _ => ⟨fuel, w, t, .here, hmemo⟩⟩
  · -- the thunks of the chain are claimed, so one that has a value is none of them
    have hne : t ∉ waiting := by
      intro hmem
      obtain ⟨d, hd, -⟩ := o.claimed t hmem
      rw [Heap.memo?, w.heap.thunk_of_getElem? t hd] at hmemo
      cases hmemo
    have hkept := (w.heap.getElem?_completeChain waiting v t.index).1 hne
    rw [← hmemo, Heap.memo?, Heap.memo?, Heap.thunk, Heap.thunk, Array.getD_eq_getD_getElem?,
      Array.getD_eq_getD_getElem?, hkept]
  · obtain ⟨d', hd'⟩ := hc.first
    rw [Heap.memo?, hd'] at hmemo
    cases hmemo

/-- A thunk that cannot be claimed ends the chain with a failure. -/
theorem unclaimed {c : Context} (ht : ¬ (w.heap.thunk t).Claimable) :
    Concluded E fuel w waiting t (.error .failed)
      { w with heap := w.heap.releaseChain waiting, context := c } := by
  refine ⟨by rintro _ ⟨⟩, ?_, by rintro ⟨⟩⟩
  rintro _ ⟨⟩
  refine ⟨fun s hs d hd => Heap.thunk_releaseChain hd hs, fun s d' hc => ?_⟩
  obtain ⟨d₁, hd₁⟩ := hc.first
  rw [hd₁] at ht
  exact absurd trivial ht

/-- A computation that yields a value ends the chain with it. -/
theorem yields {base : Heap} (ht : w.heap.thunk t = .waiting d)
    (hrun : d.run E fuel (w.claiming t d) = .ok v w₁) (hv : v.isLazy = false)
    (o : base.Owned w₁.heap (waiting ++ [t])) :
    Concluded E (fuel + 1) w waiting t (.ok v)
      { w₁ with heap := (w₁.heap.completeChain (waiting ++ [t]) v).2 } := by
  have hchain := (o.completeChain_eq v).2
  refine ⟨?_, by rintro _ ⟨⟩, by rintro ⟨⟩⟩
  rintro _ ⟨⟩
  refine ⟨hchain t (by simp), fun s hs => hchain s (by simp [hs]), fun s d' hc => ?_,
    fun hlazy => by rw [hv] at hlazy; cases hlazy⟩
  rcases hc.cases ht with ⟨rfl, rfl⟩ | ⟨w₂, u, hrun', -⟩
  · exact hchain s (by simp)
  · rw [hrun] at hrun'
    cases hrun'
    cases hv

/-- A computation that is interrupted ends the chain with its interrupt. -/
theorem stops {i : Interrupt} (ht : w.heap.thunk t = .waiting d)
    (hrun : d.run E fuel (w.claiming t d) = .error i w₁)
    (hs : (w.claiming t d).heap.Settled w₁.heap) :
    Concluded E (fuel + 1) w waiting t (.error i)
      { w₁ with heap := w₁.heap.releaseChain (waiting ++ [t]) } := by
  refine ⟨by rintro _ ⟨⟩, ?_, ?_⟩
  rotate_left
  · rintro ⟨⟩
    exact ⟨fuel, w, t, d, w₁, .here, ht, hrun⟩
  rintro _ ⟨⟩
  refine ⟨fun s hmem d' hd' => ?_, fun s d' hc => ?_⟩
  · exact Heap.thunk_releaseChain (hs.running (w.thunk_claiming_of_running ht hd')) (by simp [hmem])
  · rcases hc.cases ht with ⟨rfl, rfl⟩ | ⟨w₂, u, hrun', -⟩
    · exact Heap.thunk_releaseChain (hs.running (w.thunk_claiming ht)) (by simp)
    · rw [hrun] at hrun'
      cases hrun'

/-- A computation that yields another thunk leaves the end to that one. -/
theorem hands {r : Except Interrupt Value} (ht : w.heap.thunk t = .waiting d)
    (hrun : d.run E fuel (w.claiming t d) = .ok (.lazy u) w₁)
    (hs : (w.claiming t d).heap.Settled w₁.heap)
    (hc : Concluded E fuel w₁ (waiting ++ [t]) u r w') :
    Concluded E (fuel + 1) w waiting t r w' := by
  -- the thunks claimed are the one at hand and those claimed by the rest of the evaluation
  have hclaims {P : Ref .thunk → Deferred → Prop} (hfirst : P t d)
      (hrest : ∀ s d, Claims E fuel w₁ u s d → P s d) (s : Ref .thunk) (d' : Deferred)
      (hs : Claims E (fuel + 1) w t s d') : P s d' := by
    rcases hs.cases ht with ⟨rfl, rfl⟩ | ⟨w₂, u', hrun', hs⟩
    · exact hfirst
    · rw [hrun] at hrun'
      cases hrun'
      exact hrest s d' hs
  refine ⟨fun v hr => ?_, fun i hr => ?_, fun hr => ?_⟩
  · obtain ⟨-, hchain, hmemo, hlazy⟩ := hc.published v hr
    refine ⟨hchain t (by simp), fun s hs => hchain s (by simp [hs]),
      hclaims (P := fun s _ => w'.heap.memo? s = some v) (hchain t (by simp)) hmemo, fun hv => ?_⟩
    obtain ⟨left, w₂, s, hreach, hs⟩ := hlazy hv
    exact ⟨left, w₂, s, .next ⟨d, ht, hrun⟩ hreach, hs⟩
  · obtain ⟨hchain, hwaiting⟩ := hc.released i hr
    refine ⟨fun s hmem d' hd' => ?_,
      hclaims (P := fun s d => w'.heap.thunk s = .waiting d) ?_ hwaiting⟩
    · exact hchain s (by simp [hmem]) d' (hs.running (w.thunk_claiming_of_running ht hd'))
    · exact hchain t (by simp) d (hs.running (w.thunk_claiming ht))
  · obtain ⟨left, w₂, s, d', w₃, hreach, hrest⟩ := hc.suspended hr
    exact ⟨left, w₂, s, d', w₃, .next ⟨d, ht, hrun⟩ hreach, hrest⟩

end Concluded

/-- Evaluating a thunk at once concludes its chain. -/
theorem forceNow_concluded (hE : ∀ o, (E o).Preserves Settled) {base : Heap} (fuel : Nat)
    (t : Ref .thunk) (o : base.Owned w.heap waiting) :
    Leads (forceNow E fuel waiting t) w fun r w' => Regular r →
      Concluded E fuel w waiting t r w' := by
  induction fuel generalizing waiting t w with
  | zero => simp [forceNow]
  | succ fuel ih =>
    obtain ⟨v, hmemo, -⟩ | ⟨d, ht, -⟩ | ⟨hnot, -⟩ := claim_cases w t
    · -- the chain ends at a thunk that has a value, whether that is lazy or not
      refine .of_eq_ok ((forceNow_of_memo hmemo).trans (completeChain_of_owned o v)) fun _ => ?_
      exact .valued o hmemo fuel
    · have hsettles := deferredRun_preserves hE (invokeChunk_settles hE) fuel d (w.claiming t d)
      cases hrun : d.run E fuel (w.claiming t d) with
      | error i w₁ =>
        refine .of_eq_error (forceNow_stops ht hrun) fun hreg => ?_
        exact .stops ht hrun (hsettles.of_error hrun hreg)
      | ok v w₁ =>
        have hs := hsettles.of_ok hrun trivial
        have o₁ := (o.claiming ht).mono hs
        cases hv : v.isLazy with
        | false =>
          have hforce := (forceNow_yields ht hrun hv).trans (completeChain_of_owned o₁ v)
          exact .of_eq_ok hforce fun _ => .yields ht hrun hv o₁
        | true =>
          -- the thunk joins the chain, and the one it hands on to is next
          obtain ⟨u, rfl⟩ : ∃ u, v = .lazy u := by
            cases v with
            | lazy u => exact ⟨u, rfl⟩
            | _ => cases hv
          refine Leads.of_eq ?_ (forceNow_hands ht hrun)
          exact (ih u o₁).imp fun r w' hc hreg => .hands ht hrun hs (hc hreg)
    · exact .of_eq_error (forceNow_of_not_claimable hnot) fun _ => .unclaimed hnot

/-! ### Suspended computations -/

section Faithful

variable (hE : ∀ o, (E o).Faithful HostCode.Honest fun _ => True)

include hE

/-- The invocation of a chunk is never suspended on a live context: its machine drives whatever its
instructions wait on. -/
theorem invokeChunk_ne_suspended (hh : w.heap.Honest) (hlive : w.context.Live) (fuel : Nat)
    (program : Program) (chunk : Nat) (locals : List Value) :
    Leads (invokeChunk E fuel program chunk locals) w fun r _ => r ≠ .error .suspended := by
  simp only [invokeChunk, Machine.invoke, leads_bind, leads_context, hlive.interrupt?]
  split
  · exact fun h => nomatch h
  · rw [leads_bind]
    refine (execute_faithful hE fuel _ hh hlive).imp fun r w' h => ?_
    match r with
    | .ok (.done v, m') => exact fun h => nomatch h
    | .ok (.failed, m') => exact fun h => nomatch h
    | .ok (.aborted a, m') => exact fun h => nomatch h
    | .error i =>
      rintro ⟨⟩
      exact h regular_suspended

/-- A computation is suspended in cooperative mode only, and only if it is a function that is not
code. Host code that a thunk holds directly runs in eager mode, and code on a machine of its own. -/
theorem deferredRun_suspended (hh : w.heap.Honest) (hlive : w.context.Live) (hd : d.Honest)
    (hrun : d.run E fuel w = .error .suspended w') :
    w.context.mode = .cooperative ∧ ∃ f, d = .call f ∧
      ∀ program chunk captures, (w.heap.function f).body ≠ .code program chunk captures := by
  have hmode := ((deferredRun_faithful hE fuel hd w hh hlive).of_error hrun regular_suspended).2.1.1
  refine ⟨hmode, ?_⟩
  cases d with
  | native code =>
    -- only what runs in cooperative mode is suspended, and this runs in eager mode
    have hcode := hostCode_keepsTo (fun o => Eval.keepsTo_recording.mpr (hE o)) hd
    have hne : Leads (withMode .eager (code.run E)) w fun r _ => r ≠ .error .suspended := by
      simp only [withMode, leads_bind, leads_context, leads_onContext, leads_tryCatch]
      refine (hcode (w.inMode .eager) ⟨hh, hlive.withMode _⟩).imp fun r w' h => ?_
      cases r with
      | ok v => simp
      | error i =>
        rintro ⟨⟩
        have hcooperative : ForceMode.eager = .cooperative := (h (.inr rfl)).2.1
        cases hcooperative
    exact absurd rfl (hne.of_error hrun)
  | call f =>
    refine ⟨f, rfl, fun program chunk captures hbody => ?_⟩
    have hne : Leads (applyFunction E fuel f []) w fun r _ => r ≠ .error .suspended := by
      cases fuel with
      | zero => simp [applyFunction, bind]
      | succ fuel =>
        simp only [applyFunction, bind, Eval.ensureLive, leads_bind, leads_context, leads_heap,
          hlive.interrupt?, leads_pure]
        split
        · rintro ⟨⟩
        · rw [hbody]
          simp only [leads_pure, List.drop_nil, applyFrom_enter]
          exact invokeChunk_ne_suspended hE hh hlive fuel program chunk _
    exact absurd rfl (hne.of_error hrun)

/-- The evaluation of a chain goes on with honest code and in the context it started with. -/
theorem Reaches.faithful (hr : Reaches E fuel w t left w' s) (hh : w.heap.Honest)
    (hlive : w.context.Live) : w'.heap.Honest ∧ w'.context = w.context := by
  induction hr with
  | here => exact ⟨hh, rfl⟩
  | @next fuel left w w₁ w' t u s hhands _ ih =>
    obtain ⟨d, hd, hrun⟩ := hhands
    have hhonest := hh.thunk t
    rw [hd] at hhonest
    have hclaimed : (w.claiming t d).heap.Honest := hh.setThunk t hhonest
    obtain ⟨hh₁, hsame, -⟩ :=
      (deferredRun_faithful hE fuel hhonest _ hclaimed hlive).of_ok hrun trivial
    have hsame : w₁.context = w.context := hsame
    obtain ⟨hh', hcontext⟩ := ih hh₁ (hsame ▸ hlive)
    exact ⟨hh', hcontext.trans hsame⟩

end Faithful

/-! ### The outcome -/

/-- What the evaluation of a thunk at once comes to, on every live context and with honest host
code. It yields a value, which every thunk of the chain has from then on, and which is lazy only if
a thunk that had it already ended the chain. Or it fails with a record, and every thunk that was
claimed waits for its computation again. Or it is suspended: in cooperative mode, by a function that
is not code, and with the claimed thunks waiting as well. -/
theorem forceNow_concludes {w : World} (hhonest : w.heap.Honest)
    (hreachable : w.context.Reachable) (hlive : w.context.interrupt? = none) (level fuel : Nat)
    (t : Ref .thunk) :
    Leads (forceNow (engine level) fuel [] t) w fun
      | .ok v, w' => w'.context = w.context ∧ w'.heap.memo? t = some v ∧
          (∀ s d, Claims (engine level) fuel w t s d → w'.heap.memo? s = some v) ∧
          (v.isLazy = true → ∃ left w₁ s, Reaches (engine level) fuel w t (left + 1) w₁ s ∧
            w₁.heap.memo? s = some v)
      | .error .failed, w' => w'.context.error.isSome ∧ w.heap.Settled w'.heap ∧
          ∀ s d, Claims (engine level) fuel w t s d → w'.heap.thunk s = .waiting d
      | .error .suspended, w' => w.context.mode = .cooperative ∧ w.heap.Settled w'.heap ∧
          (∀ s d, Claims (engine level) fuel w t s d → w'.heap.thunk s = .waiting d) ∧
          ∃ left w₁ s f, Reaches (engine level) fuel w t (left + 1) w₁ s ∧
            w₁.heap.thunk s = .waiting (.call f) ∧
            ∀ program chunk captures, (w₁.heap.function f).body ≠ .code program chunk captures
      | .error _, _ => True := by
  have hlive := hreachable.live hlive
  have hE := engine_faithful Embedding.standard_faithful level
  have o := Owned.start w.heap
  have hsettles := forceNow_owned (engine_settles level) fuel [] t o
  have hconcluded := forceNow_concluded (engine_settles level) fuel t o
  refine (((forceNow_faithful hE fuel [] t w hhonest hlive).and hsettles).and hconcluded).imp ?_
  rintro r w' ⟨⟨hfaithful, hsettled⟩, hconcluded⟩
  match r with
  | .ok v =>
    obtain ⟨hmemo, -, hchain, hlazy⟩ := (hconcluded trivial).published v rfl
    exact ⟨(hfaithful trivial).2.1, hmemo, hchain, hlazy⟩
  | .error .failed =>
    obtain ⟨e, he⟩ := (hfaithful regular_failed).2.1
    refine ⟨?_, (hsettled regular_failed).settled,
      ((hconcluded regular_failed).released _ rfl).2⟩
    rw [he, Context.fail, hlive.error]
    rfl
  | .error .suspended =>
    -- the way to the last thunk kept the context live and the code honest
    have hc := hconcluded regular_suspended
    obtain ⟨left, w₁, s, d, w₂, hreach, hs, hrun⟩ := hc.suspended rfl
    obtain ⟨hh₁, hsame⟩ := hreach.faithful hE hhonest hlive
    have hd := hh₁.thunk s
    rw [hs] at hd
    have hclaimed : (w₁.claiming s d).heap.Honest := hh₁.setThunk s hd
    have hlive₁ : (w₁.claiming s d).context.Live := by
      show w₁.context.Live
      rwa [hsame]
    obtain ⟨hmode, f, rfl, hbody⟩ := deferredRun_suspended hE hclaimed hlive₁ hd hrun
    have hmode : w₁.context.mode = .cooperative := hmode
    rw [hsame] at hmode
    exact ⟨hmode, (hsettled regular_suspended).settled, (hc.released _ rfl).2, left, w₁, s, f,
      hreach, hs, hbody⟩
  | .error .exhausted => trivial
  | .error .crashed => trivial

/-- Host code that hands on to a thunk over code, which hands on to a thunk that has a value. -/
def World.relay : World where
  heap :=
    { thunks := #[.waiting (.native (.done (.lazy ⟨1⟩))), .waiting (.call ⟨0⟩), .forced (.int 7)]
      functions := #[⟨"pick", 0, [], .code ⟨#[⟨"pick", 0, #[.load 0, .ret]⟩], 0⟩ 0 [.lazy ⟨2⟩]⟩] }
  context := { mode := .cooperative }

/-- In cooperative mode too the chain is evaluated to its end, and its thunks share the value. -/
theorem forceNow_concludes_relay :
    World.relay.heap.Honest ∧ World.relay.context.Reachable ∧
      ∃ w', forceNow (engine 5) 5 [] ⟨0⟩ World.relay = .ok (.int 7) w' ∧
        w'.heap.memo? ⟨0⟩ = some (.int 7) ∧
        ∀ s d, Claims (engine 5) 5 World.relay ⟨0⟩ s d → w'.heap.memo? s = some (.int 7) := by
  have hhonest : World.relay.heap.Honest := by
    refine Heap.honest_of ?_ ?_
    · intro i t ht
      match i with
      | 0 => cases ht; trivial
      | 1 => cases ht; trivial
      | 2 => cases ht; trivial
      | i + 3 => cases ht
    · intro i f hf
      match i with
      | 0 => cases hf; trivial
      | i + 1 => cases hf
  have hreachable : World.relay.context.Reachable := .fresh _ _
  obtain ⟨-, hmemo, hchain, -⟩ :=
    (forceNow_concludes hhonest hreachable rfl 5 5 ⟨0⟩).of_ok (a := .int 7) rfl
  exact ⟨hhonest, hreachable, _, rfl, hmemo, hchain⟩

/-- A thunk of the host, a thunk over a host function without arguments that forces it, and one that
was made with the first as its value. -/
def World.leftOpen : World where
  heap :=
    { thunks := #[.waiting (.native (.done (.int 41))), .waiting (.call ⟨0⟩), .forced (.lazy ⟨0⟩)]
      functions := #[⟨"force", 0, [], .native fun _ => .perform (.force (.lazy ⟨0⟩)) .done⟩] }
  context := { mode := .cooperative }

/-- The second thunk is suspended when it is evaluated at once, and the value of the third is lazy,
although all host code is honest and the context live. -/
theorem forceNow_leaves_open :
    World.leftOpen.heap.Honest ∧ World.leftOpen.context.Reachable ∧
      World.leftOpen.context.interrupt? = none ∧
      (∃ w', forceNow (engine 3) 3 [] ⟨1⟩ World.leftOpen = .error .suspended w') ∧
      ∃ w', forceNow (engine 3) 3 [] ⟨2⟩ World.leftOpen = .ok (.lazy ⟨0⟩) w' := by
  refine ⟨Heap.honest_of ?_ ?_, .fresh _ _, rfl, ⟨_, rfl⟩, _, rfl⟩
  · intro i t ht
    match i with
    | 0 => cases ht; trivial
    | 1 => cases ht; trivial
    | 2 => cases ht; trivial
    | i + 3 => cases ht
  · intro i f hf
    match i with
    | 0 => cases hf; exact fun _ _ => trivial
    | i + 1 => cases hf

end LazyMachine
