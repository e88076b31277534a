import LazyMachine.Proofs.Following
import LazyMachine.Proofs.Formation
import LazyMachine.Proofs.Overlay
import LazyMachine.Proofs.ShortCircuit

/-!
# Calls on the machine

A function can be applied to arguments by an operation, which runs code on machines of its own, or
by an instruction of the machine, which runs it on top of the frame that calls. Arguments that are
left over are applied to the result: the one goes on with it at once, the other leaves a pending
call to its next round, and the result may be a function of any kind again.

`call_refines_apply` says that the machine comes to what the operation comes to. Its proof follows
the recursion of `applyFrom`: `applied_of_landing` says it of what binding gave, `applied_of_calls`
of a callee and its arguments.
-/

namespace LazyMachine

open Heap (Evolves)

/-! ### Functions and what they leave of their arguments -/

namespace Heap

variable {h h' : Heap}

/-- All functions are formed, and a function over an overload table has the arity of the table. -/
structure Suited (h : Heap) : Prop where
  formed : h.Formed
  tables : ∀ f ∈ h.functions, ∀ t, f.body = .overloaded t → f.arity = t.arity

namespace Suited

/-- A function over a table has the arity of the table. -/
theorem table (hs : h.Suited) {f : Ref .function} {t : OverloadTable}
    (ht : (h.function f).body = .overloaded t) : (h.function f).arity = t.arity := by
  rw [function, Array.getD_eq_getD_getElem?] at ht ⊢
  cases hi : h.functions[f.index]? with
  | some g =>
    rw [hi] at ht
    exact hs.tables g (Array.mem_of_getElem? hi) t ht
  | none =>
    rw [hi] at ht
    cases ht

/-- The arguments of the body, once there are enough of them. -/
theorem length_full (hs : h.Suited) (f : Ref .function) {args : List Value}
    (hargs : ¬ args.length < (h.function f).remaining) :
    ((h.function f).applied ++ args.take (h.function f).remaining).length =
      (h.function f).arity := by
  rw [List.length_append, List.length_take, Nat.min_eq_left (Nat.le_of_not_lt hargs),
    Function.remaining]
  rcases (hs.formed.function f).applied with happlied | happlied
  · simp [happlied]
  · omega

/-- Heaps with the same functions are suited together. -/
theorem of_functions (hs : h.Suited) (hformed : h'.Formed) (hsame : h'.functions = h.functions) :
    h'.Suited :=
  ⟨hformed, by rw [hsame]; exact hs.tables⟩

/-- A suited heap stays so in every move. -/
theorem move (hs : h.Suited) (m : h.Move h') : h'.Suited := by
  have hformed := hs.formed.move m
  cases m with
  | grow e =>
    refine ⟨hformed, fun f hf t ht => ?_⟩
    -- a function is old, has a body of another kind, or is a partial application of an old one
    rcases e.made f hf with hold | ⟨-, hbody⟩ | ⟨g, args, -, rfl⟩
    · exact hs.tables f hold t ht
    · exact absurd ht (hbody t)
    · exact hs.table ht
  | defer d => exact hs.of_functions hformed rfl
  | claim => exact hs.of_functions hformed rfl
  | release => exact hs.of_functions hformed rfl
  | publish => exact hs.of_functions hformed rfl
  | mark => exact hs.of_functions hformed rfl

theorem evolves (hs : h.Suited) (e : h.Evolves h') : h'.Suited :=
  e.keeps (fun m hs => hs.move m) hs

end Suited

/-- However the host has come by a heap, it is suited. -/
theorem Served.suited {admits : Value → Prop} (hs : ({} : Heap).Served admits h) : h.Suited := by
  refine hs.keeps (fun c hs => ?_) ⟨formed_empty, by simp⟩
  have hformed := c.formed hs.formed
  cases c with
  | move m => exact hs.move m
  | ready _ => exact hs.of_functions hformed rfl
  | overload ht =>
    refine ⟨hformed, fun f hf t ht => ?_⟩
    rcases Array.mem_push.mp hf with hold | rfl
    · exact hs.tables f hold t ht
    · cases ht
      rfl
  | complete t _ => exact hs.of_functions hformed rfl

end Heap

/-- The arguments that binding leaves for the result. -/
def Application.rest : Application → List Value
  | .value _ rest | .enter _ _ _ rest => rest

/-- What binding gives on a context: at most `n` arguments are left, and code is entered only if the
context is live. -/
structure Application.Bounded (n : Nat) (c : Context) (a : Application) : Prop where
  rest : a.rest.length ≤ n
  live : ∀ program chunk locals rest, a = .enter program chunk locals rest → c.interrupt? = none

/-- A value enters no code. -/
theorem Application.Bounded.value {n : Nat} {c : Context} (v : Value) {rest : List Value}
    (hrest : rest.length ≤ n) : (Application.value v rest).Bounded n c :=
  ⟨hrest, by rintro _ _ _ _ ⟨⟩⟩

/-- Surplus arguments come behind those that are left. -/
theorem Application.rest_withRest (a : Application) (surplus : List Value) :
    (a.withRest surplus).rest = a.rest ++ surplus := by
  cases a <;> rfl

/-- If nothing is left of the arguments of a clause, what is left is the surplus. -/
theorem Application.Bounded.withRest {n : Nat} {c : Context} {a : Application}
    {surplus : List Value} (ha : a.Bounded 0 c) (hsurplus : surplus.length ≤ n) :
    (a.withRest surplus).Bounded n c where
  rest := by
    have hrest := ha.rest
    rw [rest_withRest, List.length_append]
    omega
  live program chunk locals rest h := by
    cases a with
    | value => cases h
    | enter => exact ha.live _ _ _ _ rfl

/-- Forces a value and binds arguments to it. -/
def bindForced (E : Engine) (fuel : Nat) (v : Value) (args : List Value) : Eval Application := do
  let callee ← E (.force v)
  bindValue E fuel callee args

section Binding

variable {E : Engine} (hE : ∀ o, (E o).Preserves Evolves)

/-- As many values come out as are forced. -/
theorem length_forceAll (E : Engine) (vs : List Value) (w : World) :
    Leads (forceAll E vs) w fun r _ => ∀ forced, r = .ok forced → forced.length = vs.length := by
  induction vs generalizing w with
  | nil =>
    rintro _ ⟨⟩
    rfl
  | cons v vs ih =>
    rw [forceAll, leads_bind]
    refine .intro (fun x w₁ _ => ?_) fun _ _ _ => nofun
    dsimp only
    rw [leads_bind]
    refine (ih w₁).imp fun r w₂ h => ?_
    cases r with
    | ok forced =>
      rintro _ ⟨⟩
      exact congrArg (· + 1) (h forced rfl)
    | error i => exact nofun

/-- The clause that is selected is one of the table, and all arguments are handed to it. -/
theorem select_selects (E : Engine) (t : OverloadTable) (args : List Value) (w : World) :
    Leads (t.select E args) w fun r _ => ∀ target forced, r = .ok (target, forced) →
      (∃ c ∈ t.clauses, c.target = target) ∧ forced.length = args.length := by
  rw [OverloadTable.select, leads_bind]
  refine (length_forceAll E args w).imp fun r w₁ hlength => ?_
  cases r with
  | error i => exact nofun
  | ok forced =>
    dsimp only
    split
    · next c hc =>
      rintro _ _ ⟨⟩
      exact ⟨⟨c, List.mem_of_find?_eq_some hc, rfl⟩, hlength forced rfl⟩
    · exact nofun

include hE

/-- Binding uses up as many arguments as the function lacks. -/
theorem bind_bounded (fuel : Nat) (f : Ref .function) (args : List Value) {w : World}
    (hw : w.heap.Suited) :
    Leads (LazyMachine.bind E fuel f args) w fun r w' => ∀ a, r = .ok a →
      a.Bounded (args.length - (w.heap.function f).remaining) w'.context := by
  induction fuel generalizing f args w with
  | zero => rintro _ ⟨⟩
  | succ fuel ih =>
    simp only [LazyMachine.bind, Eval.ensureLive, leads_bind, leads_context]
    cases hlive : w.context.interrupt? with
    | some i => rintro _ ⟨⟩
    | none =>
      simp only [leads_pure, leads_heap]
      split
      · split
        · rintro _ ⟨⟩
          exact .value _ (Nat.zero_le _)
        · simp only [Eval.makeFunction, leads_bind, leads_onHeap, leads_pure]
          rintro _ ⟨⟩
          exact .value _ (Nat.zero_le _)
      · next hargs =>
        have hdrop : (args.drop (w.heap.function f).remaining).length ≤
            args.length - (w.heap.function f).remaining := by
          rw [List.length_drop]
        split
        · rw [leads_bind]
          refine .intro (fun v w₁ _ => ?_) fun _ _ _ => by rintro _ ⟨⟩
          rintro _ ⟨⟩
          exact .value _ hdrop
        · -- code is entered on the context that has been looked at
          rintro _ ⟨⟩
          exact ⟨hdrop, fun _ _ _ _ _ => hlive⟩
        · next table htable =>
          rw [leads_bind]
          have hselect := select_preserves hE table
            ((w.heap.function f).applied ++ args.take (w.heap.function f).remaining) w
          refine .intro (fun selected w₁ hselected => ?_) fun _ _ _ => by rintro _ ⟨⟩
          obtain ⟨target, forced⟩ := selected
          have e := hselect.of_ok hselected trivial
          obtain ⟨⟨c, hc, rfl⟩, hlength⟩ :=
            (select_selects E table _ w).of_ok hselected target forced rfl
          dsimp only
          rw [leads_bind]
          refine (ih c.target forced (hw.evolves e)).imp fun r w₂ h => ?_
          cases r with
          | error i => rintro _ ⟨⟩
          | ok a =>
            rintro _ ⟨⟩
            refine Application.Bounded.withRest ?_ hdrop
            -- the target lacks as many arguments as the table has
            obtain ⟨-, hmade, hremaining⟩ := (hw.formed.function f).table table htable c hc
            have hkept := Heap.function_of_kept e.retains.functions hmade
            have hnone : forced.length - (w₁.heap.function c.target).remaining = 0 := by
              rw [hlength, hw.length_full f hargs, hw.table htable, hkept, hremaining,
                Nat.sub_self]
            exact hnone ▸ h a rfl

/-- So does applying any value to arguments; what is no function uses up all of them. -/
theorem bindValue_bounded (fuel : Nat) (callee : Value) (args : List Value) {w : World}
    (hw : w.heap.Suited) :
    Leads (bindValue E fuel callee args) w fun r w' => ∀ a, r = .ok a →
      a.Bounded args.length w'.context := by
  unfold bindValue
  split
  · refine (bind_bounded hE fuel _ args hw).imp fun r w' h a ha => ?_
    exact ⟨(h a ha).rest.trans (Nat.sub_le _ _), (h a ha).live⟩
  · rw [leads_bind]
    refine .intro (fun v w₁ _ => ?_) fun _ _ _ => nofun
    rintro _ ⟨⟩
    exact .value _ (Nat.zero_le _)
  · exact nofun

/-- Binding a forced value leaves no more arguments than it is given. -/
theorem bindForced_bounded (fuel : Nat) (v : Value) (args : List Value) {w : World}
    (hw : w.heap.Suited) :
    Leads (bindForced E fuel v args) w fun r w' => ∀ a, r = .ok a →
      a.Bounded args.length w'.context ∧ w'.heap.Suited := by
  have hbindValue (callee : Value) : (bindValue E fuel callee args).Preserves Evolves :=
    Eval.keepsTo_ofHeaps.mp (bindValue_keepsTo (fun o => Eval.keepsTo_ofHeaps.mpr (hE o)) fuel _ _)
  have hevolves : (bindForced E fuel v args).Preserves Evolves := (hE (.force v)).bind hbindValue
  have hbounded : Leads (bindForced E fuel v args) w fun r w' => ∀ a, r = .ok a →
      a.Bounded args.length w'.context := by
    rw [bindForced, leads_bind]
    refine .intro (fun callee w₁ hcallee => ?_) fun _ _ _ => nofun
    exact bindValue_bounded hE fuel callee args (hw.evolves ((hE _ w).of_ok hcallee trivial))
  refine (hbounded.and (hevolves w)).imp fun r w' h a ha => ⟨h.1 a ha, ?_⟩
  subst ha
  exact hw.evolves (h.2 trivial)

end Binding

/-! ### Calls -/

/-- The frame `f` is about to apply `v` to arguments, and is `caller` afterwards but for the result:
it executes an instruction, or a pending call. -/
inductive Frame.Calls (caller : Frame) (v : Value) (args : List Value) (f : Frame) : Prop
  | instr (hpending : f.pendingCall = none) (hinstr : f.instr? = some (.call args.length))
      (hstack : f.stack = args.reverse ++ v :: caller.stack)
      (hcaller : caller = { f with pc := f.pc + 1, stack := caller.stack })
  | pending (hpending : f.pendingCall = some args.length)
      (hstack : f.stack = args.reverse ++ v :: caller.stack)
      (hcaller : caller = { f with pendingCall := none, stack := caller.stack })

/-- The frame `f` is `caller` in the midst of a call: operands may still be on its stack. -/
def Frame.InCall (caller f : Frame) : Prop :=
  ∃ pc operands pendingCall,
    f = { caller with pc, stack := operands ++ caller.stack, pendingCall }

/-- The frames in place of the caller once binding has given something. -/
def Frame.land (caller : Frame) : Application → Step (List Frame)
  | .value v rest => return [caller.pushResult caller.stack v rest]
  | .enter program chunk locals rest =>
    match Frame.enter? program chunk locals (.call rest) with
    | some callee => return [callee, caller]
    | none => throw (.abort (.missingChunk chunk))

/-- The frames in place of a caller that applies a value. -/
def Frame.landing (E : Engine) (fuel : Nat) (caller : Frame) (v : Value) (args : List Value) :
    Step (List Frame) :=
  Step.ofEval (bindForced E fuel v args) >>= caller.land

section Calls

variable {caller f : Frame} {v : Value} {args : List Value} {below : List Frame} {m : Machine}
  {E : Engine} {fuel : Nat} {w w' : World}

/-- A frame that calls is in its call. -/
theorem Frame.Calls.inCall (h : caller.Calls v args f) : caller.InCall f := by
  obtain ⟨base, hbase⟩ : ∃ base, caller.stack = base := ⟨_, rfl⟩
  cases h with
  | instr hpending hinstr hstack hcaller =>
    rw [hbase] at hstack hcaller
    subst hcaller
    refine ⟨f.pc, args.reverse ++ [v], none, ?_⟩
    rw [List.append_assoc, List.singleton_append, ← hstack, ← hpending]
  | pending hpending hstack hcaller =>
    rw [hbase] at hstack hcaller
    subst hcaller
    refine ⟨f.pc, args.reverse ++ [v], some args.length, ?_⟩
    rw [List.append_assoc, List.singleton_append, ← hstack, ← hpending]

theorem Frame.InCall.refl (caller : Frame) : caller.InCall caller :=
  ⟨caller.pc, [], caller.pendingCall, rfl⟩

/-- A call takes the callee and the arguments off the stack. -/
theorem apply_eq {base : List Value} (hstack : f.stack = args.reverse ++ v :: base)
    (hargs : args.length + 1 < Word.bound) :
    f.apply E fuel args.length =
      Step.ofEval (bindForced E fuel v args) >>= f.receive base := by
  have hincrement : increment Word.bound args.length = pure (args.length + 1) := by
    rw [increment, if_pos hargs]
  have hoperands : f.operands (args.length + 1) = pure (v :: args, base) := by
    rw [Frame.operands, hstack, if_pos (by simp)]
    have htake : args.reverse.take (args.length + 1) = args.reverse :=
      List.take_of_length_le (by simp)
    have hdrop : args.reverse.drop (args.length + 1) = [] := List.drop_of_length_le (by simp)
    simp [List.take_append, List.drop_append, htake, hdrop]
  rw [Frame.apply, hincrement, pure_bind, hoperands, pure_bind, bindForced, Step.ofEval_bind,
    bind_assoc]
  rfl

/-- A pending call is made in place of the next instruction. -/
theorem Frame.advance_pending {count : Nat} (hpending : f.pendingCall = some count) :
    f.advance E fuel = Frame.apply E fuel { f with pendingCall := none } count >>= fun
      | (caller, none) => return .stay caller
      | (caller, some callee) => return .enter caller callee := by
  unfold Frame.advance
  split
  · next hcount =>
    cases hpending.symm.trans hcount
    rfl
  · next hcount => cases hpending.symm.trans hcount

/-- What is done with the outcome of an evaluation may be exchanged where that makes no difference
after its value. -/
theorem outcome_bind_congr {α β γ δ : Type} {x : Eval α} {g : α → Step β} {g' : α → Step γ}
    {k : Except Stop β → Eval δ} {k' : Except Stop γ → Eval δ}
    (hok : ∀ a w, ((g a).outcome >>= k) w = ((g' a).outcome >>= k') w)
    (herror : ∀ stop, k (.error stop) = k' (.error stop)) (w : World) :
    ((Step.ofEval x >>= g).outcome >>= k) w = ((Step.ofEval x >>= g').outcome >>= k') w := by
  have houtcome {ε : Type} (g : α → Step ε) (k : Except Stop ε → Eval δ) {a : α} {w' : World}
      (hx : x w = .ok a w') :
      ((Step.ofEval x >>= g).outcome >>= k) w = ((g a).outcome >>= k) w' := by
    simp only [Bind.bind, EStateM.bind, Step.outcome, Step.ofEval, hx]
  cases hx : x w with
  | ok a w' => rw [houtcome g k hx, houtcome g' k' hx, hok]
  | error i w' =>
    -- a stop is handed on to what follows, while a lack of fuel ends both sides
    simp only [Bind.bind, EStateM.bind, Step.outcome, Step.ofEval, hx]
    cases i with
    | failed => exact congrFun (herror _) w'
    | suspended => exact congrFun (herror _) w'
    | exhausted => rfl
    | crashed => rfl

/-- A turn that applies `v` binds the arguments and lands where that leads. -/
theorem turn_of_calls (hf : caller.Calls v args f) (hargs : args.length + 1 < Word.bound)
    (w : World) : (m.withFrames (f :: below)).turn E fuel w =
      ((caller.landing E fuel v args).outcome >>= fun
        | .ok frames => return .running (m.withFrames (frames ++ below))
        | .error stop => (m.withFrames (f :: below)).halt E fuel stop) w := by
  obtain ⟨base, hbase⟩ : ∃ base, caller.stack = base := ⟨_, rfl⟩
  have hframes : (m.withFrames (f :: below)).frames = f :: below := rfl
  rw [Machine.turn, hframes]
  cases hf with
  | instr hpending hinstr hstack hcaller =>
    rw [hbase] at hstack hcaller
    subst hcaller
    -- the instruction counter goes on after the value has been pushed, which is the same
    have hadvance : f.advance E fuel = f.step E fuel (.call args.length) := by
      rw [Frame.advance, hpending]
      dsimp only
      rw [hinstr]
    simp only [hadvance, Frame.step, apply_eq hstack hargs, bind_assoc]
    refine outcome_bind_congr (fun a w => ?_) ?_ w
    · cases a with
      | value v rest =>
        have hpush : { f.pushResult base v rest with pc := (f.pushResult base v rest).pc + 1 } =
            ({ f with pc := f.pc + 1, stack := base } : Frame).pushResult base v rest := by
          unfold Frame.pushResult
          split <;> rfl
        exact Machine.running_congr m (congrArg (· :: below) hpush) w
      | enter program chunk locals rest =>
        simp only [Frame.receive, Frame.land]
        cases Frame.enter? program chunk locals (.call rest) <;> rfl
    · exact fun _ => rfl
  | pending hpending hstack hcaller =>
    rw [hbase] at hstack hcaller
    subst hcaller
    have happly := @apply_eq { f with pendingCall := none } v args E fuel base hstack hargs
    simp only [Frame.advance_pending hpending, happly, bind_assoc]
    refine outcome_bind_congr (fun a w => ?_) ?_ w
    · cases a with
      | value v rest =>
        have hpush : ({ f with pendingCall := none } : Frame).pushResult base v rest =
            ({ f with pendingCall := none, stack := base } : Frame).pushResult base v rest := by
          unfold Frame.pushResult
          split <;> rfl
        exact Machine.running_congr m (congrArg (· :: below) hpush) w
      | enter program chunk locals rest =>
        simp only [Frame.receive, Frame.land]
        cases Frame.enter? program chunk locals (.call rest) <;> rfl
    · exact fun _ => rfl

/-- An application lands, or its chunk is missing. -/
theorem land_cases (caller : Frame) (a : Application) :
    (∃ frames, caller.land a = pure frames) ∨
      ∃ program chunk locals rest, a = .enter program chunk locals rest ∧
        program.chunk? chunk = none ∧ caller.land a = throw (.abort (.missingChunk chunk)) := by
  cases a with
  | value v rest => exact .inl ⟨_, rfl⟩
  | enter program chunk locals rest =>
    cases hchunk : program.chunk? chunk with
    | some c => exact .inl ⟨_, by rw [Frame.land, Frame.enter?, hchunk]⟩
    | none =>
      refine .inr ⟨program, chunk, locals, rest, rfl, hchunk, ?_⟩
      rw [Frame.land, Frame.enter?, hchunk]

section Turns

variable {level : Nat} (hf : caller.Calls v args f) (hargs : args.length + 1 < Word.bound)
  (hlimit : m.stepLimit = none)

/-- Where a call lands does not depend on fuel, if there is enough, nor on the count. -/
theorem landing_more {level' fuel' : Nat} (hlevel : level ≤ level') (hfuel : fuel ≤ fuel')
    (caller : Frame) (v : Value) (args : List Value) :
    Approximates (caller.landing (engine level) fuel v args)
      (caller.landing (engine level') fuel' v args) ∧
      CountFree (caller.landing (engine level') fuel' v args) := by
  constructor
  · refine .bind (.ofEval (.bind (engine_approximates hlevel _) fun _ => ?_)) fun _ => .refl _
    exact bindValue_approximates (engine_approximates hlevel) hfuel _ _
  · refine .bind (.ofEval (.bind (engine_countFree level' _) fun _ => ?_)) fun a => ?_
    · exact bindValue_countFree (engine_countFree level') fuel' _ _
    · cases a with
      | value v rest => exact .pure _
      | enter program chunk locals rest =>
        simp only [Frame.land]
        split
        · exact .pure _
        · exact .throw _

include hf hargs hlimit

/-- The round of a call goes on where the call lands. -/
theorem turns_lands {frames : List Frame}
    (hland : caller.landing (engine level) fuel v args w = .ok frames w') (k : Nat) :
    (m.withFrames (f :: below)).Turns (w.later k)
      (return .running (m.counted.withFrames (frames ++ below))) (w'.later (k + 1)) := by
  refine ⟨max level fuel, fun level' fuel' hlevel hfuel => ?_⟩
  obtain ⟨happrox, hfree⟩ := landing_more (by omega : level ≤ level') (by omega : fuel ≤ fuel')
    caller v args
  have hlimit' : (m.withFrames (f :: below)).stepLimit = none := hlimit
  rw [Machine.round_unlimited hlimit', World.later_later]
  exact (turn_of_calls (m := m.counted) hf hargs _).trans
    (bind_ok (Step.outcome_ok (hfree.ok (happrox.eq_ok hland) (k + 1))))

/-- If it is not suspended but fails or is given up, so is the round. -/
theorem turns_stops {stop : Stop} (hreg : stop.Regular) (hsuspended : stop ≠ .interrupt .suspended)
    (hland : caller.landing (engine level) fuel v args w = .error stop w') (k : Nat) :
    (m.withFrames (f :: below)).Turns (w.later k)
      ((m.counted.withFrames (f :: below)).recover stop) (w'.later (k + 1)) := by
  refine ⟨max level fuel, fun level' fuel' hlevel hfuel => ?_⟩
  obtain ⟨happrox, hfree⟩ := landing_more (by omega : level ≤ level') (by omega : fuel ≤ fuel')
    caller v args
  have hlimit' : (m.withFrames (f :: below)).stepLimit = none := hlimit
  -- the outcome is regular, so more fuel does not change it
  have hne (w'' : World) : caller.landing (engine level) fuel v args w ≠
      .error Exhaustible.exhausted w'' := by
    rw [hland]
    rintro ⟨⟩
    rcases hreg with h | h <;> cases h
  have hmore := hfree.error ((happrox.eq_of_ne hne).trans hland) (k + 1)
  rw [Machine.round_unlimited hlimit', World.later_later]
  refine (turn_of_calls (m := m.counted) hf hargs _).trans ?_
  rw [bind_ok (Step.outcome_stop hmore hreg)]
  dsimp only
  rw [Machine.halt_eq_recover hsuspended]

end Turns

end Calls

/-! ### What a call comes to -/

namespace Machine

/-- The failure of a call reaches the frame that calls, on the world `w'`. -/
def Unwinds (m : Machine) (w : World) (caller : Frame) (below : List Frame) (w' : World) : Prop :=
  ∃ (m' : Machine) (f : Frame) (k : Nat), caller.InCall f ∧
    m.ComesTo w ((m'.withFrames (f :: below)).recover (.interrupt .failed)) (w'.later k)

/-- The run is given up in the course of a call; applying the function instead makes a failure of
that on the world `w'`. -/
def GivesUp (m : Machine) (w : World) (caller : Frame) (below : List Frame) (w' : World) : Prop :=
  ∃ (m' : Machine) (f : Frame) (k : Nat) (a : Abort) (w₁ : World), caller.InCall f ∧
    m.ComesTo w ((m'.withFrames (f :: below)).abandon a) (w₁.later k) ∧
    w' = { w₁ with context := w₁.context.fail (.fault "Call" a.message) }

/-- The machine comes to the same as the application of a function: its value is on the stack of the
frame that calls, or its failure reaches that frame. -/
def Applies (m : Machine) (w : World) (caller : Frame) (below : List Frame) :
    Except Interrupt Value → World → Prop
  | .ok v, w' => ∃ (n : Nat) (m' : Machine) (k : Nat), m.Reaches n w
      (m'.withFrames ({ caller with stack := v :: caller.stack } :: below)) (w'.later k)
  | .error .failed, w' => m.Unwinds w caller below w' ∨ m.GivesUp w caller below w'
  | .error _, _ => True

variable {m m₁ : Machine} {caller : Frame} {below : List Frame} {w w' w₁ : World}
  {r : Except Interrupt Value} {level fuel : Nat}

/-- What is applied from a later state is applied from the start. -/
theorem Reaches.applies {n : Nat} (h : m.Reaches n w m₁ w₁)
    (hr : m₁.Applies w₁ caller below r w') : m.Applies w caller below r w' := by
  match r with
  | .ok v =>
    obtain ⟨n', m', k, hreaches⟩ := hr
    exact ⟨n' + n, m', k, h.trans hreaches⟩
  | .error .failed =>
    rcases hr with ⟨m', f, k, hf, hcomes⟩ | ⟨m', f, k, a, w₂, hf, hcomes, heq⟩
    · exact .inl ⟨m', f, k, hf, h.comesTo hcomes⟩
    · exact .inr ⟨m', f, k, a, w₂, hf, h.comesTo hcomes, heq⟩
  | .error .suspended => trivial
  | .error .exhausted => trivial
  | .error .crashed => trivial

/-- What a machine does after a turn it does before it. -/
theorem Turns.applies (h : m.Turns w (return .running m₁) w₁)
    (hr : m₁.Applies w₁ caller below r w') : m.Applies w caller below r w' :=
  (h.reaches (.refl m₁ w₁)).applies hr

end Machine

/-- Code that does not exist is not run on a machine of its own either. -/
theorem invokeChunk_missing {program : Program} {chunk : Nat} {w : World}
    (hchunk : program.chunk? chunk = none) (hlive : w.context.interrupt? = none) (E : Engine)
    (fuel : Nat) (locals : List Value) :
    invokeChunk E fuel program chunk locals w =
      Eval.fail (.fault "Call" (Abort.missingChunk chunk).message) w := by
  have henter : Frame.enter? program chunk locals .entry = none := by
    rw [Frame.enter?, hchunk]
  simp only [invokeChunk, Machine.invoke, henter, Eval.context_apply, Bind.bind, EStateM.bind,
    hlive]
  rfl

section Applying

variable {m : Machine} {caller f : Frame} {below : List Frame} {w : World} {level fuel : Nat}

/-- From where binding lands, the machine comes to what the rest of the application comes to. -/
def Landed (level fuel : Nat) (caller : Frame) (below : List Frame) : Prop :=
  ∀ (a : Application) (frames : List Frame) (m : Machine) (n : Nat) (w : World) (k : Nat),
    m.stepLimit = none → caller.land a = pure frames → a.Bounded n w.context →
    n + 1 < Word.bound → w.heap.Suited →
    Leads (applyFrom (engine level) fuel a) w
      ((m.withFrames (frames ++ below)).Applies (w.later k) caller below)

/-- A value that is applied to arguments. -/
theorem applied_of_calls (hland : Landed level fuel caller below) {v : Value} {args : List Value}
    (hf : caller.Calls v args f) (hargs : args.length + 1 < Word.bound)
    (hlimit : m.stepLimit = none) (hw : w.heap.Suited) (k : Nat) :
    Leads (bindForced (engine level) fuel v args >>= applyFrom (engine level) fuel) w
      ((m.withFrames (f :: below)).Applies (w.later k) caller below) := by
  cases hbind : bindForced (engine level) fuel v args w with
  | error i w₁ =>
    refine .of_eq_error (bind_error hbind) ?_
    cases i with
    | failed =>
      -- the operands are still on the stack when the failure reaches the frame
      have hstop : caller.landing (engine level) fuel v args w =
          .error (.interrupt .failed) w₁ := bind_error (Step.ofEval_error hbind)
      refine .inl ⟨m.counted, f, k + 1, hf.inCall, ?_⟩
      have hreg : (Stop.interrupt .failed).Regular := .inl rfl
      exact (turns_stops hf hargs hlimit hreg (by simp) hstop k).comesTo
    | suspended => trivial
    | exhausted => trivial
    | crashed => trivial
  | ok a w₁ =>
    -- one round takes the machine to where binding landed, and from there the rest follows
    refine Leads.of_eq ?_ (bind_ok hbind)
    obtain ⟨ha, hw₁⟩ := (bindForced_bounded (engine_evolves level) fuel v args hw).of_ok hbind a rfl
    have hstep : caller.landing (engine level) fuel v args w = caller.land a w₁ :=
      bind_ok (Step.ofEval_ok hbind)
    rcases land_cases caller a with
      ⟨frames, hframes⟩ | ⟨program, chunk, locals, rest, rfl, hchunk, hstop⟩
    · have hlanded : caller.landing (engine level) fuel v args w = .ok frames w₁ := by
        rw [hstep, hframes]
        rfl
      refine (hland a frames m.counted args.length w₁ (k + 1) hlimit hframes ha hargs hw₁).imp ?_
      exact fun r w' hr => (turns_lands hf hargs hlimit hlanded k).applies hr
    · -- there is no such chunk: the machine gives up, and so would a machine of its own
      have hstop : caller.landing (engine level) fuel v args w =
          .error (.abort (.missingChunk chunk)) w₁ := by
        rw [hstep, hstop]
        rfl
      cases fuel with
      | zero => trivial
      | succ fuel =>
        let fault : RuntimeError := .fault "Call" (Abort.missingChunk chunk).message
        have happly : applyFrom (engine level) (fuel + 1) (.enter program chunk locals rest) w₁ =
            .error .failed { w₁ with context := w₁.context.fail fault } :=
          bind_error (bind_error (invokeChunk_missing hchunk (ha.live _ _ _ _ rfl) _ fuel locals))
        refine .of_eq_error happly (.inr ⟨m.counted, f, k + 1, _, w₁, hf.inCall, ?_, rfl⟩)
        have hreg : (Stop.abort (.missingChunk chunk)).Regular := trivial
        exact (turns_stops hf hargs hlimit hreg (by simp) hstop k).comesTo

/-- A result, with the arguments that are left for it. -/
theorem applied_of_result (hland : Landed level fuel caller below)
    (hpending : caller.pendingCall = none) (hlimit : m.stepLimit = none) (v : Value)
    {rest : List Value} (hrest : rest.length + 1 < Word.bound) (hw : w.heap.Suited) (k : Nat) :
    Leads (do
        if rest.isEmpty then return v
        let callee ← engine level (.force v)
        applyFrom (engine level) fuel (← bindValue (engine level) fuel callee rest)) w
      ((m.withFrames (caller.pushResult caller.stack v rest :: below)).Applies (w.later k) caller
        below) := by
  by_cases hempty : rest.isEmpty = true
  · rw [if_pos hempty]
    refine ⟨0, m, k, ?_⟩
    rw [Frame.pushResult, if_pos hempty]
    exact .refl _ _
  · rw [if_neg hempty]
    -- the arguments that are left wait on the stack, for the pending call
    have hcalls : caller.Calls v rest (caller.pushResult caller.stack v rest) := by
      rw [Frame.pushResult, if_neg hempty]
      refine .pending rfl rfl ?_
      rw [← hpending]
    simpa only [bindForced, bind_assoc] using applied_of_calls hland hcalls hrest hlimit hw k

/-- Code that is entered on a machine of its own, or on top of the caller. -/
theorem applied_of_entry (hland : Landed level fuel caller below)
    (hpending : caller.pendingCall = none) (hlimit : m.stepLimit = none) {program : Program}
    {chunk : Nat} {locals : List Value} (rest : List Value) {entry : Frame}
    (henter : Frame.enter? program chunk locals .entry = some entry)
    (hlive : w.context.interrupt? = none) (hrest : rest.length + 1 < Word.bound)
    (hw : w.heap.Suited) (k : Nat) :
    Leads (applyFrom (engine level) (fuel + 1) (.enter program chunk locals rest)) w
      ((m.withFrames (nest (.call rest) (caller :: below) [entry])).Applies (w.later k) caller
        below) := by
  have hkind := Frame.kind_of_enter? henter
  have hinvoke := @invokeChunk_eq program fuel w chunk locals entry henter hlive (engine level)
  cases hrun : Machine.execute (engine level) fuel (Machine.withFrames {} [entry]) w with
  | error i w₁ =>
    -- a run of a machine settles, so it is cut short only for lack of fuel or by a crash
    have happly : applyFrom (engine level) (fuel + 1) (.enter program chunk locals rest) w =
        .error i w₁ := bind_error (bind_error (hinvoke.trans (bind_error hrun)))
    refine .of_eq_error happly ?_
    have hirregular := (execute_entry_settles (engine_settles level) fuel rfl hkind).of_error hrun
    cases i with
    | failed => exact absurd regular_failed hirregular
    | suspended => trivial
    | exhausted => trivial
    | crashed => trivial
  | ok result w₁ =>
    -- the run on the machine of its own is repeated on top of the caller
    obtain ⟨exit, inner⟩ := result
    replace hinvoke := hinvoke.trans (bind_ok hrun)
    obtain ⟨hs, o⟩ := entry_owned {} rfl hkind w.heap
    obtain ⟨steps, hcomes⟩ : ∃ steps,
        (m.withFrames (nest (.call rest) (caller :: below) [entry])).ComesTo (w.later k)
          (Machine.carry { m with steps } rest caller below (.ended exit inner)) (w₁.later k) :=
      Machine.execute_nest (by rfl) hlimit hs o hrun k
    cases exit with
    | done v =>
      -- the caller has the result, and the arguments that are left are next
      have e : w.heap.Evolves w₁.heap :=
        (invokeChunk_evolves (engine_evolves level) fuel program chunk locals w).of_ok hinvoke
          trivial
      obtain ⟨n, hreaches⟩ := hcomes.reaches
      have hresult := applied_of_result (m := { m with steps }) hland hpending hlimit v hrest
        (hw.evolves e) k
      let entered : Application := .enter program chunk locals rest
      have hcomplete : entered.complete (engine level) fuel w = .ok (v, rest) w₁ := bind_ok hinvoke
      exact (hresult.imp fun r w' hr => hreaches.applies hr).of_eq (bind_ok hcomplete)
    | failed =>
      have happly : applyFrom (engine level) (fuel + 1) (.enter program chunk locals rest) w =
          .error .failed w₁ := bind_error (bind_error hinvoke)
      exact .of_eq_error happly (.inl ⟨{ m with steps }, caller, k, .refl caller, hcomes⟩)
    | aborted a =>
      let fault : RuntimeError := .fault "Call" a.message
      have happly : applyFrom (engine level) (fuel + 1) (.enter program chunk locals rest) w =
          .error .failed { w₁ with context := w₁.context.fail fault } :=
        bind_error (bind_error hinvoke)
      refine .of_eq_error happly (.inr ?_)
      exact ⟨{ m with steps }, caller, k, a, w₁, .refl caller, hcomes, rfl⟩

/-- Wherever binding lands, what comes of it is what the operation makes of it. -/
theorem applied_of_landing (hpending : caller.pendingCall = none) (level fuel : Nat) :
    Landed level fuel caller below := by
  -- the fuel of the operation goes down with every function that is applied
  induction fuel with
  | zero => exact fun _ _ _ _ _ _ _ _ _ _ _ => trivial
  | succ fuel ih =>
    intro a frames m n w k hlimit hland ha hn hw
    have hrest : a.rest.length + 1 < Word.bound := Nat.lt_of_le_of_lt (Nat.succ_le_succ ha.rest) hn
    cases a with
    | value v rest =>
      cases congrFun hland w
      exact (applied_of_result ih hpending hlimit v hrest hw k).of_eq rfl
    | enter program chunk locals rest =>
      cases hc : program.chunk? chunk with
      | none =>
        rw [Frame.land, Frame.enter?, hc] at hland
        cases congrFun hland w
      | some c =>
        -- the frame of the code on a machine of its own, and on top of the caller
        let entry : Frame := { program, chunk, locals := locals.toArray, kind := .entry }
        have henter : Frame.enter? program chunk locals .entry = some entry := by
          rw [Frame.enter?, hc]
        have hframes : frames ++ below = nest (.call rest) (caller :: below) [entry] := by
          rw [Frame.land, Frame.enter?, hc] at hland
          cases congrFun hland w
          rfl
        rw [hframes]
        exact applied_of_entry ih hpending hlimit rest henter (ha.live _ _ _ _ rfl) hrest hw k

/-- A function has its value already, and binding looks at the context once more. -/
theorem bindForced_function (level fuel : Nat) (g : Ref .function) (args : List Value) :
    bindForced (engine (level + 2)) (fuel + 1) (.function g) args =
      bind (engine (level + 2)) (fuel + 1) g args := by
  funext w
  have hforce : engine (level + 2) (.force (.function g)) = do
      Eval.ensureLive
      return .function g := rfl
  rw [bindForced, hforce, bind_assoc]
  cases hlive : w.context.interrupt? with
  | none => exact bind_ok (Eval.ensureLive_ok hlive)
  | some i =>
    exact (bind_error (ensureLive_interrupted hlive)).trans
      (bind_error (ensureLive_interrupted hlive)).symm

/-- Applying a function by a call instruction comes to what applying it by an operation comes to, on
the same world but for the count of instructions. If that is a value, the frame goes on after the
instruction with the value in place of the function and the arguments, and is the same otherwise. If
it is a failure, the failure reaches this frame, unless it stands for an abort of code that the
operation has run on a machine of its own: on the one machine, that is an abort as well. -/
theorem call_refines_apply {m : Machine} {f : Frame} {below : List Frame} {g : Ref .function}
    {args base : List Value} {w : World} (hlimit : m.stepLimit = none)
    (hframes : m.frames = f :: below) (hpending : f.pendingCall = none)
    (hinstr : f.instr? = some (.call args.length))
    (hstack : f.stack = args.reverse ++ .function g :: base)
    (hargs : args.length + 1 < Word.bound) (hheap : w.heap.Suited) (level fuel : Nat) :
    Leads (applyFunction (engine level) fuel g args) w
      (m.Applies w { f with pc := f.pc + 1, stack := base } below) := by
  let caller : Frame := { f with pc := f.pc + 1, stack := base }
  have hcalls : caller.Calls (.function g) args f := .instr hpending hinstr hstack rfl
  have hland : Landed (level + 2) (fuel + 1) caller below :=
    applied_of_landing (show caller.pendingCall = none from hpending) _ _
  have hm : m.withFrames (f :: below) = m := by
    rw [← hframes]
    rfl
  have happroximates := applyFunction_approximates (engine_approximates (Nat.le_add_right level 2))
    (Nat.le_add_right fuel 1) g args
  -- forcing the function takes a level, binding it a unit of fuel
  rcases happroximates w with heq | ⟨w', hexhausted⟩
  · have happlied := applied_of_calls (m := m) hland hcalls hargs hlimit hheap 0
    rw [bindForced_function, hm, World.later_zero] at happlied
    exact happlied.of_eq heq
  · exact .of_eq_error hexhausted trivial

end Applying

/-- A function of one argument that gives another, which adds its argument to the one before. -/
def adding : Program :=
  ⟨#[⟨"main", 0, #[.closure 1 0, .push (.int 2), .push (.int 40), .call 2]⟩,
    ⟨"make_adder", 1, #[.load 0, .closure 2 1, .ret]⟩,
    ⟨"adder", 1, #[.load 0, .load 1, .binary .add, .ret]⟩], 0⟩

/-- The frame that calls the function with an argument more than it takes. -/
def adding.caller : Frame where
  program := adding
  chunk := 0
  pc := 3
  locals := #[]
  stack := [.int 40, .int 2, .function ⟨0⟩]
  kind := .entry

/-- The world in which it does. -/
def adding.world : World where
  heap := { functions := #[⟨"make_adder", 1, [], .code adding 1 []⟩] }
  executed := 3

/-- The machine comes to the sum, by way of a pending call for the surplus argument. -/
theorem call_refines_apply_surplus :
    ∃ w', applyFunction (engine 8) 8 ⟨0⟩ [.int 2, .int 40] adding.world = .ok (.int 42) w' ∧
      ∃ (n : Nat) (m' : Machine) (k : Nat),
        ({ frames := [adding.caller], steps := 3 } : Machine).Reaches n adding.world
          (m'.withFrames [{ adding.caller with pc := 4, stack := [.int 42] }]) (w'.later k) := by
  have hmade : ∀ f ∈ adding.world.heap.functions, f = ⟨"make_adder", 1, [], .code adding 1 []⟩ := by
    simp [adding.world]
  have hformed : adding.world.heap.Formed := by
    refine ⟨by simp [adding.world], by simp [adding.world], fun f hf => ?_⟩
    rw [hmade f hf]
    exact ⟨.inl rfl, nofun⟩
  have hsuited : adding.world.heap.Suited := by
    refine ⟨hformed, fun f hf => ?_⟩
    rw [hmade f hf]
    exact nofun
  have hrefines := @call_refines_apply { frames := [adding.caller], steps := 3 } adding.caller []
    ⟨0⟩ [.int 2, .int 40] [] adding.world rfl rfl rfl rfl rfl (by decide) hsuited 8 8
  exact ⟨_, rfl, hrefines.of_ok rfl⟩

end LazyMachine
