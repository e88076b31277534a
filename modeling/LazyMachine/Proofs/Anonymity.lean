import LazyMachine.Engine
import LazyMachine.Proofs.Mirroring

/-!
# Evaluation does not see places

Host code that is alike, frames that are alike and machines that are alike come to the same when
they run on worlds that are alike, as long as what running code performs does: `Engine.Impartial`.
Each function of the machine and of the engine is taken in turn; `engine_mirrors` then ties the knot
over the levels.

## Main definitions

* `Application.Alike`, `Frame.Alike`, `Flow.Alike`, `Machine.Alike`, `Machine.Round.Alike`: data of
  the machine that differ in nothing but places;
* `Engine.Impartial`: alike operations have alike outcomes.

## Main results

* `engine_mirrors`: the engine of every level is impartial;
* `call_mirrors`: alike callables applied to alike arguments have alike outcomes.
-/

namespace LazyMachine

/-! ### Data of the machine -/

/-- Applications that differ in nothing but places. -/
inductive Application.Alike (ρ : Renaming) : Application → Application → Prop
  | value {v v' : Value} {rest rest' : List Value} (hv : v.Alike ρ v')
      (hrest : Values ρ rest rest') : Alike ρ (.value v rest) (.value v' rest')
  | enter (program : Program) (chunk : Nat) {locals rest locals' rest' : List Value}
      (hlocals : Values ρ locals locals') (hrest : Values ρ rest rest') :
      Alike ρ (.enter program chunk locals rest) (.enter program chunk locals' rest')

/-- Claims that differ in nothing but places. -/
inductive Claim.Alike (ρ : Renaming) : Claim → Claim → Prop
  | ready {v v' : Value} (h : v.Alike ρ v') : Alike ρ (.ready v) (.ready v')
  | run {d d' : Deferred} (h : d.Alike ρ d') : Alike ρ (.run d) (.run d')

/-- Results go to the same thunks, or to alike arguments. -/
inductive FrameKind.Alike (ρ : Renaming) : FrameKind → FrameKind → Prop
  | entry : Alike ρ .entry .entry
  | call {rest rest' : List Value} (h : Values ρ rest rest') : Alike ρ (.call rest) (.call rest')
  | thunk (chain : List (Ref .thunk)) : Alike ρ (.thunk chain) (.thunk chain)

/-- Frames that differ in nothing but places. -/
structure Frame.Alike (ρ : Renaming) (f f' : Frame) : Prop where
  program : f.program = f'.program
  chunk : f.chunk = f'.chunk
  pc : f.pc = f'.pc
  locals : Arrays (Value.Alike ρ) f.locals f'.locals
  stack : Values ρ f.stack f'.stack
  handlers : f.handlers = f'.handlers
  kind : f.kind.Alike ρ f'.kind
  pendingCall : f.pendingCall = f'.pendingCall

/-- Stacks of frames that differ in nothing but places. -/
abbrev Frames (ρ : Renaming) : List Frame → List Frame → Prop :=
  List.Forall₂ (Frame.Alike ρ)

/-- The machine goes on in the same way. -/
inductive Flow.Alike (ρ : Renaming) : Flow → Flow → Prop
  | next {f f' : Frame} (h : f.Alike ρ f') : Alike ρ (.next f) (.next f')
  | stay {f f' : Frame} (h : f.Alike ρ f') : Alike ρ (.stay f) (.stay f')
  | jump {f f' : Frame} (h : f.Alike ρ f') (target : Nat) :
      Alike ρ (.jump f target) (.jump f' target)
  | enter {caller callee caller' callee' : Frame} (hcaller : caller.Alike ρ caller')
      (hcallee : callee.Alike ρ callee') : Alike ρ (.enter caller callee) (.enter caller' callee')
  | leave {v v' : Value} (h : v.Alike ρ v') : Alike ρ (.leave v) (.leave v')

/-- Machines that differ in nothing but places. -/
structure Machine.Alike (ρ : Renaming) (m m' : Machine) : Prop where
  frames : Frames ρ m.frames m'.frames
  steps : m.steps = m'.steps
  stepLimit : m.stepLimit = m'.stepLimit

/-- Runs that end in the same way. -/
inductive Machine.Exit.Alike (ρ : Renaming) : Machine.Exit → Machine.Exit → Prop
  | done {v v' : Value} (h : v.Alike ρ v') : Alike ρ (.done v) (.done v')
  | failed : Alike ρ .failed .failed
  | aborted (a : Abort) : Alike ρ (.aborted a) (.aborted a)

/-- Rounds that go on or end in the same way. -/
inductive Machine.Round.Alike (ρ : Renaming) : Machine.Round → Machine.Round → Prop
  | running {m m' : Machine} (h : m.Alike ρ m') : Alike ρ (.running m) (.running m')
  | ended {e e' : Machine.Exit} {m m' : Machine} (he : e.Alike ρ e') (hm : m.Alike ρ m') :
      Alike ρ (.ended e m) (.ended e' m')

/-- Alike operations have alike outcomes. -/
def Engine.Impartial (E : Engine) : Prop :=
  ∀ ρ o o', o.Alike ρ o' → Mirrors Value.Alike ρ (E o) (E o')

/-! ### Data at a larger renaming -/

section Growing

variable {ρ σ : Renaming} (hρσ : ρ ≤ σ)

include hρσ

theorem FrameKind.Alike.mono {k k' : FrameKind} (h : k.Alike ρ k') : k.Alike σ k' := by
  cases h with
  | entry => exact .entry
  | call h => exact .call (h.mono hρσ)
  | thunk chain => exact .thunk chain

theorem Frame.Alike.mono {f f' : Frame} (h : f.Alike ρ f') : f.Alike σ f' :=
  { h with
    locals := h.locals.mono fun _ _ h => h.mono hρσ
    stack := h.stack.mono hρσ
    kind := h.kind.mono hρσ }

theorem Frames.mono {fs fs' : List Frame} (h : Frames ρ fs fs') : Frames σ fs fs' :=
  h.imp fun _ _ h => h.mono hρσ

theorem Machine.Alike.mono {m m' : Machine} (h : m.Alike ρ m') : m.Alike σ m' :=
  { h with frames := Frames.mono hρσ h.frames }

end Growing

/-! ### Parts of frames -/

section Parts

variable {ρ : Renaming} {f f' : Frame}

theorem Values.append {vs ws vs' ws' : List Value} (hvs : Values ρ vs vs') (hws : Values ρ ws ws') :
    Values ρ (vs ++ ws) (vs' ++ ws') :=
  List.rel_append hvs hws

/-- Alike lists of values stay alike when they are reversed. -/
theorem Values.reverse {vs vs' : List Value} (h : Values ρ vs vs') :
    Values ρ vs.reverse vs'.reverse :=
  List.rel_reverse h

/-- Of two alike lists of values both are empty or neither is. -/
theorem Values.isEmpty_eq {vs vs' : List Value} (h : Values ρ vs vs') :
    vs.isEmpty = vs'.isEmpty := by
  cases h <;> rfl

/-- Alike lists start with alike values; unit stands for the head of the empty list. -/
theorem Values.head {vs vs' : List Value} (h : Values ρ vs vs') :
    (vs.head?.getD .unit).Alike ρ (vs'.head?.getD .unit) := by
  cases h with
  | nil => exact .same rfl
  | cons hv _ => exact hv

/-- Alike applications that get alike arguments to go on with are alike. -/
theorem Application.Alike.withRest {a a' : Application} (h : a.Alike ρ a') {ys ys' : List Value}
    (hys : Values ρ ys ys') : (a.withRest ys).Alike ρ (a'.withRest ys') := by
  cases h with
  | value hv hrest => exact .value hv (hrest.append hys)
  | enter program chunk hlocals hrest => exact .enter program chunk hlocals (hrest.append hys)

/-- Arrays related entry by entry stay so when they are joined. -/
theorem Arrays.append {α : Type} {R : α → α → Prop} {a b a' b' : Array α} (ha : Arrays R a a')
    (hb : Arrays R b b') : Arrays R (a ++ b) (a' ++ b') := by
  intro i
  rw [Array.getElem?_append, Array.getElem?_append, ha.size_eq]
  split
  · exact ha i
  · exact hb _

/-- Constant arrays of related entries are related. -/
theorem Arrays.replicate {α : Type} {R : α → α → Prop} {x x' : α} (hx : R x x') (n : Nat) :
    Arrays R (Array.replicate n x) (Array.replicate n x') := by
  intro i
  rw [Array.getElem?_replicate, Array.getElem?_replicate]
  split
  · exact .some hx
  · exact .none

/-- Entering a chunk with alike locals makes alike frames, or none in both runs. -/
theorem FrameKind.Alike.enter? {k k' : FrameKind} (hk : k.Alike ρ k') (program : Program)
    (chunk : Nat) {locals locals' : List Value} (hlocals : Values ρ locals locals') :
    Option.Rel (Frame.Alike ρ) (Frame.enter? program chunk locals k)
      (Frame.enter? program chunk locals' k') := by
  unfold Frame.enter?
  split
  · exact .some ⟨rfl, rfl, rfl, .of_forall₂ hlocals, .nil, rfl, hk, rfl⟩
  · exact .none

namespace Frame.Alike

/-- Alike frames are at the same instruction. -/
theorem instr?_eq (h : f.Alike ρ f') : f.instr? = f'.instr? := by
  rw [Frame.instr?, Frame.instr?, h.program, h.chunk, h.pc]

/-- Alike frames evaluate the same chain of thunks. -/
theorem chain_eq (h : f.Alike ρ f') : f.chain = f'.chain := by
  have hkind := h.kind
  unfold Frame.chain
  generalize f.kind = k, f'.kind = k' at hkind ⊢
  cases hkind <;> rfl

/-- Alike frames that get alike stacks are alike. -/
theorem withStack (h : f.Alike ρ f') {vs vs' : List Value} (hvs : Values ρ vs vs') :
    (f.withStack vs).Alike ρ (f'.withStack vs') :=
  { h with stack := hvs }

/-- Alike frames that receive alike results are alike. -/
theorem pushResult (h : f.Alike ρ f') {base base' : List Value} (hbase : Values ρ base base')
    {v v' : Value} (hv : v.Alike ρ v') {rest rest' : List Value} (hrest : Values ρ rest rest') :
    (f.pushResult base v rest).Alike ρ (f'.pushResult base' v' rest') := by
  unfold Frame.pushResult
  rw [hrest.isEmpty_eq]
  split
  · exact { h with stack := .cons hv hbase }
  · exact { h with
      stack := hrest.reverse.append (.cons hv hbase)
      pendingCall := congrArg some hrest.length_eq }

/-- Storing alike values in one slot leaves alike locals. -/
theorem store (h : f.Alike ρ f') (slot : Nat) {v v' : Value} (hv : v.Alike ρ v') :
    Arrays (Value.Alike ρ) (f.store slot v) (f'.store slot v') := by
  unfold Frame.store
  rw [h.locals.size_eq]
  exact (h.locals.append (.replicate (.same rfl) _)).setIfInBounds hv slot

/-- Alike frames that take the same handler with alike error values are alike. -/
theorem handle (h : f.Alike ρ f') (handler : Handler) (handlers : List Handler) {v v' : Value}
    (hv : v.Alike ρ v') :
    (f.handle handler handlers v).Alike ρ (f'.handle handler handlers v') := by
  refine { h with stack := .cons hv ?_, pc := rfl, handlers := rfl, pendingCall := rfl }
  rw [h.stack.length_eq]
  exact List.forall₂_drop _ h.stack

end Frame.Alike

end Parts

/-! ### Binding -/

namespace Mirrors

variable {α β : Type} {V : Renaming → α → β → Prop} {ρ : Renaming}

/-- Counting an instruction is mirrored by counting one. -/
theorem countInstruction : Mirrors Same ρ Eval.countInstruction Eval.countInstruction :=
  fun _ _ hw => .ok le_rfl rfl ⟨hw.heap, hw.context, hw.host, congrArg (· + 1) hw.executed⟩

/-- Completing a chain with alike values is mirrored: the memos are alike. -/
theorem completeChain (chain : List (Ref .thunk)) {v v' : Value} (hv : v.Alike ρ v') :
    Mirrors Value.Alike ρ (LazyMachine.completeChain chain v)
      (LazyMachine.completeChain chain v') :=
  onHeap fun _ _ hh => ⟨ρ, le_rfl, hh.completeChain chain hv⟩

/-- Giving a chain back is mirrored: the renaming matches the thunks. -/
theorem releaseChain (chain : List (Ref .thunk)) :
    Mirrors Same ρ (LazyMachine.releaseChain chain) (LazyMachine.releaseChain chain) :=
  onHeap fun _ _ hh => ⟨ρ, le_rfl, rfl, hh.releaseChain chain⟩

/-- A mirrored evaluation is still mirrored when an interrupt gives a chain back. -/
theorem releasing (chain : List (Ref .thunk)) {x : Eval α} {y : Eval β} (hx : Mirrors V ρ x y) :
    Mirrors V ρ (LazyMachine.releasing chain x) (LazyMachine.releasing chain y) :=
  hx.tryCatch fun _ _ _ => (releaseChain chain).bind_same fun _ _ _ => .throw _

/-- Claiming the same thunk in both runs finds the same state there. -/
theorem claim (t : Ref .thunk) : Mirrors Claim.Alike ρ (LazyMachine.claim t)
    (LazyMachine.claim t) := by
  refine heap_bind fun h h' hh => ?_
  generalize h.thunk t = x, h'.thunk t = x', hh.thunk t = hx
  cases hx with
  | valued _ hv => exact .pure (.ready hv)
  | @waiting d d' hd =>
    have hset : Mirrors Same ρ (Eval.onHeap fun h => ((), h.setThunk t (.running d)))
        (Eval.onHeap fun h => ((), h.setThunk t (.running d'))) :=
      onHeap fun _ _ hh => ⟨ρ, le_rfl, rfl, hh.setThunk t (.running hd)⟩
    exact hset.bind_same fun _ hρσ _ => .pure (.run (hd.mono hρσ))
  | running _ => exact .fail _
  | spent => exact .fail _

/-- A mirrored evaluation is still mirrored under another mode. -/
theorem withMode (mode : ForceMode) {x y : Eval Value}
    (hxy : ∀ σ, ρ ≤ σ → Mirrors Value.Alike σ x y) :
    Mirrors Value.Alike ρ (LazyMachine.withMode mode x) (LazyMachine.withMode mode y) := by
  refine context.bind_same fun σ hρσ c => (onContext _).bind_same fun τ hστ _ => ?_
  refine ((hxy τ (hρσ.trans hστ)).tryCatch fun υ _ i => ?_).bind fun υ _ v v' hv => ?_
  · exact (onContext _).bind_same fun _ _ _ => .throw i
  · exact (onContext _).bind_same fun _ hυφ _ => .pure (hv.mono hυφ)

end Mirrors

section Engine

variable {E : Engine} (hE : E.Impartial) {ρ : Renaming}

include hE

/-- Host code that differs in nothing but places runs alike. -/
theorem hostCode_mirrors {code code' : HostCode} (h : code.Alike ρ code') {σ : Renaming}
    (hρσ : ρ ≤ σ) : Mirrors Value.Alike σ (code.run E) (code'.run E) := by
  induction h generalizing σ with
  | done hv => exact .pure (hv.mono hρσ)
  | stop i => exact .throw i
  | fail e => exact .fail e
  | perform ho _ ih =>
    exact (hE σ _ _ (ho.mono hρσ)).bind fun τ hστ v v' hv => ih τ (hρσ.trans hστ) v v' hv le_rfl
  | readVariable name _ ih =>
    exact fun w w' hw => ih σ hρσ _ _ (hw.host.valueOf name) le_rfl w w' hw
  | count t _ ih =>
    refine (Mirrors.onHost fun h h' hh => ?_).bind_same fun τ hστ _ => ih (hρσ.trans hστ)
    exact hh.count t
  | @latch _ index next next' _ ih =>
    intro w w' hw
    -- the latch is read before it is set: both hosts hold the same latches, so the rests to run
    -- are those that `ih` relates
    change Outcomes Value.Alike σ
      ((Eval.onHost (·.setLatch index) >>= fun _ =>
        (next (w.host.latches.getD index true)).run E) w)
      ((Eval.onHost (·.setLatch index) >>= fun _ =>
        (next' (w'.host.latches.getD index true)).run E) w')
    rw [hw.host.latches]
    refine (Mirrors.onHost fun h h' hh => ?_).bind_same (fun τ hστ _ => ?_) w w' hw
    · exact { hh with latches := congrArg (·.setIfInBounds index true) hh.latches }
    · exact ih _ (hρσ.trans hστ)
  | makeList hitems _ ih =>
    exact (Mirrors.makeList (hitems.mono hρσ)).bind fun τ hστ v v' hv =>
      ih τ (hρσ.trans hστ) v v' hv le_rfl
  | makeThunk hbody _ _ ih =>
    exact (Mirrors.makeThunk (.waiting (.native (hbody.mono hρσ)))).bind fun τ hστ v v' hv =>
      ih τ (hρσ.trans hστ) v v' hv le_rfl
  | @makeFunction _ name arity body body' _ _ hbody _ _ ih =>
    have hf : Function.Alike σ ⟨name, arity, [], .native body⟩ ⟨name, arity, [], .native body'⟩ :=
      ⟨rfl, rfl, .nil, .native fun τ hτ => hbody τ (hρσ.trans hτ)⟩
    exact (Mirrors.makeFunction hf).bind fun τ hστ v v' hv => ih τ (hρσ.trans hστ) v v' hv le_rfl
  | makeNaturals first _ ih =>
    -- the naturals go on by a thunk whose code makes the next cell: it reads no place at all
    have hrest := HostCode.Alike.makeNaturals (first + 1) fun τ (_ : σ ≤ τ) v v' hv => .done hv
    have hthunk := Mirrors.makeThunk (.waiting (.native (.count .runs hrest)))
    refine hthunk.bind fun τ hστ t t' ht => ?_
    refine (Mirrors.makeCell (.same rfl) ht).bind fun υ hτυ c c' hc => ?_
    exact ih υ (hρσ.trans (hστ.trans hτυ)) _ _ (.list (.some hc)) le_rfl

/-- Forcing alike arguments one after the other yields alike values. -/
theorem forceAll_mirrors {vs vs' : List Value} (hvs : Values ρ vs vs') :
    Mirrors Values ρ (forceAll E vs) (forceAll E vs') := by
  induction vs generalizing ρ vs' with
  | nil =>
    cases hvs
    exact .pure .nil
  | cons v vs ih =>
    cases hvs with
    | cons hv hvs =>
      refine (hE ρ _ _ (.force hv)).bind fun σ hρσ v v' hv => ?_
      exact (ih (Values.mono hρσ hvs)).map fun τ hστ _ _ hvs => .cons (hv.mono hστ) hvs

/-- A function and arguments for it that are alike. -/
abbrev Selected (ρ : Renaming) (s s' : Ref .function × List Value) : Prop :=
  ρ.Functions s.1 s'.1 ∧ Values ρ s.2 s'.2

omit hE in
/-- A clause reads types only, so alike clauses accept alike arguments alike. -/
theorem Clause.Alike.accepts_eq {c c' : Clause} (hc : c.Alike ρ c') {vs vs' : List Value}
    (hvs : Values ρ vs vs') : c.accepts vs = c'.accepts vs' := by
  unfold Clause.accepts
  rw [hc.params]
  generalize c'.params = params
  induction hvs generalizing params with
  | nil => simp
  | cons hv _ ih =>
    cases params with
    | nil => rfl
    | cons param params =>
      rw [List.zip_cons_cons, List.zip_cons_cons, List.all_cons, List.all_cons, ih]
      dsimp only
      rw [hv.typeId_eq]

omit hE in
/-- Alike tables select alike clauses for alike arguments. -/
theorem OverloadTable.Alike.find? {t t' : OverloadTable} (ht : t.Alike ρ t') {vs vs' : List Value}
    (hvs : Values ρ vs vs') :
    Option.Rel (Clause.Alike ρ) (t.clauses.find? (·.accepts vs))
      (t'.clauses.find? (·.accepts vs')) := by
  have hclauses := ht.clauses
  generalize t.clauses = cs, t'.clauses = cs' at hclauses
  induction hclauses with
  | nil => exact .none
  | cons hc _ ih =>
    rw [List.find?_cons, List.find?_cons, hc.accepts_eq hvs]
    split
    · exact .some hc
    · exact ih

/-- Alike tables select alike functions with alike arguments. -/
theorem select_mirrors {t t' : OverloadTable} (ht : t.Alike ρ t') {args args' : List Value}
    (hargs : Values ρ args args') : Mirrors Selected ρ (t.select E args) (t'.select E args') := by
  refine (forceAll_mirrors hE hargs).bind fun σ hρσ forced forced' hforced => ?_
  have ht := ht.mono hρσ
  generalize t.clauses.find? (·.accepts forced) = found,
    t'.clauses.find? (·.accepts forced') = found', ht.find? hforced = hfound
  cases hfound with
  | some hc => exact .pure ⟨hc.target, hforced⟩
  | none =>
    have hnames : forced.map Value.typeName = forced'.map Value.typeName := by
      induction hforced with
      | nil => rfl
      | cons hv _ ih => rw [List.map_cons, List.map_cons, hv.typeName_eq, ih]
    dsimp only
    rw [ht.name, hnames]
    exact .fail _

/-- Binding alike functions to alike arguments gives alike applications. -/
theorem bind_mirrors (fuel : Nat) {f f' : Ref .function} (hf : ρ.Functions f f')
    {args args' : List Value} (hargs : Values ρ args args') :
    Mirrors Application.Alike ρ (bind E fuel f args) (bind E fuel f' args') := by
  induction fuel generalizing ρ f f' args args' with
  | zero => exact .throw _
  | succ fuel ih =>
    refine Mirrors.ensureLive.bind_same fun σ hρσ _ => .heap_bind fun h h' hh => ?_
    replace hf := hf.mono hρσ
    replace hargs := hargs.mono hρσ
    have hfn := hh.function hf
    dsimp only
    rw [hargs.length_eq, hfn.remaining_eq, hargs.isEmpty_eq]
    split
    · split
      · exact .pure (.value (.function hf) .nil)
      · have hpartial : Function.Alike σ
            { h.function f with applied := (h.function f).applied ++ args }
            { h'.function f' with applied := (h'.function f').applied ++ args' } :=
          { hfn with applied := hfn.applied.append hargs }
        exact (Mirrors.makeFunction hpartial).map fun _ _ _ _ hv => .value hv .nil
    · -- both functions want as many arguments, so both lists are cut at the same place
      have hfull := hfn.applied.append (List.forall₂_take (h'.function f').remaining hargs)
      have hrest := List.forall₂_drop (h'.function f').remaining hargs
      have hbody := hfn.body
      generalize (h.function f).body = body, (h'.function f').body = body' at hbody ⊢
      cases hbody with
      | native hcode =>
        exact (hostCode_mirrors hE (hcode σ le_rfl _ _ hfull) le_rfl).map fun τ hστ _ _ hv =>
          .value hv (Values.mono hστ hrest)
      | code program chunk hcaptures =>
        exact .pure (.enter program chunk (hcaptures.append hfull) hrest)
      | overloaded htable =>
        refine (select_mirrors hE htable hfull).bind fun τ hστ chosen chosen' hchosen => ?_
        exact (ih hchosen.1 hchosen.2).map fun υ hτυ _ _ ha =>
          ha.withRest (Values.mono (hστ.trans hτυ) hrest)

/-! ### Driving -/

/-- Alike computations behind thunks are bound alike. -/
theorem deferredBind_mirrors (fuel : Nat) {d d' : Deferred} (hd : d.Alike ρ d') :
    Mirrors Application.Alike ρ (d.bind E fuel) (d'.bind E fuel) := by
  cases hd with
  | native hcode =>
    exact (Mirrors.withMode .eager fun σ hρσ => hostCode_mirrors hE hcode hρσ).map
      fun _ _ _ _ hv => .value hv .nil
  | call hf => exact bind_mirrors hE fuel hf .nil

/-- Frames that may have been entered. -/
abbrev Entered (ρ : Renaming) : Option Frame → Option Frame → Prop :=
  Option.Rel (Frame.Alike ρ)

/-- Driving the same thunk in both runs enters alike frames. -/
theorem drive_mirrors (fuel : Nat) (waiting : List (Ref .thunk)) (t : Ref .thunk) :
    Mirrors Entered ρ (drive E fuel waiting t) (drive E fuel waiting t) := by
  induction fuel generalizing ρ waiting t with
  | zero => exact .throw _
  | succ fuel ih =>
    refine (Mirrors.releasing waiting (.claim t)).bind fun σ hρσ claimed claimed' hclaimed => ?_
    cases hclaimed with
    | ready hv => exact (Mirrors.completeChain _ hv).bind fun _ _ _ _ _ => .pure .none
    | run hd =>
      refine (Mirrors.releasing _ (deferredBind_mirrors hE fuel hd)).bind fun τ hστ a a' ha => ?_
      cases ha with
      | @enter program chunk locals _ locals' _ hlocals hrest =>
        have henter := (FrameKind.Alike.thunk (waiting ++ [t])).enter? program chunk hlocals
        dsimp only
        generalize Frame.enter? program chunk locals (.thunk (waiting ++ [t])) = f,
          Frame.enter? program chunk locals' (.thunk (waiting ++ [t])) = f' at henter ⊢
        cases henter with
        | some hf => exact .pure (.some hf)
        | none => exact (Mirrors.releaseChain _).bind_same fun _ _ _ => .fail _
      | value hv hrest =>
        -- what comes out may be another thunk, which is driven next
        refine (Mirrors.resolve hv).bind fun υ hτυ v v' hv => ?_
        cases hv with
        | list h => exact (Mirrors.completeChain _ (.list h)).bind fun _ _ _ _ _ => .pure .none
        | function h =>
          exact (Mirrors.completeChain _ (.function h)).bind fun _ _ _ _ _ => .pure .none
        | same h =>
          split
          · exact ih _ _
          · exact (Mirrors.completeChain _ (.same h)).bind fun _ _ _ _ _ => .pure .none

/-- Settling the same chain with alike values enters alike frames. -/
theorem settle_mirrors (fuel : Nat) (chain : List (Ref .thunk)) {v v' : Value}
    (hv : v.Alike ρ v') :
    Mirrors Entered ρ (settle E fuel chain v) (settle E fuel chain v') := by
  refine (Mirrors.resolve hv).bind fun σ hρσ v v' hv => ?_
  cases hv with
  | list h => exact (Mirrors.completeChain _ (.list h)).bind fun _ _ _ _ _ => .pure .none
  | function h => exact (Mirrors.completeChain _ (.function h)).bind fun _ _ _ _ _ => .pure .none
  | same h =>
    split
    · exact drive_mirrors hE fuel _ _
    · exact (Mirrors.completeChain _ (.same h)).bind fun _ _ _ _ _ => .pure .none

/-- Waking up from a suspension goes on alike. -/
theorem resume_mirrors (fuel : Nat) : Mirrors Entered ρ (resume E fuel) (resume E fuel) := by
  induction fuel generalizing ρ with
  | zero => exact .throw _
  | succ fuel ih =>
    refine (Mirrors.ofEval .context).bind_same fun σ hρσ c =>
      (Mirrors.ofEval (.onContext _)).bind_same fun τ hστ _ => ?_
    split
    · exact .throw _
    · refine (Mirrors.ofEval (drive_mirrors hE fuel [] _)).tryCatch fun υ hτυ stop => ?_
      split
      · exact ih
      · exact .throw _

/-! ### Instructions -/

/-- Binding alike callees to alike arguments gives alike applications. -/
theorem bindValue_mirrors (fuel : Nat) {callee callee' : Value} (hcallee : callee.Alike ρ callee')
    {args args' : List Value} (hargs : Values ρ args args') :
    Mirrors Application.Alike ρ (bindValue E fuel callee args)
      (bindValue E fuel callee' args') := by
  cases hcallee with
  | list h => exact .fail _
  | function hf => exact bind_mirrors hE fuel hf hargs
  | @same callee h =>
    cases callee with
    | foreign g =>
      exact (foreignCall_mirrors g hargs).map fun _ _ _ _ hv => .value hv .nil
    | list _ | function _ => contradiction
    | _ => exact .fail _

/-- A caller and what it has entered. -/
abbrev Received (ρ : Renaming) (r r' : Frame × Option Frame) : Prop :=
  r.1.Alike ρ r'.1 ∧ Entered ρ r.2 r'.2

section Frame

variable {f f' : Frame} (hf : f.Alike ρ f')

include hf

omit hE in
/-- Alike frames with too few operands are given up alike. -/
theorem underflow_mirrors {α β : Type} {V : Renaming → α → β → Prop} (need : Nat) :
    Mirrors V ρ (f.underflow need) (f'.underflow need) := by
  unfold Frame.underflow
  rw [hf.chunk, hf.pc, hf.stack.length_eq]
  exact .throw _

omit hE in
/-- Alike frames pop alike operands. -/
theorem operands_mirrors (n : Nat) :
    Mirrors (fun σ p p' => Values σ p.1 p'.1 ∧ Values σ p.2 p'.2) ρ (f.operands n)
      (f'.operands n) := by
  unfold Frame.operands
  rw [hf.stack.length_eq]
  split
  · exact .pure ⟨Values.reverse (List.forall₂_take n hf.stack), List.forall₂_drop n hf.stack⟩
  · exact underflow_mirrors hf n

omit hE in
/-- Alike frames receive alike applications alike. -/
theorem receive_mirrors {base base' : List Value} (hbase : Values ρ base base')
    {a a' : Application} (ha : a.Alike ρ a') :
    Mirrors Received ρ (f.receive base a) (f'.receive base' a') := by
  cases ha with
  | value hv hrest => exact .pure ⟨hf.pushResult hbase hv hrest, .none⟩
  | @enter program chunk locals rest locals' rest' hlocals hrest =>
    have henter := (FrameKind.Alike.call hrest).enter? program chunk hlocals
    simp only [Frame.receive]
    generalize Frame.enter? program chunk locals (.call rest) = g,
      Frame.enter? program chunk locals' (.call rest') = g' at henter ⊢
    cases henter with
    | some hg => exact .pure ⟨hf.withStack hbase, .some hg⟩
    | none => exact .throw _

omit hE hf in
/-- A count that the host cannot represent crashes both runs. -/
theorem increment_mirrors (bound n : Nat) :
    Mirrors Same ρ (increment bound n) (increment bound n) := by
  unfold increment
  split
  · exact .pure rfl
  · exact .throw _

/-- A call in alike frames enters alike frames. -/
theorem apply_mirrors (fuel count : Nat) :
    Mirrors Received ρ (f.apply E fuel count) (f'.apply E fuel count) := by
  refine (increment_mirrors _ count).bind_same fun σ hρσ need => ?_
  refine (operands_mirrors (hf.mono hρσ) need).bind fun τ hστ p p' hp => ?_
  obtain ⟨slots, base⟩ := p
  obtain ⟨slots', base'⟩ := p'
  obtain ⟨hslots, hbase⟩ := hp
  have hf := hf.mono (hρσ.trans hστ)
  cases hslots with
  | nil => exact underflow_mirrors hf need
  | cons hcallee hargs =>
    refine (Mirrors.ofEval (hE τ _ _ (.force hcallee))).bind fun υ hτυ callee callee' hcallee => ?_
    refine (Mirrors.ofEval (bindValue_mirrors hE fuel hcallee (Values.mono hτυ hargs))).bind
      fun φ hυφ a a' ha => ?_
    exact receive_mirrors (hf.mono (hτυ.trans hυφ)) (Values.mono (hτυ.trans hυφ) hbase) ha

omit hE in
/-- Alike frames capture alike values in a new function. -/
theorem capture_mirrors (chunk captures : Nat) :
    Mirrors Selected ρ (f.capture chunk captures) (f'.capture chunk captures) := by
  refine (operands_mirrors hf captures).bind fun σ hρσ p p' hp => ?_
  obtain ⟨values, base⟩ := p
  obtain ⟨values', base'⟩ := p'
  obtain ⟨hvalues, hbase⟩ := hp
  dsimp only
  rw [hf.program]
  split
  · next target _ =>
    have hg : Function.Alike σ ⟨target.name, target.arity, [], .code f'.program chunk values⟩
        ⟨target.name, target.arity, [], .code f'.program chunk values'⟩ :=
      ⟨rfl, rfl, .nil, .code _ _ hvalues⟩
    have hadd : Mirrors Renaming.Functions σ
        (Eval.onHeap (·.addFunction ⟨target.name, target.arity, [], .code f'.program chunk values⟩))
        (Eval.onHeap
          (·.addFunction ⟨target.name, target.arity, [], .code f'.program chunk values'⟩)) :=
      .onHeap fun _ _ hh => ⟨σ.pushFunction, σ.le_pushFunction, hh.addFunction hg⟩
    exact (Mirrors.ofEval hadd).map fun τ hστ _ _ hg => ⟨hg, Values.mono hστ hbase⟩
  · exact .throw _

/-- An operation on the top of alike stacks goes on alike. -/
theorem onTop_mirrors {o : Value → Operation}
    (ho : ∀ v v', v.Alike ρ v' → (o v).Alike ρ (o v')) :
    Mirrors Flow.Alike ρ (f.onTop E o) (f'.onTop E o) := by
  have hstack := hf.stack
  unfold Frame.onTop
  generalize f.stack = stack, f'.stack = stack' at hstack ⊢
  cases hstack with
  | nil => exact underflow_mirrors hf 1
  | cons hx hbase =>
    exact (Mirrors.ofEval (hE ρ _ _ (ho _ _ hx))).map fun σ hρσ _ _ hv =>
      .next ((hf.mono hρσ).withStack (.cons hv (Values.mono hρσ hbase)))

/-- An operation on the two values on top of alike stacks goes on alike. -/
theorem onTwo_mirrors {o : Value → Value → Operation}
    (ho : ∀ x x' y y', x.Alike ρ x' → y.Alike ρ y' → (o x y).Alike ρ (o x' y')) :
    Mirrors Flow.Alike ρ (f.onTwo E o) (f'.onTwo E o) := by
  have hstack := hf.stack
  unfold Frame.onTwo
  generalize f.stack = stack, f'.stack = stack' at hstack ⊢
  rcases hstack with _ | ⟨hy, _ | ⟨hx, hbase⟩⟩
  · exact underflow_mirrors hf 2
  · exact underflow_mirrors hf 2
  · exact (Mirrors.ofEval (hE ρ _ _ (ho _ _ _ _ hx hy))).map fun σ hρσ _ _ hv =>
      .next ((hf.mono hρσ).withStack (.cons hv (Values.mono hρσ hbase)))

omit hE in
/-- A frame that goes on with other values in place of its operands. -/
theorem next_mirrors {x y : Step Value} (hxy : Mirrors Value.Alike ρ x y)
    {base base' : List Value} (hbase : Values ρ base base') :
    Mirrors Flow.Alike ρ (x >>= fun v => pure (.next (f.withStack (v :: base))))
      (y >>= fun v => pure (.next (f'.withStack (v :: base')))) :=
  hxy.map fun _ hρσ _ _ hv =>
    .next ((hf.mono hρσ).withStack (.cons hv (Values.mono hρσ hbase)))

omit hE in
/-- Locals at the same place are alike. -/
theorem step_load_mirrors (fuel : Nat) (slot : Nat) :
    Mirrors Flow.Alike ρ (f.step E fuel (.load slot)) (f'.step E fuel (.load slot)) := by
  have hstack := hf.stack
  have hslot := hf.locals slot
  simp only [Frame.step]
  generalize f.locals[slot]? = v, f'.locals[slot]? = v' at hslot ⊢
  cases hslot with
  | none => exact .throw _
  | some hv => exact .pure (.next (hf.withStack (.cons hv hstack)))

omit hE in
/-- Frames with as many locals refuse the same slots. -/
theorem step_store_mirrors (fuel : Nat) (slot : Nat) :
    Mirrors Flow.Alike ρ (f.step E fuel (.store slot)) (f'.step E fuel (.store slot)) := by
  have hstack := hf.stack
  simp only [Frame.step]
  generalize f.stack = stack, f'.stack = stack' at hstack ⊢
  cases hstack with
  | nil => exact underflow_mirrors hf 1
  | cons hv hbase =>
    dsimp only
    rw [hf.locals.size_eq]
    split
    · refine (increment_mirrors _ slot).bind_same fun σ hρσ _ => .pure (.next ?_)
      have hf := hf.mono hρσ
      exact { hf with stack := Values.mono hρσ hbase, locals := hf.store slot (hv.mono hρσ) }
    · exact .pure (.next { hf with stack := hbase, locals := hf.store slot hv })

omit hE in
/-- Dropping the top of the stack. -/
theorem step_pop_mirrors (fuel : Nat) :
    Mirrors Flow.Alike ρ (f.step E fuel .pop) (f'.step E fuel .pop) := by
  have hstack := hf.stack
  simp only [Frame.step]
  generalize f.stack = stack, f'.stack = stack' at hstack ⊢
  cases hstack with
  | nil => exact underflow_mirrors hf 1
  | cons hv hbase => exact .pure (.next (hf.withStack hbase))

omit hE in
/-- Repeating the top of the stack. -/
theorem step_dup_mirrors (fuel : Nat) :
    Mirrors Flow.Alike ρ (f.step E fuel .dup) (f'.step E fuel .dup) := by
  have hstack := hf.stack
  simp only [Frame.step]
  generalize f.stack = stack, f'.stack = stack' at hstack ⊢
  cases hstack with
  | nil => exact underflow_mirrors hf 1
  | cons hv hbase => exact .pure (.next (hf.withStack (.cons hv (.cons hv hbase))))

omit hE in
/-- Exchanging the two topmost values. -/
theorem step_swap_mirrors (fuel : Nat) :
    Mirrors Flow.Alike ρ (f.step E fuel .swap) (f'.step E fuel .swap) := by
  have hstack := hf.stack
  simp only [Frame.step]
  generalize f.stack = stack, f'.stack = stack' at hstack ⊢
  rcases hstack with _ | ⟨hy, _ | ⟨hx, hbase⟩⟩
  · exact underflow_mirrors hf 2
  · exact underflow_mirrors hf 2
  · exact .pure (.next (hf.withStack (.cons hx (.cons hy hbase))))

/-- Alike worlds have the same default format. -/
theorem step_render_mirrors (fuel : Nat) :
    Mirrors Flow.Alike ρ (f.step E fuel .render) (f'.step E fuel .render) := by
  exact (Mirrors.ofEval .context).bind_same fun σ hρσ c =>
    onTop_mirrors hE (hf.mono hρσ) fun _ _ hv => .render hv c.format

/-- The operands are a container, a key and an item. -/
theorem step_setIndex_mirrors (fuel : Nat) :
    Mirrors Flow.Alike ρ (f.step E fuel .setIndex) (f'.step E fuel .setIndex) := by
  have hstack := hf.stack
  simp only [Frame.step]
  generalize f.stack = stack, f'.stack = stack' at hstack ⊢
  rcases hstack with _ | ⟨hitem, _ | ⟨hkey, _ | ⟨hx, hbase⟩⟩⟩
  · exact underflow_mirrors hf 3
  · exact underflow_mirrors hf 3
  · exact underflow_mirrors hf 3
  · exact next_mirrors hf (.ofEval (hE ρ _ _ (.set hx hkey hitem))) hbase

omit hE in
/-- Making a list of the topmost values. -/
theorem step_makeList_mirrors (fuel : Nat) (count : Nat) :
    Mirrors Flow.Alike ρ (f.step E fuel (.makeList count)) (f'.step E fuel (.makeList count)) := by
  refine (operands_mirrors hf count).bind fun σ hρσ p p' hp => ?_
  exact next_mirrors (hf.mono hρσ) (.ofEval (.makeList hp.1)) hp.2

omit hE in
/-- Making a record of the topmost values: the names come from the instruction. -/
theorem step_makeRecord_mirrors (fuel : Nat) (names : List String) :
    Mirrors Flow.Alike ρ (f.step E fuel (.makeRecord names))
      (f'.step E fuel (.makeRecord names)) := by
  refine (operands_mirrors hf names.length).bind fun σ hρσ p p' hp => ?_
  -- the names come from the instruction: only the values are related
  have hentries {vs vs' : List Value} (h : Values σ vs vs') :
      Entries σ (names.zip vs) (names.zip vs') := by
    induction h generalizing names with
    | nil => simp
    | cons hv _ ih =>
      cases names with
      | nil => exact .nil
      | cons name names => exact .cons ⟨rfl, hv⟩ (ih names)
  exact next_mirrors (hf.mono hρσ) (.ofEval (.makeRecord (hentries hp.1))) hp.2

omit hE in
/-- Making a variant of the top of the stack. -/
theorem step_makeVariant_mirrors (fuel : Nat) (tag : String) :
    Mirrors Flow.Alike ρ (f.step E fuel (.makeVariant tag))
      (f'.step E fuel (.makeVariant tag)) := by
  have hstack := hf.stack
  simp only [Frame.step]
  generalize f.stack = stack, f'.stack = stack' at hstack ⊢
  cases hstack with
  | nil => exact underflow_mirrors hf 1
  | cons hx hbase => exact next_mirrors hf (.ofEval (.makeVariant tag hx)) hbase

omit hE in
/-- Making a thunk over a chunk. -/
theorem step_delay_mirrors (fuel : Nat) (chunk captures : Nat) :
    Mirrors Flow.Alike ρ (f.step E fuel (.delay chunk captures))
      (f'.step E fuel (.delay chunk captures)) := by
  refine (capture_mirrors hf chunk captures).bind fun σ hρσ p p' hp => ?_
  exact next_mirrors (hf.mono hρσ) (.ofEval (.makeThunk (.waiting (.call hp.1)))) hp.2

omit hE in
/-- Making a function over a chunk. -/
theorem step_closure_mirrors (fuel : Nat) (chunk captures : Nat) :
    Mirrors Flow.Alike ρ (f.step E fuel (.closure chunk captures))
      (f'.step E fuel (.closure chunk captures)) := by
  exact (capture_mirrors hf chunk captures).map fun σ hρσ p p' hp =>
    .next ((hf.mono hρσ).withStack (.cons (.function hp.1) hp.2))

/-- A call enters frames that are alike, or none on either side. -/
theorem step_call_mirrors (fuel count : Nat) :
    Mirrors Flow.Alike ρ (f.step E fuel (.call count)) (f'.step E fuel (.call count)) := by
  refine (apply_mirrors hE hf fuel count).bind fun σ hρσ r r' hr => ?_
  obtain ⟨caller, callee⟩ := r
  obtain ⟨caller', callee'⟩ := r'
  obtain ⟨hcaller, hcallee⟩ := hr
  cases hcallee with
  | none => exact .pure (.next hcaller)
  | some hcallee =>
    exact .pure (.enter { hcaller with pc := congrArg (· + 1) hcaller.pc } hcallee)

/-- Alike conditions are the same boolean, or none on either side. -/
theorem step_jumpIfFalse_mirrors (fuel : Nat) (target : Nat) :
    Mirrors Flow.Alike ρ (f.step E fuel (.jumpIfFalse target))
      (f'.step E fuel (.jumpIfFalse target)) := by
  have hstack := hf.stack
  simp only [Frame.step]
  generalize f.stack = stack, f'.stack = stack' at hstack ⊢
  cases hstack with
  | nil => exact underflow_mirrors hf 1
  | cons hx hbase =>
    refine (Mirrors.ofEval (hE ρ _ _ (.force hx))).bind fun σ hρσ v v' hv => ?_
    have hnext := (hf.mono hρσ).withStack (Values.mono hρσ hbase)
    cases hv with
    | list h | function h => exact .ofEval (.fail _)
    | same h =>
      split
      · exact .pure (.next hnext)
      · exact .pure (.jump hnext target)
      · exact .ofEval (.fail _)

/-- Alike frames that execute the same instruction go on alike. -/
theorem step_mirrors (fuel : Nat) (instr : Instr) :
    Mirrors Flow.Alike ρ (f.step E fuel instr) (f'.step E fuel instr) := by
  cases instr with
  | push literal => exact next_mirrors hf (.ofEval (.literal literal)) hf.stack
  | load slot => exact step_load_mirrors hf fuel slot
  | store slot => exact step_store_mirrors hf fuel slot
  | pop => exact step_pop_mirrors hf fuel
  | dup => exact step_dup_mirrors hf fuel
  | swap => exact step_swap_mirrors hf fuel
  | binary op => exact onTwo_mirrors hE hf fun _ _ _ _ => .binary op
  | cons => exact onTwo_mirrors hE hf fun _ _ _ _ => .binary .cons
  | index => exact onTwo_mirrors hE hf fun _ _ _ _ => .get
  | unary op => exact onTop_mirrors hE hf fun _ _ => .unary op
  | length => exact onTop_mirrors hE hf fun _ _ => .length
  | head => exact onTop_mirrors hE hf fun _ _ => .head
  | tail => exact onTop_mirrors hE hf fun _ _ => .tail
  | isNil => exact onTop_mirrors hE hf fun _ _ => .isNil
  | empty => exact onTop_mirrors hE hf fun _ _ => .nilOf
  | tag => exact onTop_mirrors hE hf fun _ _ => .tagOf
  | untag => exact onTop_mirrors hE hf fun _ _ => .untag
  | force => exact onTop_mirrors hE hf fun _ _ => .force
  | convert kind => exact onTop_mirrors hE hf fun _ _ hv => .convert hv kind
  | render => exact step_render_mirrors hE hf fuel
  | setIndex => exact step_setIndex_mirrors hE hf fuel
  | makeList count => exact step_makeList_mirrors hf fuel count
  | makeRecord names => exact step_makeRecord_mirrors hf fuel names
  | makeVariant tag => exact step_makeVariant_mirrors hf fuel tag
  | delay chunk captures => exact step_delay_mirrors hf fuel chunk captures
  | closure chunk captures => exact step_closure_mirrors hf fuel chunk captures
  | call count => exact step_call_mirrors hE hf fuel count
  | jump target => exact .pure (.jump hf target)
  | jumpIfFalse target => exact step_jumpIfFalse_mirrors hE hf fuel target
  | attempt target =>
    refine .pure (.next { hf with handlers := ?_ })
    rw [hf.handlers, hf.stack.length_eq]
  | endAttempt => exact .pure (.next { hf with handlers := congrArg List.tail hf.handlers })
  | ret => exact .pure (.leave hf.stack.head)

/-- One instruction in alike frames goes on alike. -/
theorem advance_mirrors (fuel : Nat) :
    Mirrors Flow.Alike ρ (f.advance E fuel) (f'.advance E fuel) := by
  unfold Frame.advance
  rw [hf.pendingCall, hf.instr?_eq]
  split
  · have hidle : Frame.Alike ρ { f with pendingCall := none } { f' with pendingCall := none } :=
      { hf with pendingCall := rfl }
    refine (apply_mirrors hE hidle fuel _).bind fun σ hρσ r r' hr => ?_
    obtain ⟨caller, callee⟩ := r
    obtain ⟨caller', callee'⟩ := r'
    obtain ⟨hcaller, hcallee⟩ := hr
    cases hcallee with
    | none => exact .pure (.stay hcaller)
    | some hcallee => exact .pure (.enter hcaller hcallee)
  · split
    · exact step_mirrors hE hf fuel _
    · exact .pure (.leave hf.stack.head)

end Frame

/-! ### Runs -/

omit hE in
/-- The same error becomes alike values. -/
theorem errorValue_mirrors (e : Option RuntimeError) :
    Mirrors Value.Alike ρ (errorValue e) (errorValue e) := by
  refine (Mirrors.makeStr _).bind fun σ _ kind kind' hkind => ?_
  refine (Mirrors.makeStr _).bind fun τ hστ op op' hop => ?_
  refine (Mirrors.makeStr _).bind fun υ hτυ message message' hmessage => ?_
  refine (Mirrors.makeRecord ?_).bind fun φ _ record record' hrecord => .makeVariant _ hrecord
  exact .cons ⟨rfl, hkind.mono (hστ.trans hτυ)⟩
    (.cons ⟨rfl, hop.mono hτυ⟩ (.cons ⟨rfl, hmessage⟩ .nil))

/-- Whether there was a handler, and the frames that are left. -/
abbrev Unwound (ρ : Renaming) (r r' : Bool × List Frame) : Prop :=
  r.1 = r'.1 ∧ Frames ρ r.2 r'.2

omit hE in
/-- Unwinding alike stacks finds the same handler. -/
theorem unwind_mirrors {fs fs' : List Frame} (hfs : Frames ρ fs fs') :
    Mirrors Unwound ρ (unwind fs) (unwind fs') := by
  induction fs generalizing ρ fs' with
  | nil =>
    cases hfs
    exact .pure ⟨rfl, .nil⟩
  | cons f below ih =>
    cases hfs with
    | @cons _ f' _ below' hf hbelow =>
      unfold unwind
      -- alike frames hold the same handlers, so both catch here or both are dropped
      rw [hf.handlers]
      split
      · refine Mirrors.context.bind_same fun σ hρσ c =>
          (Mirrors.onContext _).bind_same fun τ hστ _ => ?_
        exact (errorValue_mirrors c.error).map fun υ hτυ _ _ hv => ⟨rfl,
          .cons ((hf.mono (hρσ.trans (hστ.trans hτυ))).handle _ _ hv)
            (Frames.mono (hρσ.trans (hστ.trans hτυ)) hbelow)⟩
      · have hreleased : Mirrors Unwound ρ (releaseChain f.chain >>= fun _ => unwind below)
            (releaseChain f'.chain >>= fun _ => unwind below') := by
          rw [hf.chain_eq]
          exact (Mirrors.releaseChain _).bind_same fun _ hρσ _ => ih (Frames.mono hρσ hbelow)
        have hkind := hf.kind
        generalize f.kind = k, f'.kind = k' at hkind ⊢
        cases hkind with
        | entry => exact .pure ⟨rfl, hbelow⟩
        | call _ | thunk _ => exact hreleased

section Machine

variable {m m' : Machine} (hm : m.Alike ρ m')

include hm

omit hE in
/-- Alike machines that get alike frames are alike. -/
theorem withFrames_alike {fs fs' : List Frame} (hfs : Frames ρ fs fs') :
    (m.withFrames fs).Alike ρ (m'.withFrames fs') :=
  { hm with frames := hfs }

omit hE in
/-- Alike machines are given up alike. -/
theorem abandon_mirrors (a : Abort) :
    Mirrors Machine.Round.Alike ρ (m.abandon a) (m'.abandon a) := by
  have hchains : m.frames.flatMap Frame.chain = m'.frames.flatMap Frame.chain := by
    have hframes := hm.frames
    generalize m.frames = fs, m'.frames = fs' at hframes
    induction hframes with
    | nil => rfl
    | cons hf _ ih => rw [List.flatMap_cons, List.flatMap_cons, hf.chain_eq, ih]
  unfold Machine.abandon
  rw [hchains]
  exact (Mirrors.releaseChain _).bind_same fun _ hρσ _ =>
    .pure (.ended (.aborted a) (withFrames_alike (hm.mono hρσ) .nil))

omit hE in
/-- Alike machines recover from the same stop alike. -/
theorem recover_mirrors (stop : Stop) :
    Mirrors Machine.Round.Alike ρ (m.recover stop) (m'.recover stop) := by
  cases stop with
  | abort a => exact abandon_mirrors hm a
  | interrupt i =>
    refine (unwind_mirrors hm.frames).bind fun σ hρσ r r' hr => ?_
    obtain ⟨found, frames⟩ := r
    obtain ⟨found', frames'⟩ := r'
    obtain ⟨rfl, hframes⟩ := hr
    have hleft := withFrames_alike (hm.mono hρσ) hframes
    cases found with
    | true => exact .pure (.running hleft)
    | false => exact .pure (.ended .failed hleft)

/-- Alike machines stop alike, whatever the reason. -/
theorem halt_mirrors (fuel : Nat) (stop : Stop) :
    Mirrors Machine.Round.Alike ρ (m.halt E fuel stop) (m'.halt E fuel stop) := by
  unfold Machine.halt
  split
  · refine (resume_mirrors hE fuel).outcome.bind fun σ hρσ entered entered' hentered => ?_
    have hm := hm.mono hρσ
    cases hentered with
    | error stop => exact recover_mirrors hm stop
    | ok h =>
      cases h with
      | none => exact .pure (.running hm)
      | some hf => exact .pure (.running (withFrames_alike hm (.cons hf hm.frames)))
  · exact recover_mirrors hm stop

/-- Alike frames return alike values to alike places. -/
theorem leave_mirrors (fuel : Nat) {k k' : FrameKind} (hk : k.Alike ρ k') {fs fs' : List Frame}
    (hfs : Frames ρ fs fs') {v v' : Value} (hv : v.Alike ρ v') :
    Mirrors Machine.Round.Alike ρ (m.leave E fuel k fs v) (m'.leave E fuel k' fs' v') := by
  cases hk with
  | entry => exact .pure (.ended (.done hv) (withFrames_alike hm hfs))
  | call hrest =>
    cases hfs with
    | nil => exact abandon_mirrors (withFrames_alike hm .nil) .noFrame
    | cons hcaller hothers =>
      exact .pure (.running (withFrames_alike hm
        (.cons (hcaller.pushResult hcaller.stack hv hrest) hothers)))
  | thunk chain =>
    -- a chain may go on with a function, in a frame of its own
    refine (Mirrors.ofEval (settle_mirrors hE fuel chain hv)).outcome.bind
      fun σ hρσ entered entered' hentered => ?_
    have hfs := Frames.mono hρσ hfs
    have hm := withFrames_alike (hm.mono hρσ) hfs
    cases hentered with
    | error stop => exact halt_mirrors hE hm fuel stop
    | ok h =>
      cases h with
      | none => exact .pure (.running hm)
      | some hf => exact .pure (.running (withFrames_alike hm (.cons hf hfs)))

/-- One turn of alike machines goes on alike. -/
theorem turn_mirrors (fuel : Nat) :
    Mirrors Machine.Round.Alike ρ (m.turn E fuel) (m'.turn E fuel) := by
  have hframes := hm.frames
  unfold Machine.turn
  generalize m.frames = fs, m'.frames = fs' at hframes ⊢
  cases hframes with
  | nil => exact abandon_mirrors hm .noFrame
  | cons hf hbelow =>
    refine (advance_mirrors hE hf fuel).outcome.bind fun σ hρσ flow flow' hflow => ?_
    have hm := hm.mono hρσ
    have hbelow := Frames.mono hρσ hbelow
    cases hflow with
    | error stop => exact halt_mirrors hE hm fuel stop
    | ok h =>
      cases h with
      | next hg =>
        exact .pure (.running (withFrames_alike hm
          (.cons { hg with pc := congrArg (· + 1) hg.pc } hbelow)))
      | stay hg => exact .pure (.running (withFrames_alike hm (.cons hg hbelow)))
      | jump hg target =>
        exact .pure (.running (withFrames_alike hm (.cons { hg with pc := rfl } hbelow)))
      | enter hcaller hcallee =>
        exact .pure (.running (withFrames_alike hm (.cons hcallee (.cons hcaller hbelow))))
      | leave hv => exact leave_mirrors hE hm fuel (hf.kind.mono hρσ) hbelow hv

/-- One round of alike machines goes on or ends alike. -/
theorem round_mirrors (fuel : Nat) :
    Mirrors Machine.Round.Alike ρ (m.round E fuel) (m'.round E fuel) := by
  unfold Machine.round
  rw [hm.stepLimit, hm.steps]
  split
  · exact abandon_mirrors hm _
  · refine Mirrors.countInstruction.bind_same fun σ hρσ _ => ?_
    have hcounted : Machine.Alike σ ⟨m.frames, m'.steps + 1, m'.stepLimit⟩
        ⟨m'.frames, m'.steps + 1, m'.stepLimit⟩ :=
      ⟨Frames.mono hρσ hm.frames, rfl, rfl⟩
    exact turn_mirrors hE hcounted fuel

omit hm in
/-- How a run ended, and the machine then. -/
abbrev Executed (ρ : Renaming) (r r' : Machine.Exit × Machine) : Prop :=
  r.1.Alike ρ r'.1 ∧ r.2.Alike ρ r'.2

/-- Runs of alike machines end alike. -/
theorem execute_mirrors (fuel : Nat) :
    Mirrors Executed ρ (m.execute E fuel) (m'.execute E fuel) := by
  induction fuel generalizing ρ m m' with
  | zero => exact .throw _
  | succ fuel ih =>
    refine (round_mirrors hE hm fuel).bind fun σ hρσ r r' hr => ?_
    cases hr with
    | running hm => exact ih hm
    | ended he hm => exact .pure ⟨he, hm⟩

omit hm in
/-- The result of a run, and the machine then. -/
abbrev Invoked (ρ : Renaming) (r r' : Except Interrupt Value × Machine) : Prop :=
  Mirrors.Ended Value.Alike ρ r.1 r'.1 ∧ r.2.Alike ρ r'.2

/-- Alike machines that start the same chunk with alike locals end alike. -/
theorem invoke_mirrors (fuel : Nat) (program : Program) (chunk : Nat) {locals locals' : List Value}
    (hlocals : Values ρ locals locals') :
    Mirrors Invoked ρ (m.invoke E fuel program chunk locals)
      (m'.invoke E fuel program chunk locals') := by
  refine Mirrors.context.bind_same fun σ hρσ c => ?_
  have hm := hm.mono hρσ
  split
  · exact .pure ⟨.error _, hm⟩
  · have henter := FrameKind.Alike.entry.enter? program chunk (Values.mono hρσ hlocals)
    generalize Frame.enter? program chunk locals .entry = f,
      Frame.enter? program chunk locals' .entry = f' at henter ⊢
    cases henter with
    | none => exact (Mirrors.onContext _).bind_same fun _ hστ _ => .pure ⟨.error _, hm.mono hστ⟩
    | some hf =>
      refine (execute_mirrors hE (withFrames_alike hm (.cons hf hm.frames)) fuel).bind
        fun τ hστ r r' hr => ?_
      obtain ⟨exit, left⟩ := r
      obtain ⟨exit', left'⟩ := r'
      obtain ⟨hexit, hleft⟩ := hr
      cases hexit with
      | done hv => exact .pure ⟨.ok hv, hleft⟩
      | failed => exact .pure ⟨.error _, hleft⟩
      | aborted a =>
        exact (Mirrors.onContext _).bind_same fun _ hτυ _ => .pure ⟨.error _, hleft.mono hτυ⟩

end Machine

/-- A chunk run on a machine of its own with alike locals yields alike values. -/
theorem invokeChunk_mirrors (fuel : Nat) (program : Program) (chunk : Nat)
    {locals locals' : List Value} (hlocals : Values ρ locals locals') :
    Mirrors Value.Alike ρ (invokeChunk E fuel program chunk locals)
      (invokeChunk E fuel program chunk locals') := by
  have hstart : Machine.Alike ρ {} {} := ⟨.nil, rfl, rfl⟩
  refine (invoke_mirrors hE hstart fuel program chunk hlocals).bind fun σ _ r r' hr => ?_
  obtain ⟨result, left⟩ := r
  obtain ⟨result', left'⟩ := r'
  obtain ⟨hresult, hleft⟩ := hr
  cases hresult with
  | ok hv => exact .pure hv
  | error i => exact .throw i

/-! ### Operations -/

/-- A value and the arguments left for it. -/
abbrev Completed (ρ : Renaming) (r r' : Value × List Value) : Prop :=
  r.1.Alike ρ r'.1 ∧ Values ρ r.2 r'.2

/-- Alike applications come to alike values with alike arguments left. -/
theorem complete_mirrors (fuel : Nat) {a a' : Application} (ha : a.Alike ρ a') :
    Mirrors Completed ρ (a.complete E fuel) (a'.complete E fuel) := by
  cases ha with
  | value hv hrest => exact .pure ⟨hv, hrest⟩
  | enter program chunk hlocals hrest =>
    exact (invokeChunk_mirrors hE fuel program chunk hlocals).map fun _ hρσ _ _ hv =>
      ⟨hv, Values.mono hρσ hrest⟩

/-- Applying what was bound to the arguments left yields alike values. -/
theorem applyFrom_mirrors (fuel : Nat) {a a' : Application} (ha : a.Alike ρ a') :
    Mirrors Value.Alike ρ (applyFrom E fuel a) (applyFrom E fuel a') := by
  induction fuel generalizing ρ a a' with
  | zero => exact .throw _
  | succ fuel ih =>
    refine (complete_mirrors hE fuel ha).bind fun σ hρσ r r' hr => ?_
    obtain ⟨v, rest⟩ := r
    obtain ⟨v', rest'⟩ := r'
    obtain ⟨hv, hrest⟩ := hr
    dsimp only
    rw [Values.isEmpty_eq hrest]
    split
    · exact .pure hv
    · refine (hE σ _ _ (.force hv)).bind fun τ hστ callee callee' hcallee => ?_
      exact (bindValue_mirrors hE fuel hcallee (Values.mono hστ hrest)).bind fun _ _ _ _ ha => ih ha

/-- Alike functions applied to alike arguments yield alike values. -/
theorem applyFunction_mirrors (fuel : Nat) {f f' : Ref .function} (hf : ρ.Functions f f')
    {args args' : List Value} (hargs : Values ρ args args') :
    Mirrors Value.Alike ρ (applyFunction E fuel f args) (applyFunction E fuel f' args') :=
  (bind_mirrors hE fuel hf hargs).bind fun _ _ _ _ ha => applyFrom_mirrors hE fuel ha

/-- Alike computations behind thunks yield alike values. -/
theorem deferredRun_mirrors (fuel : Nat) {d d' : Deferred} (hd : d.Alike ρ d') :
    Mirrors Value.Alike ρ (d.run E fuel) (d'.run E fuel) := by
  cases hd with
  | native hcode => exact .withMode .eager fun σ hρσ => hostCode_mirrors hE hcode hρσ
  | call hf => exact applyFunction_mirrors hE fuel hf .nil

/-- Evaluating the same thunk at once yields alike values. -/
theorem forceNow_mirrors (fuel : Nat) (waiting : List (Ref .thunk)) (t : Ref .thunk) :
    Mirrors Value.Alike ρ (forceNow E fuel waiting t) (forceNow E fuel waiting t) := by
  induction fuel generalizing ρ waiting t with
  | zero => exact .throw _
  | succ fuel ih =>
    refine (Mirrors.releasing waiting (.claim t)).bind fun σ hρσ claimed claimed' hclaimed => ?_
    cases hclaimed with
    | ready hv => exact .completeChain _ hv
    | run hd =>
      refine (Mirrors.releasing _ (deferredRun_mirrors hE fuel hd)).bind fun τ hστ v v' hv => ?_
      cases hv with
      | list h => exact .completeChain _ (.list h)
      | function h => exact .completeChain _ (.function h)
      | same h =>
        split
        · exact ih _ _
        · exact .completeChain _ (.same h)

/-- Forcing the same thunk in the same mode yields alike values. -/
theorem forceThunk_mirrors (fuel : Nat) (t : Ref .thunk) :
    Mirrors Value.Alike ρ (forceThunk E fuel t) (forceThunk E fuel t) := by
  refine .heap_bind fun h h' hh => ?_
  generalize h.memo? t = v, h'.memo? t = v', hh.memo? t = hv
  cases hv with
  | some hv => exact .pure hv
  | none =>
    refine Mirrors.context.bind_same fun σ _ c => ?_
    split
    · exact forceNow_mirrors hE fuel [] t
    · exact .suspend t

/-- Forcing alike values to the end yields alike values. -/
theorem forceFrom_mirrors (fuel : Nat) {v v' : Value} (hv : v.Alike ρ v') :
    Mirrors Value.Alike ρ (forceFrom E fuel v) (forceFrom E fuel v') := by
  induction fuel generalizing ρ v v' with
  | zero => exact .throw _
  | succ fuel ih =>
    cases hv with
    | list h => exact .pure (.list h)
    | function h => exact .pure (.function h)
    | same h =>
      simp only [forceFrom]
      split
      · exact (forceThunk_mirrors hE fuel _).bind fun _ _ _ _ hv => ih hv
      · exact .pure (.same h)

/-- Forcing alike values in alike contexts yields alike values. -/
theorem force_mirrors (fuel : Nat) {v v' : Value} (hv : v.Alike ρ v') :
    Mirrors Value.Alike ρ (force E fuel v) (force E fuel v') :=
  Mirrors.ensureLive.bind_same fun _ hρσ _ => forceFrom_mirrors hE fuel (hv.mono hρσ)

/-- Alike callables applied to alike arguments have alike outcomes. -/
theorem call_mirrors (fuel : Nat) {callee callee' : Value} (hcallee : callee.Alike ρ callee')
    {args args' : List Value} (hargs : Values ρ args args') :
    Mirrors Value.Alike ρ (call E fuel callee args) (call E fuel callee' args') := by
  refine (force_mirrors hE fuel hcallee).bind fun σ hρσ callee callee' hcallee => ?_
  replace hargs := Values.mono hρσ hargs
  cases hcallee with
  | list h => exact .fail _
  | function hf => exact applyFunction_mirrors hE fuel hf hargs
  | @same callee h =>
    cases callee with
    | foreign g => exact foreignCall_mirrors g hargs
    | list _ | function _ => contradiction
    | _ => exact .fail _

/-- Alike operations have alike outcomes if the requests of host code have. -/
theorem perform_mirrors (fuel : Nat) {o o' : Operation} (ho : o.Alike ρ o') :
    Mirrors Value.Alike ρ (perform E fuel o) (perform E fuel o') := by
  have hev : Evaluator.Impartial ⟨fuel, force E fuel, E⟩ := fun _ _ _ hv => force_mirrors hE fuel hv
  have hbool {x y : Eval Bool} (hxy : Mirrors Same ρ x y) :
      Mirrors Value.Alike ρ (x >>= fun b => pure (.bool b)) (y >>= fun b => pure (.bool b)) :=
    hxy.bind_same fun _ _ _ => .pure (.same rfl)
  have htext {x y : Eval String} (hxy : Mirrors Same ρ x y) :
      Mirrors Value.Alike ρ (x >>= Eval.makeStr) (y >>= Eval.makeStr) :=
    hxy.bind_same fun _ _ _ => .makeStr _
  cases ho with
  | force hx => exact force_mirrors hE fuel hx
  | binary op hl hr => exact binary_mirrors hev op hl hr
  | unary op hx => exact unary_mirrors hev op hx
  | equal hl hr => exact hbool (equal_mirrors hev hl hr)
  | notEqual hl hr => exact (equal_mirrors hev hl hr).bind_same fun _ _ _ => .pure (.same rfl)
  | length hx => exact length_mirrors hev hx
  | get hx hkey => exact getValue_mirrors hev hx hkey
  | set hx hkey hitem => exact setValue_mirrors hev hx hkey hitem
  | head hx => exact head_mirrors hev hx
  | tail hx => exact tail_mirrors hev hx
  | isNil hx => exact hbool (isNil_mirrors hev hx)
  | nilOf hx => exact nilOf_mirrors hev hx
  | generate hacc hitem => exact generate_mirrors hev hacc hitem
  | finalize hacc => exact finalize_mirrors hev hacc
  | tagOf hx => exact tagOf_mirrors hev hx
  | untag hx => exact untag_mirrors hev hx
  | render hx format => exact htext (render_mirrors hev format hx)
  | renderAs hx spec => exact htext (renderAs_mirrors hev hx spec)
  | convert hx target => exact convert_mirrors hev hx target
  | read text target => exact readValue_mirrors text target
  | typeOf hx => exact typeOf_mirrors hev hx
  | call hcallee hargs => exact call_mirrors hE fuel hcallee hargs

end Engine

/-- The engine of a level is impartial. -/
theorem engine_mirrors (level : Nat) : (engine level).Impartial := by
  induction level with
  | zero => exact fun _ _ _ _ => .throw _
  | succ level ih => exact fun _ _ _ ho => perform_mirrors ih level ho

/-- The evaluator of every level treats alike values alike. -/
theorem evaluator_mirrors (level : Nat) : (evaluator level).Impartial :=
  fun ρ _ _ hv => engine_mirrors level ρ _ _ (.force hv)

end LazyMachine
