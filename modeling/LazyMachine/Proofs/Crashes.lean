import LazyMachine.Proofs.Interrupts
import LazyMachine.Proofs.Positions
import LazyMachine.Proofs.Placement

/-!
# Runs that do not crash

The machine crashes where a count leaves its range: one is added to the number of arguments of a
call, which must stay a word, and to the slot of a local that is stored behind the locals there are,
which must stay a length that an array can have. The slots and numbers that the code names are all
that can do this, since the arguments left by a call are some of those it was given. Besides,
showing a floating-point number crashes in a wide format, which is that of the context or one that
host code names.

`InWord` says of programs, functions, frames and so on that the counts in them leave room for one
more, of host code that it does not crash by itself, and of a world that it shows values in no wide
format. `Eval.Safe P x` says that `x` keeps the world in word, does not crash and yields what has
`P`; a discipline would not do, since it leaves open what happens on a crash. There is one lemma for
each function of the machine and of the engine; `engine_safe` ties the knot, and `run_ends` states
what a run may end with.
-/

namespace LazyMachine

variable {α β : Type}

/-! ### Counts with room for one more -/

/-- The slot or number that the instruction adds one to leaves room for it. -/
def Instr.InWord : Instr → Prop
  | .store slot => slot + 1 < Word.arrayBound
  | .call count => count + 1 < Word.bound
  | _ => True

/-- A slot or a number is compared with its bound. -/
instance (instr : Instr) : Decidable instr.InWord := by
  unfold Instr.InWord
  split <;> infer_instance

/-- All instructions of the program are in word. -/
def Program.InWord (p : Program) : Prop :=
  ∀ c ∈ p.chunks, ∀ instr ∈ c.code, instr.InWord

/-- Every instruction is looked at. -/
instance (p : Program) : Decidable p.InWord := by
  unfold Program.InWord
  infer_instance

/-- The code never crashes by itself and shows nothing in a wide format, nor does what it makes of
other code. -/
def HostCode.Steady : HostCode → Prop
  | .done _ => True
  | .stop i => i ≠ .crashed
  | .fail _ => True
  | .perform o next => ¬ o.Wide ∧ ∀ v, (next v).Steady
  | .readVariable _ next => ∀ v, (next v).Steady
  | .count _ next => next.Steady
  | .latch _ next => ∀ b, (next b).Steady
  | .makeList _ next => ∀ v, (next v).Steady
  | .makeThunk body next => body.Steady ∧ ∀ v, (next v).Steady
  | .makeFunction _ _ body next => (∀ args, (body args).Steady) ∧ ∀ v, (next v).Steady
  | .makeNaturals _ next => ∀ v, (next v).Steady

/-- The host code of the computation is steady. -/
abbrev Deferred.Steady (d : Deferred) : Prop :=
  d.Within HostCode.Steady

/-- The host code of the thunk is steady. -/
abbrev Thunk.Steady (t : Thunk) : Prop :=
  t.Within HostCode.Steady

/-- The body is in word. Overload tables, which no code makes, are left out. -/
def Function.InWord (f : Function) : Prop :=
  match f.body with
  | .native code => ∀ args, (code args).Steady
  | .code program _ _ => program.InWord
  | .overloaded _ => False

/-- All functions of the heap are in word, and the host code behind its thunks does not crash. -/
def Heap.InWord (h : Heap) : Prop :=
  h.Each Thunk.Steady Function.InWord

namespace Heap.InWord

variable {h : Heap}

/-- The host code behind a thunk does not crash by itself. -/
theorem thunk (hh : h.InWord) (t : Ref .thunk) : (h.thunk t).Steady :=
  Each.thunk hh trivial t

/-- Every function of a heap in word is in word. -/
theorem function (hh : h.InWord) (f : Ref .function) : (h.function f).InWord :=
  Each.function hh (fun _ => trivial) f

/-- Giving a chain back keeps the heap in word. -/
theorem releaseChain (hh : h.InWord) (chain : List (Ref .thunk)) : (h.releaseChain chain).InWord :=
  Each.releaseChain hh trivial (fun _ hd => hd) chain

/-- Completing a chain keeps the heap in word. -/
theorem completeChain (hh : h.InWord) (chain : List (Ref .thunk)) (v : Value) :
    (h.completeChain chain v).2.InWord :=
  Each.completeChain hh (fun _ => trivial) chain v

end Heap.InWord

/-- An empty heap is in word. -/
theorem Heap.inWord_empty : ({} : Heap).InWord where
  thunks _ _ ht := by simp at ht
  functions _ _ hf := by simp at hf

/-- The heap is in word, and the format of the context is not wide. -/
structure World.InWord (w : World) : Prop where
  heap : w.heap.InWord
  format : ¬ w.context.format.Wide

/-- At most `n` arguments are left, and code that is entered is in word. -/
def Application.InWord (n : Nat) : Application → Prop
  | .value _ rest => rest.length ≤ n
  | .enter program _ _ rest => program.InWord ∧ rest.length ≤ n

/-- The program of the frame is in word, and so is the number of arguments of a call that is pending
in it or will be with its result. -/
structure Frame.InWord (f : Frame) : Prop where
  program : f.program.InWord
  pending : ∀ count ∈ f.pendingCall, count + 1 < Word.bound
  rest : ∀ rest, f.kind = .call rest → rest.length + 1 < Word.bound

/-- The frames that follow are in word. -/
def Flow.InWord : Flow → Prop
  | .next f | .stay f | .jump f _ => f.InWord
  | .enter caller callee => caller.InWord ∧ callee.InWord
  | .leave _ => True

/-- The computation to be run, if there is one, is steady. -/
def Claim.Steady : Claim → Prop
  | .ready _ => True
  | .run d => d.Steady

/-- All frames of the machine are in word. -/
def Machine.InWord (m : Machine) : Prop :=
  ∀ f ∈ m.frames, f.InWord

/-- The machine is in word, if it goes on. -/
def Machine.Round.InWord : Machine.Round → Prop
  | .running m => m.InWord
  | .ended _ _ => True

/-! ### Composition -/

/-- A context is never crashed. -/
theorem Context.interrupt?_ne_crashed {c : Context} {i : Interrupt} (hc : c.interrupt? = some i) :
    i ≠ .crashed := by
  rcases c.interrupt?_regular hc with rfl | rfl <;> simp

/-- Taking the thunk that is waited on leaves the format as it is. -/
theorem Context.takePending_format (c : Context) : c.takePending.2.format = c.format := by
  unfold Context.takePending
  split <;> rfl

/-- On a world that is in word, the evaluation does not crash, leaves the world in word and yields
what has `P`. -/
def Eval.Safe (P : α → Prop) (x : Eval α) : Prop :=
  ∀ w : World, w.InWord → Leads x w fun r w' => w'.InWord ∧
    match r with
    | .ok a => P a
    | .error i => i ≠ .crashed

/-- The same of a step. -/
def Step.Safe (P : α → Prop) (x : Step α) : Prop :=
  ∀ w : World, w.InWord → Leads x w fun r w' => w'.InWord ∧
    match r with
    | .ok a => P a
    | .error stop => stop ≠ .interrupt .crashed

namespace Eval.Safe

variable {P P' : α → Prop} {Q : β → Prop} {x : Eval α}

theorem pure {a : α} (ha : P a) : (Pure.pure a : Eval α).Safe P :=
  fun _ hw => ⟨hw, ha⟩

theorem throw {i : Interrupt} (hi : i ≠ .crashed) : (MonadExcept.throw i : Eval α).Safe P :=
  fun _ hw => ⟨hw, hi⟩

theorem fail (e : RuntimeError) : (Eval.fail e : Eval α).Safe P :=
  fun _ hw => ⟨⟨hw.heap, hw.format⟩, by simp⟩

theorem heap : Eval.heap.Safe Heap.InWord :=
  fun _ hw => ⟨hw, hw.heap⟩

theorem context : Eval.context.Safe fun c => ¬ c.format.Wide :=
  fun _ hw => ⟨hw, hw.format⟩

theorem get : (MonadState.get : Eval World).Safe fun _ => True :=
  fun _ hw => ⟨hw, trivial⟩

theorem onHeap {f : Heap → α × Heap} (hf : ∀ h : Heap, h.InWord → (f h).2.InWord) :
    (Eval.onHeap f).Safe fun _ => True :=
  fun w hw => ⟨⟨hf w.heap hw.heap, hw.format⟩, trivial⟩

theorem onContext (f : Context → Context)
    (hf : ∀ c : Context, ¬ c.format.Wide → ¬ (f c).format.Wide := by exact fun _ h => h) :
    (Eval.onContext f).Safe fun _ => True :=
  fun w hw => ⟨⟨hw.heap, hf w.context hw.format⟩, trivial⟩

theorem onHost (f : Host → Host) : (Eval.onHost f).Safe fun _ => True :=
  fun _ hw => ⟨⟨hw.heap, hw.format⟩, trivial⟩

/-- Waiting on a thunk is safe. -/
theorem suspend (t : Ref .thunk) : (Eval.suspend t : Eval α).Safe P :=
  fun _ hw => ⟨⟨hw.heap, hw.format⟩, by simp⟩

theorem imp (hx : x.Safe P) (hP : ∀ a, P a → P' a) : x.Safe P' := by
  intro w hw
  refine (hx w hw).imp fun r w' h => ⟨h.1, ?_⟩
  cases r with
  | ok a => exact hP a h.2
  | error i => exact h.2

/-- Safe evaluations may follow each other. -/
theorem bind {f : α → Eval β} (hx : x.Safe P) (hf : ∀ a, P a → (f a).Safe Q) :
    (x >>= f).Safe Q := by
  intro w hw
  rw [leads_bind]
  refine (hx w hw).imp fun r w' h => ?_
  cases r with
  | ok a => exact hf a h.2 w' h.1
  | error i => exact h

/-- What handles an interrupt sees that it is no crash. -/
theorem tryCatch {f : Interrupt → Eval α} (hx : x.Safe P) (hf : ∀ i, i ≠ .crashed → (f i).Safe P) :
    (MonadExcept.tryCatch x f).Safe P := by
  intro w hw
  rw [leads_tryCatch]
  refine (hx w hw).imp fun r w' h => ?_
  cases r with
  | ok a => exact h
  | error i => exact hf i h.2 w' h.1

/-- The entry check is safe. -/
theorem ensureLive : Eval.ensureLive.Safe fun _ => True := by
  intro w hw
  simp only [Eval.ensureLive, leads_bind, leads_context]
  cases hc : w.context.interrupt? with
  | none => exact ⟨hw, trivial⟩
  | some i => exact ⟨hw, Context.interrupt?_ne_crashed hc⟩

/-- A safe evaluation is safe under another mode. -/
theorem withMode (hx : x.Safe P) (mode : ForceMode) : (LazyMachine.withMode mode x).Safe P := by
  refine .bind .context fun c _ => .bind (.onContext _) fun _ _ => ?_
  refine .bind (.tryCatch hx fun i hi => ?_) fun v hv => .bind (.onContext _) fun _ _ => .pure hv
  exact .bind (.onContext _) fun _ _ => .throw hi

/-- Giving a chain back after an interrupt is safe. -/
theorem releasing (hx : x.Safe P) (chain : List (Ref .thunk)) :
    (LazyMachine.releasing chain x).Safe P := by
  refine .tryCatch hx fun i hi => ?_
  exact .bind (.onHeap fun h hh => hh.releaseChain chain) fun _ _ => .throw hi

/-- A crash passes through an evaluation on a context of its own, so none is turned into a value. -/
theorem isolated (hx : x.Safe P) {own : Context} (hown : ¬ own.format.Wide) :
    (Eval.isolated own x).Safe fun _ => True := by
  intro w hw
  have h := hx { w with context := own } ⟨hw.heap, hown⟩
  simp only [Leads, Eval.isolated] at h ⊢
  cases hx : x { w with context := own } with
  | ok a w' =>
    rw [hx] at h
    exact ⟨⟨h.1.heap, hw.format⟩, trivial⟩
  | error i w' =>
    rw [hx] at h
    cases i with
    | crashed => exact absurd rfl h.2
    | exhausted => exact ⟨⟨h.1.heap, hw.format⟩, by simp⟩
    | failed | suspended => exact ⟨⟨h.1.heap, hw.format⟩, trivial⟩

end Eval.Safe

/-- What is composed of safe forces is safe, if it shows nothing in a wide format. -/
theorem Parallel.safe {wide : Prop} (hwide : ¬ wide) {ev ev' : Evaluator}
    (hforce : ∀ v, (ev.force v).Safe fun _ => True) {x y : Eval α}
    (hx : Parallel (.crashing wide) ev ev' x y) : x.Safe fun _ => True := by
  induction hx with
  | cut => exact .throw (by simp)
  | pure a => exact .pure trivial
  | fail e => exact .fail e
  | crash h => exact absurd h hwide
  | answer h => exact h.elim
  | live => exact .ensureLive
  | heap => exact Eval.Safe.heap.imp fun _ _ => trivial
  | add hf hfunctions =>
    exact .onHeap fun h hh => Heap.Each.congr hh (hf h).thunks (hfunctions h)
  | force v => exact hforce v
  | report e _ ih => exact .bind (ih.isolated Format.not_wide_default) fun o _ => .fail (e o)
  | bind _ _ ihx ihf => exact .bind ihx fun a _ => ihf a

theorem Parallel.safe_of_forceless {x : Eval α}
    (hx : ∀ ev : Evaluator, Parallel .none ev ev x x) : x.Safe fun _ => True :=
  (hx .spent).safe id fun _ => .throw (by simp)

namespace Step.Safe

variable {P P' : α → Prop} {Q : β → Prop} {x : Step α}

theorem pure {a : α} (ha : P a) : (Pure.pure a : Step α).Safe P :=
  fun _ hw => ⟨hw, ha⟩

theorem throw {stop : Stop} (hstop : stop ≠ .interrupt .crashed) :
    (MonadExcept.throw stop : Step α).Safe P :=
  fun _ hw => ⟨hw, hstop⟩

theorem abort (a : Abort) : (MonadExcept.throw (.abort a) : Step α).Safe P :=
  throw (by simp)

/-- A step made of a safe evaluation is safe. -/
theorem ofEval {x : Eval α} (hx : x.Safe P) : (Step.ofEval x).Safe P := by
  intro w hw
  rw [leads_ofEval]
  refine (hx w hw).imp fun r w' h => ?_
  cases r with
  | ok a => exact h
  | error i => exact ⟨h.1, by simpa using h.2⟩

/-- Safe steps may follow each other. -/
theorem bind {f : α → Step β} (hx : x.Safe P) (hf : ∀ a, P a → (f a).Safe Q) :
    (x >>= f).Safe Q := by
  intro w hw
  rw [leads_bind]
  refine (hx w hw).imp fun r w' h => ?_
  cases r with
  | ok a => exact hf a h.2 w' h.1
  | error stop => exact h

/-- A step that starts with an evaluation. -/
theorem bindEval {x : Eval α} {f : α → Step β} (hx : x.Safe P) (hf : ∀ a, P a → (f a).Safe Q) :
    (Step.ofEval x >>= f).Safe Q :=
  (ofEval hx).bind hf

/-- A safe step with a handler that is safe for every other stop is safe. -/
theorem tryCatch {f : Stop → Step α} (hx : x.Safe P)
    (hf : ∀ stop, stop ≠ .interrupt .crashed → (f stop).Safe P) :
    (MonadExcept.tryCatch x f).Safe P := by
  intro w hw
  rw [leads_tryCatch]
  refine (hx w hw).imp fun r w' h => ?_
  cases r with
  | ok a => exact h
  | error stop => exact hf stop h.2 w' h.1

/-- The outcome of a safe step is no crash. -/
theorem outcome (hx : x.Safe P) : x.outcome.Safe fun
    | .ok a => P a
    | .error _ => True := by
  intro w hw
  have h := hx w hw
  simp only [Leads, Step.outcome] at h ⊢
  cases hown : x w with
  | ok a w' =>
    rw [hown] at h
    exact h
  | error stop w' =>
    rw [hown] at h
    cases stop with
    | abort a => exact ⟨h.1, trivial⟩
    | interrupt i =>
      cases i with
      | failed => exact ⟨h.1, trivial⟩
      | suspended => exact ⟨h.1, trivial⟩
      | exhausted => exact ⟨h.1, by simp⟩
      | crashed => exact absurd rfl h.2

end Step.Safe

/-! ### Frames -/

/-- Another stack leaves a frame in word. -/
theorem Frame.InWord.withStack {f : Frame} (hf : f.InWord) (stack : List Value) :
    (f.withStack stack).InWord :=
  ⟨hf.program, hf.pending, hf.rest⟩

/-- A result is pushed with no more arguments than leave room for one more. -/
theorem Frame.InWord.pushResult {f : Frame} (hf : f.InWord) (base : List Value) (v : Value)
    {rest : List Value} (hrest : rest.length + 1 < Word.bound) :
    (f.pushResult base v rest).InWord := by
  unfold Frame.pushResult
  split
  · exact ⟨hf.program, hf.pending, hf.rest⟩
  · refine ⟨hf.program, ?_, hf.rest⟩
    rintro count ⟨⟩
    exact hrest

/-- A frame of a program in word starts in word if the pending call has few arguments. -/
theorem Frame.InWord.of_enter? {program : Program} {chunk : Nat} {locals : List Value}
    {kind : FrameKind} {f : Frame} (hf : Frame.enter? program chunk locals kind = some f)
    (hprogram : program.InWord) (hrest : ∀ rest, kind = .call rest → rest.length + 1 < Word.bound) :
    f.InWord := by
  unfold Frame.enter? at hf
  split at hf
  · cases hf
    exact ⟨hprogram, by simp, hrest⟩
  · cases hf

/-- The instruction that a frame executes is in word. -/
theorem Frame.InWord.instr {f : Frame} (hf : f.InWord) {instr : Instr}
    (hinstr : f.instr? = some instr) : instr.InWord := by
  obtain ⟨c, hc, hpc⟩ := Option.bind_eq_some_iff.mp hinstr
  exact hf.program c (Array.mem_of_getElem? hc) instr (Array.mem_of_getElem? hpc)

section Engine

variable {E : Engine} (hE : ∀ o : Operation, ¬ o.Wide → (E o).Safe fun _ => True)

include hE

/-! ### Host code and binding -/

/-- Host code that does not crash by itself does not crash through its requests. -/
theorem hostCode_safe {code : HostCode} (hcode : code.Steady) :
    (code.run E).Safe fun _ => True := by
  induction code with
  | done v => exact .pure trivial
  | stop i => exact .throw hcode
  | fail e => exact .fail e
  | perform o next ih => exact .bind (hE o hcode.1) fun v _ => ih v (hcode.2 v)
  | readVariable name next ih => exact .bind .get fun _ _ => ih _ (hcode _)
  | count t next ih => exact .bind (.onHost _) fun _ _ => ih hcode
  | latch i next ih =>
    exact .bind .get fun _ _ => .bind (.onHost _) fun _ _ => ih _ (hcode _)
  | makeList items next ih =>
    exact .bind (Parallel.safe_of_forceless fun _ => .makeList items) fun v _ => ih v (hcode v)
  | makeThunk body next _ ih =>
    have hmake : (Eval.makeThunk (.waiting (.native body))).Safe fun _ => True :=
      .bind (.onHeap fun h hh => Heap.Each.addThunk hh hcode.1) fun _ _ => .pure trivial
    exact .bind hmake fun v _ => ih v (hcode.2 v)
  | makeFunction name arity body next _ ih =>
    have hmake : (Eval.makeFunction ⟨name, arity, [], .native body⟩).Safe fun _ => True :=
      .bind (.onHeap fun h hh => Heap.Each.addFunction hh hcode.1) fun _ _ => .pure trivial
    exact .bind hmake fun v _ => ih v (hcode.2 v)
  | makeNaturals first next ih =>
    have hmake : (Eval.makeThunk (.waiting (.native
        (.count .runs (.makeNaturals (first + 1) .done))))).Safe fun _ => True :=
      .bind (.onHeap fun h hh => Heap.Each.addThunk hh fun _ => trivial) fun _ _ => .pure trivial
    refine .bind hmake fun tail _ => ?_
    exact .bind (.onHeap fun h hh => hh.congr rfl rfl) fun c _ => ih _ (hcode _)

/-- Binding leaves at most the arguments that it is given. -/
theorem bind_safe (fuel : Nat) (f : Ref .function) (args : List Value) :
    (bind E fuel f args).Safe (Application.InWord args.length) := by
  cases fuel with
  | zero => exact .throw (by simp)
  | succ fuel =>
    refine .bind .ensureLive fun _ _ => Eval.Safe.heap.bind fun h hh => ?_
    have hf := hh.function f
    have hdrop : (args.drop (h.function f).remaining).length ≤ args.length := by
      rw [List.length_drop]
      exact Nat.sub_le _ _
    dsimp only
    split
    · split
      · exact .pure (Nat.zero_le _)
      · have hmake : (Eval.makeFunction { h.function f with
            applied := (h.function f).applied ++ args }).Safe fun _ => True :=
          .bind (.onHeap fun h hh => Heap.Each.addFunction hh hf) fun _ _ => .pure trivial
        exact .bind hmake fun _ _ => .pure (Nat.zero_le _)
    · -- enough arguments: what each kind of body has in word decides
      unfold Function.InWord at hf
      split
      · next hbody =>
        rw [hbody] at hf
        exact .bind (hostCode_safe hE (hf _)) fun _ _ => .pure hdrop
      · next hbody =>
        rw [hbody] at hf
        exact .pure ⟨hf, hdrop⟩
      · next hbody =>
        rw [hbody] at hf
        exact hf.elim

/-- Binding the computation behind a thunk is safe and leaves no argument. -/
theorem deferredBind_safe (fuel : Nat) {d : Deferred} (hd : d.Steady) :
    (d.bind E fuel).Safe (Application.InWord 0) := by
  cases d with
  | native code =>
    exact .bind ((hostCode_safe hE hd).withMode .eager) fun _ _ => .pure (Nat.le_refl _)
  | call f => exact bind_safe hE fuel f []

/-- Binding a callee is safe and leaves at most the arguments given. -/
theorem bindValue_safe (fuel : Nat) (callee : Value) (args : List Value) :
    (bindValue E fuel callee args).Safe (Application.InWord args.length) := by
  unfold bindValue
  split
  · exact bind_safe hE fuel _ _
  · exact .bind (Parallel.safe_of_forceless fun _ => .foreignCall _ _) fun _ _ =>
      .pure (Nat.zero_le _)
  · exact .fail _

/-! ### Instructions -/

omit hE in
/-- Popping operands is safe and yields as many as were asked for. -/
theorem operands_safe (f : Frame) (n : Nat) :
    (f.operands n).Safe fun r => r.1.length = n := by
  unfold Frame.operands
  split
  · next hn =>
    refine .pure ?_
    rw [List.length_reverse, List.length_take_of_le hn]
  · exact .abort _

omit hE in
/-- One is added where there is room for it. -/
theorem increment_safe {bound n : Nat} (hn : n + 1 < bound) :
    (increment bound n).Safe (· = n + 1) := by
  rw [increment, if_pos hn]
  exact .pure rfl

omit hE in
/-- Receiving an application is safe and leaves caller and callee in word. -/
theorem receive_safe {f : Frame} (hf : f.InWord) (base : List Value) {a : Application} {n : Nat}
    (ha : a.InWord n) (hn : n + 1 < Word.bound) :
    (f.receive base a).Safe fun r => r.1.InWord ∧ ∀ callee ∈ r.2, callee.InWord := by
  unfold Frame.receive
  split
  · exact .pure ⟨hf.pushResult base _ (Nat.lt_of_le_of_lt (Nat.succ_le_succ ha) hn), by simp⟩
  · next program chunk locals rest =>
    split
    · next callee hcallee =>
      refine .pure ⟨hf.withStack base, ?_⟩
      rintro _ ⟨⟩
      refine .of_enter? hcallee ha.1 ?_
      rintro _ ⟨⟩
      exact Nat.lt_of_le_of_lt (Nat.succ_le_succ ha.2) hn
    · exact .abort _

/-- A call leaves fewer arguments than it takes operands, so they leave room for one more. -/
theorem apply_safe (fuel : Nat) {f : Frame} (hf : f.InWord) {count : Nat}
    (hcount : count + 1 < Word.bound) :
    (f.apply E fuel count).Safe fun r => r.1.InWord ∧ ∀ callee ∈ r.2, callee.InWord := by
  refine .bind (increment_safe hcount) fun need hneed => ?_
  refine .bind (operands_safe f need) fun (slots, base) hslots => ?_
  dsimp only
  split
  · exact .abort _
  · next callee args =>
    have hargs : args.length = count := Nat.succ.inj (hslots.trans hneed)
    refine .bindEval (hE _ id) fun callee _ => ?_
    refine .bindEval (bindValue_safe hE fuel callee args) fun a ha => ?_
    exact receive_safe hf base ha (hargs ▸ hcount)

omit hE in
/-- Capturing values is safe. -/
theorem capture_safe {f : Frame} (hf : f.InWord) (chunk captures : Nat) :
    (f.capture chunk captures).Safe fun _ => True := by
  refine .bind (operands_safe f captures) fun (values, base) _ => ?_
  dsimp only
  split
  · have hmake (g : Function) (hg : g.InWord) :
        (Eval.onHeap (·.addFunction g)).Safe fun _ => True :=
      .onHeap fun h hh => Heap.Each.addFunction hh hg
    exact .bindEval (hmake _ hf.program) fun g _ => .pure trivial
  · exact .abort _

/-- An operation on the top of the stack is safe if it does not show in a wide format. -/
theorem onTop_safe {f : Frame} (hf : f.InWord) {o : Value → Operation} (ho : ∀ x, ¬ (o x).Wide) :
    (f.onTop E o).Safe Flow.InWord := by
  unfold Frame.onTop
  split
  · exact .bindEval (hE _ (ho _)) fun v _ => .pure (hf.withStack _)
  · exact .abort _

/-- An operation on the two values on top is safe if it does not show in a wide format. -/
theorem onTwo_safe {f : Frame} (hf : f.InWord) {o : Value → Value → Operation}
    (ho : ∀ x y, ¬ (o x y).Wide) : (f.onTwo E o).Safe Flow.InWord := by
  unfold Frame.onTwo
  split
  · exact .bindEval (hE _ (ho _ _)) fun v _ => .pure (hf.withStack _)
  · exact .abort _

/-- An instruction does not crash if its counts are in word. -/
theorem step_safe (fuel : Nat) {f : Frame} (hf : f.InWord) {instr : Instr} (hinstr : instr.InWord) :
    (f.step E fuel instr).Safe Flow.InWord := by
  have forceless {α : Type} {x : Eval α} (hx : ∀ ev : Evaluator, Parallel .none ev ev x x) :
      x.Safe fun _ => True := Parallel.safe_of_forceless hx
  cases instr with
  | push literal =>
    exact .bindEval (forceless fun _ => .literal literal) fun v _ => .pure (hf.withStack _)
  | load | pop | dup | swap =>
    dsimp only [Frame.step]
    split
    · exact .pure (hf.withStack _)
    · exact .abort _
  | store slot =>
    dsimp only [Frame.step]
    split
    · -- one is added only to a slot behind the locals there are
      split
      · exact .bind (increment_safe hinstr) fun _ _ => .pure ⟨hf.program, hf.pending, hf.rest⟩
      · exact .pure ⟨hf.program, hf.pending, hf.rest⟩
    · exact .abort _
  | binary | index | cons => exact onTwo_safe hE hf fun _ _ => id
  | unary | length | head | tail | isNil | empty | tag | untag | convert | force =>
    exact onTop_safe hE hf fun _ => id
  | render => exact .bindEval .context fun c hc => onTop_safe hE hf fun _ => hc
  | setIndex =>
    dsimp only [Frame.step]
    split
    · exact .bindEval (hE _ id) fun v _ => .pure (hf.withStack _)
    · exact .abort _
  | makeList count =>
    refine .bind (operands_safe f count) fun (items, base) _ => ?_
    exact .bindEval (forceless fun _ => .makeList items) fun v _ => .pure (hf.withStack _)
  | makeRecord names =>
    refine .bind (operands_safe f names.length) fun (items, base) _ => ?_
    exact .bindEval (forceless fun _ => .makeRecord _) fun v _ => .pure (hf.withStack _)
  | makeVariant tag =>
    dsimp only [Frame.step]
    split
    · exact .bindEval (forceless fun _ => .makeVariant tag _) fun v _ => .pure (hf.withStack _)
    · exact .abort _
  | delay chunk captures =>
    refine .bind (capture_safe hf chunk captures) fun (g, base) _ => ?_
    have hdelay : (Eval.makeThunk (.waiting (.call g))).Safe fun _ => True :=
      .bind (.onHeap fun h hh => Heap.Each.addThunk hh trivial) fun _ _ => .pure trivial
    exact .bindEval hdelay fun v _ => .pure (hf.withStack _)
  | closure chunk captures =>
    exact .bind (capture_safe hf chunk captures) fun (g, base) _ => .pure (hf.withStack _)
  | call count =>
    refine .bind (apply_safe hE fuel hf hinstr) fun (caller, callee) h => ?_
    cases callee with
    | none => exact .pure h.1
    | some callee => exact .pure ⟨⟨h.1.program, h.1.pending, h.1.rest⟩, h.2 callee rfl⟩
  | jump target => exact .pure hf
  | jumpIfFalse target =>
    dsimp only [Frame.step]
    split
    · refine .bindEval (hE _ id) fun v _ => ?_
      split
      · exact .pure (hf.withStack _)
      · exact .pure (hf.withStack _)
      · exact .ofEval (.fail _)
    · exact .abort _
  | attempt | endAttempt => exact .pure ⟨hf.program, hf.pending, hf.rest⟩
  | ret => exact .pure trivial

/-- The same of whatever the frame does next. -/
theorem advance_safe (fuel : Nat) {f : Frame} (hf : f.InWord) :
    (f.advance E fuel).Safe Flow.InWord := by
  unfold Frame.advance
  split
  · next count hcount =>
    -- the call is not pending any more while it is made
    have hcalm : ({ f with pendingCall := none } : Frame).InWord := ⟨hf.program, by simp, hf.rest⟩
    refine .bind (apply_safe hE fuel hcalm (hf.pending count hcount)) fun (caller, callee) h => ?_
    cases callee with
    | none => exact .pure h.1
    | some callee => exact .pure ⟨h.1, h.2 callee rfl⟩
  · split
    · next instr hinstr => exact step_safe hE fuel hf (hf.instr hinstr)
    · exact .pure trivial

/-! ### Driving thunks -/

omit hE in
/-- A claim yields a computation that does not crash by itself. -/
theorem claim_safe (t : Ref .thunk) : (claim t).Safe Claim.Steady := by
  refine Eval.Safe.heap.bind fun h hh => ?_
  have ht := hh.thunk t
  cases hs : h.thunk t with
  | valued _ v => exact .pure trivial
  | waiting d =>
    rw [hs] at ht
    exact .bind (.onHeap fun h hh => Heap.Each.setThunk hh t ht) fun _ _ => .pure ht
  | running d => exact .fail _
  | spent => exact .fail _

omit hE in
/-- Completing a chain is safe. -/
theorem completeChain_safe (chain : List (Ref .thunk)) (v : Value) :
    (completeChain chain v).Safe fun _ => True :=
  .onHeap fun _ hh => hh.completeChain chain v

omit hE in
/-- Giving a chain back is safe. -/
theorem releaseChain_safe (chain : List (Ref .thunk)) :
    (releaseChain chain).Safe fun _ => True :=
  .onHeap fun _ hh => hh.releaseChain chain

/-- Driving a thunk is safe and enters frames in word. -/
theorem drive_safe (fuel : Nat) (waiting : List (Ref .thunk)) (t : Ref .thunk) :
    (drive E fuel waiting t).Safe fun entered => ∀ f ∈ entered, f.InWord := by
  induction fuel generalizing waiting t with
  | zero => exact .throw (by simp)
  | succ fuel ih =>
    refine .bind ((claim_safe t).releasing waiting) fun claimed hclaimed => ?_
    cases claimed with
    | ready v => exact .bind (completeChain_safe _ v) fun _ _ => .pure (by simp)
    | run d =>
      refine .bind ((deferredBind_safe hE fuel hclaimed).releasing _) fun a ha => ?_
      cases a with
      | enter program chunk locals rest =>
        dsimp only
        split
        · next f hf =>
          refine .pure ?_
          rintro _ ⟨⟩
          exact .of_enter? hf ha.1 (by rintro _ ⟨⟩)
        · exact .bind (releaseChain_safe _) fun _ _ => .fail _
      | value v rest =>
        refine .bind (Parallel.safe_of_forceless fun _ => .resolve v) fun u _ => ?_
        split
        · -- the value is a thunk that is not forced yet, and is driven with the rest waiting for it
          exact ih _ _
        · exact .bind (completeChain_safe _ _) fun _ _ => .pure (by simp)

/-- Settling a chain is safe and enters frames in word. -/
theorem settle_safe (fuel : Nat) (chain : List (Ref .thunk)) (v : Value) :
    (settle E fuel chain v).Safe fun entered => ∀ f ∈ entered, f.InWord := by
  refine .bind (Parallel.safe_of_forceless fun _ => .resolve v) fun u _ => ?_
  split
  · exact drive_safe hE fuel chain _
  · exact .bind (completeChain_safe _ _) fun _ _ => .pure (by simp)

/-- Waking up from a suspension is safe and enters frames in word. -/
theorem resume_safe (fuel : Nat) :
    (resume E fuel).Safe fun entered => ∀ f ∈ entered, f.InWord := by
  induction fuel with
  | zero => exact .throw (by simp)
  | succ fuel ih =>
    refine .bindEval .context fun c hc => ?_
    have hformat : ¬ c.takePending.2.format.Wide := by rwa [Context.takePending_format]
    refine .bindEval (.onContext _ fun _ _ => hformat) fun _ _ => ?_
    split
    · exact .abort _
    · refine .tryCatch (.ofEval (drive_safe hE fuel [] _)) fun stop hstop => ?_
      split
      · exact ih
      · exact .throw hstop

/-! ### Rounds -/

omit hE in
/-- A handler goes on in its frame, which has no call pending then. -/
theorem unwind_safe {frames : List Frame} (hframes : ∀ f ∈ frames, f.InWord) :
    (unwind frames).Safe fun r => ∀ f ∈ r.2, f.InWord := by
  induction frames with
  | nil => exact .pure hframes
  | cons f below ih =>
    obtain ⟨hf, hbelow⟩ := List.forall_mem_cons.mp hframes
    unfold unwind
    split
    · refine .bind .context fun c _ => .bind (.onContext _) fun _ _ => ?_
      have herror (e : Option RuntimeError) : (errorValue e).Safe fun _ => True := by
        refine Parallel.safe_of_forceless fun _ => ?_
        refine .bind (.makeStr _) fun kind => .bind (.makeStr _) fun op => ?_
        refine .bind (.makeStr _) fun message => .bind (.makeRecord _) fun record => ?_
        exact .makeVariant _ record
      refine .bind (herror _) fun v _ => .pure (List.forall_mem_cons.mpr ⟨?_, hbelow⟩)
      exact ⟨hf.program, by simp [Frame.handle], hf.rest⟩
    · split
      · exact .pure hbelow
      · exact .bind (releaseChain_safe _) fun _ _ => ih hbelow

omit hE in
/-- Giving a machine up is safe. -/
theorem abandon_safe (m : Machine) (a : Abort) : (m.abandon a).Safe Machine.Round.InWord :=
  .bind (releaseChain_safe _) fun _ _ => .pure trivial

omit hE in
/-- Recovering from a stop is safe. -/
theorem recover_safe {m : Machine} (hm : m.InWord) (stop : Stop) :
    (m.recover stop).Safe Machine.Round.InWord := by
  cases stop with
  | abort a => exact abandon_safe m a
  | interrupt i =>
    refine .bind (unwind_safe hm) fun (handled, frames) hframes => ?_
    cases handled with
    | true => exact .pure hframes
    | false => exact .pure trivial

/-- Stopping is safe. -/
theorem halt_safe (fuel : Nat) {m : Machine} (hm : m.InWord) (stop : Stop) :
    (m.halt E fuel stop).Safe Machine.Round.InWord := by
  unfold Machine.halt
  split
  · refine .bind (resume_safe hE fuel).outcome fun r hr => ?_
    match r with
    | .ok none => exact .pure hm
    | .ok (some f) => exact .pure (List.forall_mem_cons.mpr ⟨hr f rfl, hm⟩)
    | .error stop => exact recover_safe hm stop
  · exact recover_safe hm _

/-- Leaving a frame is safe if the frames below are in word. -/
theorem leave_safe (fuel : Nat) (m : Machine) {kind : FrameKind} {below : List Frame}
    (hkind : ∀ rest, kind = .call rest → rest.length + 1 < Word.bound)
    (hbelow : ∀ f ∈ below, f.InWord) (v : Value) :
    (m.leave E fuel kind below v).Safe Machine.Round.InWord := by
  unfold Machine.leave
  split
  · exact .pure trivial
  · next rest =>
    split
    · next caller others =>
      obtain ⟨hcaller, hothers⟩ := List.forall_mem_cons.mp hbelow
      have hpushed := hcaller.pushResult caller.stack v (hkind rest rfl)
      exact .pure (List.forall_mem_cons.mpr ⟨hpushed, hothers⟩)
    · exact abandon_safe _ _
  · next chain =>
    refine .bind (Step.Safe.ofEval (settle_safe hE fuel chain v)).outcome fun r hr => ?_
    match r with
    | .ok none => exact .pure hbelow
    | .ok (some f) => exact .pure (List.forall_mem_cons.mpr ⟨hr f rfl, hbelow⟩)
    | .error stop =>
      have hleft : (m.withFrames below).InWord := hbelow
      exact halt_safe hE fuel hleft stop

/-- A turn of a machine in word is safe. -/
theorem turn_safe (fuel : Nat) {m : Machine} (hm : m.InWord) :
    (m.turn E fuel).Safe Machine.Round.InWord := by
  unfold Machine.turn
  split
  · exact abandon_safe m _
  · next f below hframes =>
    have hall : ∀ g ∈ f :: below, g.InWord := hframes ▸ hm
    obtain ⟨hf, hbelow⟩ := List.forall_mem_cons.mp hall
    have hmoved {g : Frame} (hg : g.InWord) (pc : Nat) : ({ g with pc } : Frame).InWord :=
      ⟨hg.program, hg.pending, hg.rest⟩
    refine .bind (advance_safe hE fuel hf).outcome fun r hr => ?_
    match r with
    | .ok (.next g) => exact .pure (List.forall_mem_cons.mpr ⟨hmoved hr _, hbelow⟩)
    | .ok (.stay g) => exact .pure (List.forall_mem_cons.mpr ⟨hr, hbelow⟩)
    | .ok (.jump g target) => exact .pure (List.forall_mem_cons.mpr ⟨hmoved hr _, hbelow⟩)
    | .ok (.enter caller callee) =>
      exact .pure (List.forall_mem_cons.mpr ⟨hr.2, List.forall_mem_cons.mpr ⟨hr.1, hbelow⟩⟩)
    | .ok (.leave v) => exact leave_safe hE fuel m hf.rest hbelow v
    | .error stop => exact halt_safe hE fuel hm stop

/-- A round keeps the frames in word. -/
theorem round_safe (fuel : Nat) {m : Machine} (hm : m.InWord) :
    (m.round E fuel).Safe Machine.Round.InWord := by
  unfold Machine.round
  split
  · exact abandon_safe m _
  · -- counting changes neither the frames nor the heap
    have hcount : Eval.countInstruction.Safe fun _ => True :=
      fun _ hw => ⟨⟨hw.heap, hw.format⟩, trivial⟩
    have hcounted : ({ m with steps := m.steps + 1 } : Machine).InWord := hm
    exact .bind hcount fun _ _ => turn_safe hE fuel hcounted

/-- A run of a machine in word does not crash. -/
theorem execute_safe (fuel : Nat) {m : Machine} (hm : m.InWord) :
    (m.execute E fuel).Safe fun _ => True := by
  induction fuel generalizing m with
  | zero => exact .throw (by simp)
  | succ fuel ih =>
    refine .bind (round_safe hE fuel hm) fun r hr => ?_
    cases r with
    | running m => exact ih hr
    | ended e m => exact .pure trivial

omit hE in
/-- A machine stays in word with a frame for a chunk of a program that is. -/
theorem Machine.InWord.enter {m : Machine} (hm : m.InWord) {program : Program}
    (hprogram : program.InWord) {chunk : Nat} {locals : List Value} {f : Frame}
    (hf : Frame.enter? program chunk locals .entry = some f) :
    (m.withFrames (f :: m.frames)).InWord :=
  List.forall_mem_cons.mpr ⟨.of_enter? hf hprogram (by rintro _ ⟨⟩), hm⟩

/-- A program in word runs on a machine of its own without a crash. -/
theorem invokeChunk_safe (fuel : Nat) {program : Program} (hprogram : program.InWord) (chunk : Nat)
    (locals : List Value) : (invokeChunk E fuel program chunk locals).Safe fun _ => True := by
  have hinvoke : (Machine.invoke E fuel {} program chunk locals).Safe fun r =>
      r.1 ≠ .error .crashed := by
    refine .bind .context fun c _ => ?_
    split
    · next i hi =>
      refine .pure ?_
      rintro ⟨⟩
      exact Context.interrupt?_ne_crashed hi rfl
    · split
      · exact .bind (.onContext _) fun _ _ => .pure (by simp)
      · next f hf =>
        have hempty : ({} : Machine).InWord := by simp [Machine.InWord]
        refine .bind (execute_safe hE fuel (hempty.enter hprogram hf)) fun r _ => ?_
        split
        · exact .pure (by simp)
        · exact .pure (by simp)
        · exact .bind (.onContext _) fun _ _ => .pure (by simp)
  refine .bind hinvoke fun r hr => ?_
  split
  · exact .pure trivial
  · exact .throw (by simpa using hr)

/-! ### Application -/

/-- Applying what was bound is safe. -/
theorem applyFrom_safe (fuel : Nat) {n : Nat} {a : Application} (ha : a.InWord n) :
    (applyFrom E fuel a).Safe fun _ => True := by
  induction fuel generalizing n a with
  | zero => exact .throw (by simp)
  | succ fuel ih =>
    have hcomplete : (a.complete E fuel).Safe fun _ => True := by
      cases a with
      | value v rest => exact .pure trivial
      | enter program chunk locals rest =>
        exact .bind (invokeChunk_safe hE fuel ha.1 chunk locals) fun _ _ => .pure trivial
    refine .bind hcomplete fun (v, rest) _ => ?_
    dsimp only
    -- however many arguments are left, applying values by themselves adds nothing to their number
    split
    · exact .pure trivial
    · refine .bind (hE _ id) fun callee _ => ?_
      exact .bind (bindValue_safe hE fuel callee rest) fun a ha => ih ha

/-- Applying a function is safe. -/
theorem applyFunction_safe (fuel : Nat) (f : Ref .function) (args : List Value) :
    (applyFunction E fuel f args).Safe fun _ => True :=
  .bind (bind_safe hE fuel f args) fun _ ha => applyFrom_safe hE fuel ha

/-- Running the computation behind a thunk is safe. -/
theorem deferredRun_safe (fuel : Nat) {d : Deferred} (hd : d.Steady) :
    (d.run E fuel).Safe fun _ => True := by
  cases d with
  | native code => exact (hostCode_safe hE hd).withMode .eager
  | call f => exact applyFunction_safe hE fuel f []

/-- Evaluating a thunk at once is safe. -/
theorem forceNow_safe (fuel : Nat) (waiting : List (Ref .thunk)) (t : Ref .thunk) :
    (forceNow E fuel waiting t).Safe fun _ => True := by
  induction fuel generalizing waiting t with
  | zero => exact .throw (by simp)
  | succ fuel ih =>
    refine .bind ((claim_safe t).releasing waiting) fun claimed hclaimed => ?_
    cases claimed with
    | ready v => exact completeChain_safe waiting v
    | run d =>
      refine .bind ((deferredRun_safe hE fuel hclaimed).releasing _) fun v _ => ?_
      split
      · exact ih _ _
      · exact completeChain_safe _ _

/-- Forcing a thunk in either mode is safe. -/
theorem forceThunk_safe (fuel : Nat) (t : Ref .thunk) :
    (forceThunk E fuel t).Safe fun _ => True := by
  refine Eval.Safe.heap.bind fun h _ => ?_
  split
  · exact .pure trivial
  · refine .bind .context fun c _ => ?_
    split
    · exact forceNow_safe hE fuel [] t
    · exact .suspend t

/-- Forcing a value is safe. -/
theorem force_safe (fuel : Nat) (v : Value) : (force E fuel v).Safe fun _ => True := by
  refine .bind .ensureLive fun _ _ => ?_
  induction fuel generalizing v with
  | zero => exact .throw (by simp)
  | succ fuel ih =>
    unfold forceFrom
    split
    · exact .bind (forceThunk_safe hE fuel _) fun v _ => ih v
    · exact .pure trivial

/-- An operation does not crash if it shows nothing in a wide format and those that code performs in
it do not crash. -/
theorem perform_safe (fuel : Nat) {o : Operation} (ho : ¬ o.Wide) :
    (perform E fuel o).Safe fun _ => True := by
  cases o with
  | call callee args =>
    refine .bind (force_safe hE fuel callee) fun v _ => ?_
    split
    · exact applyFunction_safe hE fuel _ args
    · exact Parallel.safe_of_forceless fun _ => .foreignCall _ _
    · exact .fail _
  | _ =>
    exact (@Parallel.perform_standard E E fuel fuel (Nat.le_refl fuel) _ (by simp)).safe ho
      (force_safe hE fuel)

end Engine

/-- No operation of any level crashes unless it shows a value in a wide format. -/
theorem engine_safe (level : Nat) (o : Operation) (ho : ¬ o.Wide) :
    (engine level o).Safe fun _ => True := by
  induction level generalizing o with
  | zero => exact .throw (by simp)
  | succ level ih => exact perform_safe ih level ho

/-! ### Runs -/

namespace Snapshot

variable {a b : Snapshot} {p : Program} {level : Nat} {m : Machine} {w : World}

/-- The frames and the world are in word. -/
def InWord (a : Snapshot) : Prop :=
  a.machine.InWord ∧ a.world.InWord

/-- What runs in word stays in word turn by turn. -/
theorem InWord.goes (ha : a.InWord) (hgoes : a.Goes (engine level) b) : b.InWord := by
  have hround := (round_safe (engine_safe level) a.fuel ha.1 a.world ha.2).of_ok hgoes.round
  exact ⟨hround.2, hround.1⟩

theorem Visited.inWord (hp : p.InWord) (hm : m.InWord) (hw : w.InWord)
    (hvisited : a.Visited level m p w) : a.InWord :=
  hvisited.induction (fun _ _ _ _ h => h) (fun _ hf => ⟨hm.enter hp hf, hw⟩)
    fun _ _ ha hgoes => ha.goes hgoes

/-- Counting an instruction keeps the world in word. -/
theorem InWord.counted (ha : a.InWord) : a.world.counted.InWord :=
  ⟨ha.2.heap, ha.2.format⟩

/-- In the state, executing by position whatever the top frame does next, and cutting the arguments
of whatever function is bound, comes to what the machine does and reads nothing out of range. -/
structure InRange (level : Nat) (a : Snapshot) : Prop where
  advance : ∀ f below, a.frames = f :: below →
    f.advanceByPosition (engine level) a.fuel = f.advance (engine level) a.fuel ∧
    Leads (f.advanceByPosition (engine level) a.fuel) a.world.counted fun r _ =>
      r ≠ .error (.interrupt .crashed)
  bind : ∀ fuel g args,
    bindByPosition (engine level) fuel g args = LazyMachine.bind (engine level) fuel g args ∧
    Leads (bindByPosition (engine level) fuel g args) a.world.counted fun r _ =>
      r ≠ .error .crashed

/-- Nothing is out of range while machine and world are in word. -/
theorem InWord.inRange (ha : a.InWord) : a.InRange level where
  advance f below hframes := by
    have hf : f.InWord := ha.1 f (by rw [← frames, hframes]; exact List.mem_cons_self)
    rw [f.advanceByPosition_eq]
    refine ⟨rfl, ?_⟩
    refine (advance_safe (engine_safe level) a.fuel hf _ ha.counted).imp fun r w' h => ?_
    rintro rfl
    exact h.2 rfl
  bind fuel g args := by
    rw [bindByPosition_eq]
    refine ⟨rfl, ?_⟩
    refine (bind_safe (engine_safe level) fuel g args _ ha.counted).imp fun r w' h => ?_
    rintro rfl
    exact h.2 rfl

end Snapshot

/-- A run of a valid program whose counts are in word, on a world that is in word, ends, if its fuel
lasts, with a value, a failure that is recorded or an abort, and not with a crash. In every state
that it visits on the way nothing is read out of range. -/
theorem run_ends (p : Program) (hp : p.Valid) (hword : p.InWord) (level : Nat) (m : Machine)
    (hm : m.frames = []) (w : World) (hw : w.InWord) (hhonest : w.heap.Honest)
    (hlive : w.context.Live) :
    (Leads (m.run level p) w fun
      | .ok (answer, _), _ => (∃ v, answer = .ok v) ∨ (∃ e, answer = .error (.runtime e)) ∨
          ∃ x, answer = .error (.aborted x)
      | .error i, _ => i = .exhausted) ∧
    ∀ a : Snapshot, a.Visited level m p w → a.InRange level := by
  have hmachine : m.InWord := by simp [Machine.InWord, hm]
  constructor
  · obtain ⟨f, hf⟩ := hp.exists_entry
    have hsafe := execute_safe (engine_safe level) level (hmachine.enter hword hf) w hw
    have hrecorded := execute_faithful (engine_faithful Embedding.standard_faithful level) level
      (m.withFrames (f :: m.frames)) hhonest hlive
    rw [leads_run_iff hf]
    refine (hsafe.and hrecorded).imp fun r w' h => ?_
    obtain ⟨⟨-, hcrash⟩, hrecord⟩ := h
    rcases r with i | ⟨v | _ | x, m'⟩
    · -- what is neither regular nor a crash is lack of fuel
      cases i with
      | exhausted => rfl
      | crashed => exact absurd rfl hcrash
      | failed => exact absurd (.inl rfl) hrecord
      | suspended => exact absurd (.inr rfl) hrecord
    · exact .inl ⟨v, rfl⟩
    · obtain ⟨-, e, he⟩ := hrecord
      refine .inr (.inl ⟨e, ?_⟩)
      simp only [Machine.Exit.answer, Context.hostError, he, Context.fail, hlive.error,
        Option.none_or]
    · exact .inr (.inr ⟨x, rfl⟩)
  · intro a ha
    exact (ha.inWord hword hmachine hw).inRange

/-- A program that gives an argument back and stores it behind the locals there are. -/
def echoing : Program :=
  ⟨#[⟨"main", 0, #[.closure 1 0, .push (.int 3), .call 1, .store 1, .load 1]⟩,
    ⟨"echo", 1, #[.load 0]⟩], 0⟩

/-- The program runs to its end, and the operands of its call are read in range. -/
theorem run_ends_echoing :
    echoing.Valid ∧ echoing.InWord ∧
      (∃ m w, Machine.run 8 {} echoing {} = .ok (.ok (.int 3), m) w) ∧
      ∃ a : Snapshot, a.Visited 8 {} echoing {} ∧
        a.frames.head?.bind Frame.instr? = some (.call 1) ∧ a.InRange 8 := by
  have hword : echoing.InWord := by decide
  have hlive : ({} : World).context.Live := ⟨rfl, rfl, rfl⟩
  have hends := run_ends echoing rfl hword 8 {} rfl {} ⟨Heap.inWord_empty, Format.not_wide_default⟩
    (Heap.honest_of (fun _ _ ht => by simp at ht) fun _ _ hf => by simp at hf) hlive
  have ha : Snapshot.Visited 8 {} echoing {} ⟨5, _, _⟩ :=
    ⟨_, rfl, .round rfl (.round rfl (.start _ _ _))⟩
  exact ⟨rfl, hword, Eval.exists_of_endsWithInt (by decide +kernel), _, ha, rfl, hends.2 _ ha⟩

/-- The largest word leaves no room for one more argument, and a slot far below it already asks for
more locals than an array can hold: with either a valid program crashes. -/
theorem run_crashes :
    let storing : Program := ⟨#[⟨"main", 0, #[.push .unit, .store (Word.count 62)]⟩], 0⟩
    let calling : Program := ⟨#[⟨"main", 0, #[.push .unit, .call (Word.bound - 1)]⟩], 0⟩
    (storing.Valid ∧ ∃ w, Machine.run 3 {} storing {} = .error .crashed w) ∧
      calling.Valid ∧ ∃ w, Machine.run 3 {} calling {} = .error .crashed w := by
  exact ⟨⟨rfl, _, rfl⟩, rfl, _, rfl⟩

end LazyMachine
