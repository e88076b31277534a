import LazyMachine.Proofs.Operations

/-!
# Instructions on a store

An instruction of a frame whose values fit the store goes on with frames whose values fit a later
store, fails, needs the value of a thunk, or gives up (`Regime.Stride.advance`). Where it needs the
value of a thunk, it is suspended in cooperative mode; in eager mode the thunk is evaluated and the
instruction is as good as executed anew.
-/

namespace LazyMachine

variable {p : Program} {α β : Type}

/-- Whether the instruction may make a text of a structure. -/
def Instr.renders : Instr → Bool
  | .render | .convert .string => true
  | _ => false

/-- What a frame may give up with: operands or a local that are not there, or a chunk that is not
there and that its next instruction names. -/
inductive Frame.Aborts (f : Frame) : Abort → Prop
  | underflow (chunk pc need held : Nat) : f.Aborts (.underflow chunk pc need held)
  | undefinedSlot (slot : Nat) : f.Aborts (.undefinedSlot slot)
  | missingChunk {chunk captures : Nat}
      (hinstr : f.instr? = some (.delay chunk captures) ∨ f.instr? = some (.closure chunk captures))
      (hchunk : f.program.chunk? chunk = none) : f.Aborts (.missingChunk chunk)

/-- The values of the frame fit the store, and it runs the program of the store. -/
structure Frame.Sound (s : Store p) (bounds : List ℚ) (f : Frame) : Prop where
  program : f.program = p
  locals : ∀ v ∈ f.locals, s.Fits bounds v
  stack : ∀ v ∈ f.stack, s.Fits bounds v

/-- What goes on after an instruction of a frame of some kind fits the store. -/
def Flow.Sound (s : Store p) (bounds : List ℚ) (kind : FrameKind) : Flow → Prop
  | .next f | .stay f | .jump f _ => f.Sound s bounds ∧ f.kind = kind
  | .enter caller callee => (caller.Sound s bounds ∧ caller.kind = kind) ∧ callee.Sound s bounds ∧
      ∃ rest, callee.kind = .call rest ∧ ∀ v ∈ rest, s.Fits bounds v
  | .leave v => s.Fits bounds v

/-- What binding gave fits the store. -/
def Application.Sound (s : Store p) (bounds : List ℚ) : Application → Prop
  | .value v rest => s.Fits bounds v ∧ ∀ u ∈ rest, s.Fits bounds u
  | .enter program chunk locals rest => program = p ∧ (∃ ch, p.chunk? chunk = some ch) ∧
      (∀ u ∈ locals, s.Fits bounds u) ∧ ∀ u ∈ rest, s.Fits bounds u

/-- A sound frame stays sound. -/
theorem Frame.Sound.later {s s' : Store p} {bounds : List ℚ} {f : Frame} (hf : f.Sound s bounds)
    (hs : s.Later s') : f.Sound s' bounds :=
  ⟨hf.program, fun v hv => hs.fits (hf.locals v hv), fun v hv => hs.fits (hf.stack v hv)⟩

theorem Frame.Sound.withStack {s : Store p} {bounds : List ℚ} {f : Frame} (hf : f.Sound s bounds)
    {stack : List Value} (hstack : ∀ v ∈ stack, s.Fits bounds v) :
    (f.withStack stack).Sound s bounds :=
  ⟨hf.program, hf.locals, hstack⟩

/-- The values of a stack that is known fit one by one. -/
theorem Frame.Sound.fits_stack {s : Store p} {bounds : List ℚ} {f : Frame} (hf : f.Sound s bounds)
    {stack : List Value} (hstack : f.stack = stack) : ∀ v ∈ stack, s.Fits bounds v :=
  hstack ▸ hf.stack

/-- What is on the stack of a sound frame fits. -/
theorem Frame.Sound.fits_cons {s : Store p} {bounds : List ℚ} {f : Frame} (hf : f.Sound s bounds)
    {v : Value} {base : List Value} (hstack : f.stack = v :: base) :
    s.Fits bounds v ∧ ∀ u ∈ base, s.Fits bounds u :=
  List.forall_mem_cons.mp (hf.fits_stack hstack)

/-- A result that fits can be pushed. -/
theorem Frame.Sound.pushResult {s : Store p} {bounds : List ℚ} {f : Frame} (hf : f.Sound s bounds)
    {base rest : List Value} {v : Value} (hbase : ∀ u ∈ base, s.Fits bounds u)
    (hv : s.Fits bounds v) (hrest : ∀ u ∈ rest, s.Fits bounds u) :
    (f.pushResult base v rest).Sound s bounds := by
  unfold Frame.pushResult
  split
  · refine ⟨hf.program, hf.locals, fun u hu => ?_⟩
    rcases List.mem_cons.mp hu with rfl | hu
    · exact hv
    · exact hbase u hu
  · refine ⟨hf.program, hf.locals, fun u hu => ?_⟩
    rcases List.mem_append.mp hu with hu | hu
    · exact hrest u (List.mem_reverse.mp hu)
    · rcases List.mem_cons.mp hu with rfl | hu
      · exact hv
      · exact hbase u hu

namespace Regime

variable (c : Regime p)

/-- How instructions perform operations. -/
def perform : Engine :=
  LazyMachine.perform c.engine c.fuel

/-- What a step of the machine does on a store, giving up only with aborts in `A`. -/
inductive Stride (A : Abort → Prop) (s : Store p) (x : Step α) (Q : Store p → α → Prop) : Prop
  /-- It yields a value with `Q`. -/
  | makes (a : α) (s₁ : Store p) (hlater : s.Later s₁) (ha : Q s₁ a)
      (h : ∀ w, c.At s w → x w = .ok a { w with heap := s₁.heap })
  /-- It fails. -/
  | fails (e : RuntimeError) (s₁ : Store p) (hlater : s.Later s₁)
      (h : ∀ w, c.At s w → x w = Step.ofEval (Eval.fail e) { w with heap := s₁.heap })
  /-- It needs the value of a thunk. -/
  | waits (t : Ref .thunk) (ht : c.Fits s (.lazy t)) (hmemo : s.heap.memo? t = none)
      (hc : ∀ w, c.At s w → w.context.mode = .cooperative →
        x w = Step.ofEval (Eval.suspend t) w)
      (he : ∀ w, c.At s w → w.context.mode = .eager →
        x w = (Step.ofEval (forceNow c.engine (c.fuel - 1) [] t) >>= fun _ => x) w)
  /-- It gives up or crashes. -/
  | stops (stop : Stop) (hstop : (∃ a, stop = .abort a ∧ A a) ∨ stop = .interrupt .crashed)
      (h : ∀ w, c.At s w → x w = .error stop w)
  /-- It runs out of fuel. -/
  | cut (hshort : ¬ c.Enough s.heap)
      (h : ∀ w, c.At s w → x w = .error (.interrupt .exhausted) w)

/-- The step yields a value with `Q` or fails, without an operation that could need a thunk. -/
def Lands (s : Store p) (x : Step α) (Q : Store p → α → Prop) : Prop :=
  (∃ a s₁, s.Later s₁ ∧ Q s₁ a ∧ ∀ w, c.At s w → x w = .ok a { w with heap := s₁.heap }) ∨
    ∃ e s₁, s.Later s₁ ∧
      ∀ w, c.At s w → x w = Step.ofEval (Eval.fail e) { w with heap := s₁.heap }

variable {c} {s : Store p} {x : Step α} {k : α → Step β} {P : Store p → α → Prop}
  {Q : Store p → β → Prop} {A : Abort → Prop}

/-! ### Composition -/

/-- An operation in stages as a step of the machine. -/
theorem Staged.strides {y : Eval α} (hy : c.Staged s y P) : c.Stride A s (Step.ofEval y) P := by
  cases hy s (.refl s) with
  | done h =>
    obtain ⟨a, s₁, hlater, ha, h⟩ := h
    exact .makes a s₁ hlater ha fun w hw => Step.ofEval_ok (h w hw)
  | fails e s₁ hlater h =>
    exact .fails e s₁ hlater fun w hw => by rw [Step.ofEval, Step.ofEval, h w hw]
  | cut hshort h => exact .cut hshort fun w hw => Step.ofEval_error (h w hw)
  | crashes h => exact .stops _ (.inr rfl) fun w hw => Step.ofEval_error (h w hw)
  | waits t ht hmemo hc he =>
    refine .waits t ht hmemo (fun w hw hmode => ?_) fun w hw hmode => ?_
    · rw [Step.ofEval, Step.ofEval, hc w hw hmode]
    · rw [Step.ofEval, he w hw hmode]
      cases hforce : forceNow c.engine (c.fuel - 1) [] t w with
      | error i w₁ => rw [bind_error hforce, bind_error (Step.ofEval_error hforce)]
      | ok v w₁ => rw [bind_ok hforce, bind_ok (Step.ofEval_ok hforce), Step.ofEval]

/-- A step that forces nothing is a stride. -/
theorem Lands.strides (hx : c.Lands s x P) : c.Stride A s x P := by
  rcases hx with ⟨a, s₁, hlater, ha, h⟩ | ⟨e, s₁, hlater, h⟩
  · exact .makes a s₁ hlater ha h
  · exact .fails e s₁ hlater h

/-- What lands after a stride belongs to it. -/
theorem Stride.bind (hx : c.Stride A s x P)
    (hk : ∀ s' a, s.Later s' → P s' a → c.Lands s' (k a) Q) : c.Stride A s (x >>= k) Q := by
  cases hx with
  | stops stop hstop h => exact .stops stop hstop fun w hw => bind_error (h w hw)
  | cut hshort h => exact .cut hshort fun w hw => bind_error (h w hw)
  | fails e s₁ hlater h => exact .fails e s₁ hlater fun w hw => bind_error (h w hw)
  | waits t ht hmemo hc he =>
    refine .waits t ht hmemo (fun w hw hmode => bind_error (hc w hw hmode)) fun w hw hmode => ?_
    have hassoc : (Step.ofEval (forceNow c.engine (c.fuel - 1) [] t) >>= fun _ => x >>= k) =
        (Step.ofEval (forceNow c.engine (c.fuel - 1) [] t) >>= fun _ => x) >>= k := by
      rw [bind_assoc]
    rw [hassoc]
    simp only [Bind.bind, EStateM.bind, he w hw hmode]
  | makes a s₁ hlater ha h =>
    rcases hk s₁ a hlater ha with ⟨b, s₂, hlater₂, hb, h₂⟩ | ⟨e, s₂, hlater₂, h₂⟩
    · refine .makes b s₂ (hlater.trans hlater₂) hb fun w hw => ?_
      rw [bind_ok (h w hw), h₂ _ (hw.onHeap s₁.heap)]
    · refine .fails e s₂ (hlater.trans hlater₂) fun w hw => ?_
      rw [bind_ok (h w hw), h₂ _ (hw.onHeap s₁.heap)]

theorem Lands.pure {a : α} (ha : P s a) : c.Lands s (Pure.pure a) P :=
  .inl ⟨a, s, .refl s, ha, fun w hw => by rw [← hw.heap]; rfl⟩

theorem Lands.fail (e : RuntimeError) : c.Lands s (Step.ofEval (Eval.fail e) : Step α) P :=
  .inr ⟨e, s, .refl s, fun w hw => by rw [← hw.heap]⟩

/-- A prompt evaluation lands. -/
theorem Prompt.lands {y : Eval α} (hy : c.Prompt s y P) : c.Lands s (Step.ofEval y) P := by
  rcases hy with ⟨a, s₁, hlater, ha, h⟩ | ⟨e, s₁, hlater, h⟩
  · exact .inl ⟨a, s₁, hlater, ha, fun w hw => Step.ofEval_ok (h w hw)⟩
  · exact .inr ⟨e, s₁, hlater, fun w hw => by rw [Step.ofEval, Step.ofEval, h w hw]⟩

/-- One landing after the other. -/
theorem Lands.bind (hx : c.Lands s x P)
    (hk : ∀ s' a, s.Later s' → P s' a → c.Lands s' (k a) Q) : c.Lands s (x >>= k) Q := by
  rcases hx with ⟨a, s₁, hlater, ha, h⟩ | ⟨e, s₁, hlater, h⟩
  · rcases hk s₁ a hlater ha with ⟨b, s₂, hlater₂, hb, h₂⟩ | ⟨e, s₂, hlater₂, h₂⟩
    · refine .inl ⟨b, s₂, hlater.trans hlater₂, hb, fun w hw => ?_⟩
      rw [bind_ok (h w hw), h₂ _ (hw.onHeap s₁.heap)]
    · refine .inr ⟨e, s₂, hlater.trans hlater₂, fun w hw => ?_⟩
      rw [bind_ok (h w hw), h₂ _ (hw.onHeap s₁.heap)]
  · exact .inr ⟨e, s₁, hlater, fun w hw => bind_error (h w hw)⟩

theorem Stride.abort {a : Abort} (ha : A a) : c.Stride A s (throw (.abort a) : Step α) P :=
  .stops _ (.inl ⟨a, rfl, ha⟩) fun _ _ => rfl

/-- The stack holds too few operands. -/
theorem Stride.underflow {f g : Frame} {n : Nat} :
    c.Stride g.Aborts s (f.underflow n : Step α) P :=
  .abort (.underflow ..)

theorem Stride.crash : c.Stride A s (throw (.interrupt .crashed) : Step α) P :=
  .stops _ (.inr rfl) fun _ _ => rfl

/-! ### Calls -/

section Calls

variable {fuel : Nat} {args : List Value}

/-- Binding arguments to a function of the store runs nothing. -/
theorem Prompt.bindFunction (E : Engine) (fuel : Nat) {g : Ref .function}
    (hg : c.Fits s (.function g)) (hargs : ∀ v ∈ args, c.Fits s v) :
    c.Prompt s (LazyMachine.bind E (fuel + 1) g args) fun s' a => a.Sound s' c.bounds := by
  refine Prompt.live.bind fun s' _ hs' _ => .look ?_
  have hargs (v : Value) (hv : v ∈ args) : c.Fits s' v := hs'.fits (hargs v hv)
  obtain ⟨hcode, hparts⟩ := Store.function_ofCode (hs'.fits hg)
  obtain ⟨chunk, captures, ch, hbody, hchunk⟩ := hcode
  have happlied (v : Value) (hv : v ∈ (s'.heap.function g).applied) : c.Fits s' v :=
    hparts v (by rw [Heap.functionParts, hbody]; exact List.mem_append_right _ hv)
  have hcaptures (v : Value) (hv : v ∈ captures) : c.Fits s' v :=
    hparts v (by rw [Heap.functionParts, hbody]; exact List.mem_append_left _ hv)
  dsimp only
  split
  · split
    · exact .pure ⟨hs'.fits hg, by simp⟩
    · refine .bind (P := c.Fits) ?_ fun s'' v _ hv => .pure ⟨hv, by simp⟩
      refine .bind (P := fun s'' g => c.Fits s'' (.function g)) (.onHeap ?_) fun _ _ _ h => .pure h
      refine s'.exists_later_function ⟨chunk, captures, ch, hbody, hchunk⟩ fun v hv => ?_
      simp only [Heap.functionParts, hbody, List.mem_append] at hv
      -- its parts are those of the old function and the new arguments
      rcases hv with hv | hv | hv
      · exact hcaptures v hv
      · exact happlied v hv
      · exact hargs v hv
  · rw [hbody]
    refine .pure ⟨rfl, ⟨ch, hchunk⟩, fun v hv => ?_, fun v hv => hargs v (List.mem_of_mem_drop hv)⟩
    simp only [List.mem_append] at hv
    rcases hv with hv | hv | hv
    · exact hcaptures v hv
    · exact happlied v hv
    · exact hargs v (List.mem_of_mem_take hv)

/-- Binding to a value that fits works in stages. -/
theorem Staged.bindValue (hspare : c.spare → 0 < fuel) {callee : Value} (hcallee : c.Fits s callee)
    (hargs : ∀ v ∈ args, c.Fits s v) :
    c.Staged s (bindValue c.perform fuel callee args) fun s' a => a.Sound s' c.bounds := by
  unfold LazyMachine.bindValue
  split
  · cases fuel with
    | zero => exact fun s' _ => .cut (fun h => absurd (hspare h.2) (by decide)) fun _ _ => rfl
    | succ fuel =>
      exact Prompt.staged fun s' hs' =>
        .bindFunction _ fuel (hs'.fits hcallee) fun v hv => hs'.fits (hargs v hv)
  · exact absurd hcallee.internal (by simp [Value.isExternal])
  · exact Prompt.staged fun _ _ => .fail _

/-- The topmost values of the stack and those below them fit, or there are too few. -/
theorem operands_cases {f : Frame} (hf : f.Sound s c.bounds) (n : Nat) :
    (∃ items base, f.operands n = Pure.pure (items, base) ∧ (∀ v ∈ items, c.Fits s v) ∧
      ∀ v ∈ base, c.Fits s v) ∨ f.operands n = f.underflow n := by
  unfold Frame.operands
  split
  · refine .inl ⟨_, _, rfl, fun v hv => hf.stack v ?_, fun v hv => hf.stack v ?_⟩
    · exact List.mem_of_mem_take (List.mem_reverse.mp hv)
    · exact List.mem_of_mem_drop hv
  · exact .inr rfl

/-- The caller after a call, and the frame of the callee if that is code. -/
def CallSound (s : Store p) (bounds : List ℚ) (kind : FrameKind) (r : Frame × Option Frame) :
    Prop :=
  (r.1.Sound s bounds ∧ r.1.kind = kind) ∧ ∀ callee ∈ r.2, callee.Sound s bounds ∧
    ∃ rest, callee.kind = .call rest ∧ ∀ v ∈ rest, s.Fits bounds v

/-- The frame receives what an application comes to. -/
theorem Lands.receive {f : Frame} (hf : f.Sound s c.bounds) {base : List Value}
    (hbase : ∀ v ∈ base, c.Fits s v) {a : Application} (ha : a.Sound s c.bounds) :
    c.Lands s (f.receive base a) fun s' => CallSound s' c.bounds f.kind := by
  cases a with
  | value v rest =>
    refine .pure ⟨⟨hf.pushResult hbase ha.1 ha.2, ?_⟩, by simp⟩
    unfold Frame.pushResult
    split <;> rfl
  | enter program chunk locals rest =>
    obtain ⟨rfl, ⟨ch, hchunk⟩, hlocals, hrest⟩ := ha
    simp only [Frame.receive, Frame.enter?, hchunk]
    refine .pure ⟨⟨hf.withStack hbase, rfl⟩, ?_⟩
    rintro callee ⟨⟩
    exact ⟨⟨rfl, fun v hv => hlocals v (by simpa using hv), by simp⟩, rest, rfl, hrest⟩

/-- Applying the value below the topmost ones. -/
theorem Stride.apply (hspare : c.spare → 0 < fuel) {f g : Frame} (hf : f.Sound s c.bounds)
    (count : Nat) :
    c.Stride g.Aborts s (f.apply c.perform fuel count) fun s' => CallSound s' c.bounds f.kind := by
  unfold Frame.apply increment
  split
  · rw [pure_bind]
    rcases operands_cases hf (count + 1) with ⟨items, base, heq, hitems, hbase⟩ | heq
    · rw [heq, pure_bind]
      dsimp only
      split
      · exact .underflow
      · next callee args =>
        have hcallee := hitems callee List.mem_cons_self
        have hargs (v : Value) (hv : v ∈ args) := hitems v (List.mem_cons_of_mem callee hv)
        -- forcing and binding are one evaluation, after which the frame takes what they gave
        have hbind : c.Staged s (c.perform (.force callee) >>= fun callee =>
            bindValue c.perform fuel callee args) fun s' a => a.Sound s' c.bounds :=
          (Walk.force hcallee).bind fun s' u hs' hu =>
            .bindValue hspare hu.fits fun v hv => hs'.fits (hargs v hv)
        have hreceive := (hbind.strides (A := g.Aborts)).bind fun s' a hs' ha =>
          Lands.receive (hf.later hs') (fun v hv => hs'.fits (hbase v hv)) ha
        rw [Step.ofEval_bind, bind_assoc] at hreceive
        exact hreceive
    · rw [heq]
      exact .underflow
  · exact .crash

end Calls

/-! ### Instructions -/

section Instructions

variable {f : Frame} {fuel : Nat}

/-- The frame with a result on top of its stack. -/
theorem Flow.sound_next {bounds : List ℚ} (hf : f.Sound s bounds) {v : Value} {base : List Value}
    (hv : s.Fits bounds v) (hbase : ∀ u ∈ base, s.Fits bounds u) :
    (Flow.next (f.withStack (v :: base))).Sound s bounds f.kind := by
  refine ⟨hf.withStack fun u hu => ?_, rfl⟩
  rcases List.mem_cons.mp hu with rfl | hu
  · exact hv
  · exact hbase u hu

/-- An operation whose result takes the place of its operands. -/
theorem Stride.operate (hf : f.Sound s c.bounds) {base : List Value}
    (hbase : ∀ u ∈ base, c.Fits s u) {y : Eval Value} (hy : c.Staged s y c.Fits) :
    c.Stride A s (Step.ofEval y >>= fun v => Pure.pure (.next (f.withStack (v :: base))))
      fun s' => Flow.Sound s' c.bounds f.kind :=
  hy.strides.bind fun _ _ hs' hv =>
    .pure (Flow.sound_next (hf.later hs') hv fun u hu => hs'.fits (hbase u hu))

/-- An operation on the top of the stack is a stride, or underflows. -/
theorem Stride.onTop (hf : f.Sound s c.bounds) {o : Value → Operation}
    (ho : ∀ x, c.Fits s x → c.Staged s (c.perform (o x)) c.Fits) :
    c.Stride f.Aborts s (f.onTop c.perform o) fun s' => Flow.Sound s' c.bounds f.kind := by
  unfold Frame.onTop
  split
  · next x base hstack =>
    obtain ⟨hx, hbase⟩ := hf.fits_cons hstack
    exact .operate hf hbase (ho x hx)
  · exact .underflow

/-- So is one on the topmost two. -/
theorem Stride.onTwo (hf : f.Sound s c.bounds) {o : Value → Value → Operation}
    (ho : ∀ x y, c.Fits s x → c.Fits s y → c.Staged s (c.perform (o x y)) c.Fits) :
    c.Stride f.Aborts s (f.onTwo c.perform o) fun s' => Flow.Sound s' c.bounds f.kind := by
  unfold Frame.onTwo
  split
  · next y x base hstack =>
    obtain ⟨hy, hrest⟩ := hf.fits_cons hstack
    obtain ⟨hx, hbase⟩ := List.forall_mem_cons.mp hrest
    exact .operate hf hbase (ho x y hx hy)
  · exact .underflow

/-- A function over a chunk of the program. -/
theorem Stride.capture (hf : f.Sound s c.bounds) {chunk captures : Nat}
    (hinstr : f.instr? = some (.delay chunk captures) ∨ f.instr? = some (.closure chunk captures)) :
    c.Stride f.Aborts s (f.capture chunk captures) fun s' r =>
      c.Fits s' (.function r.1) ∧ ∀ v ∈ r.2, c.Fits s' v := by
  unfold Frame.capture
  rcases operands_cases hf captures with ⟨values, base, heq, hvalues, hbase⟩ | heq
  · rw [heq, pure_bind]
    dsimp only
    split
    · next target htarget =>
      rw [hf.program] at htarget ⊢
      refine (Prompt.staged fun s' hs' => .onHeap (P := fun s'' g => c.Fits s'' (.function g))
        ?_).strides.bind fun s' g hs' hg => .pure ⟨hg, fun v hv => hs'.fits (hbase v hv)⟩
      refine s'.exists_later_function ⟨chunk, values, target, rfl, htarget⟩ fun v hv => ?_
      simp only [Heap.functionParts, List.append_nil] at hv
      exact hs'.fits (hvalues v hv)
    · next hchunk => exact .abort (.missingChunk hinstr hchunk)
  · rw [heq]
    exact .underflow

/-- What does the same as a stride is one. -/
theorem Stride.congr {y : Step α} (hxy : ∀ s', s.Later s' → ∀ w, c.At s' w → x w = y w)
    (hy : c.Stride A s y P) : c.Stride A s x P := by
  have heq := hxy s (.refl s)
  cases hy with
  | makes a s₁ hlater ha h => exact .makes a s₁ hlater ha fun w hw => by rw [heq w hw, h w hw]
  | fails e s₁ hlater h => exact .fails e s₁ hlater fun w hw => by rw [heq w hw, h w hw]
  | stops stop hstop h => exact .stops stop hstop fun w hw => by rw [heq w hw, h w hw]
  | cut hshort h => exact .cut hshort fun w hw => by rw [heq w hw, h w hw]
  | waits t ht hmemo hc he =>
    refine .waits t ht hmemo (fun w hw hmode => ?_) fun w hw hmode => ?_
    · rw [heq w hw, hc w hw hmode]
    rw [heq w hw, he w hw hmode]
    cases hforce : forceNow c.engine (c.fuel - 1) [] t w with
    | error i w₁ =>
      rw [bind_error (Step.ofEval_error hforce), bind_error (Step.ofEval_error hforce)]
    | ok v w₁ =>
      obtain ⟨s₁, hlater, hw₁, -, -⟩ := c.resumes s w t v w₁ hw hmode
        (ht.held (.thunk, t.index) rfl) hforce
      rw [bind_ok (Step.ofEval_ok hforce), bind_ok (Step.ofEval_ok hforce), hxy s₁ hlater w₁ hw₁]

/-- The locals fit with one that is stored. -/
theorem fits_store (hf : f.Sound s c.bounds) (slot : Nat) {v : Value} (hv : c.Fits s v) :
    ∀ u ∈ f.store slot v, c.Fits s u := by
  intro u hu
  rcases Array.mem_or_eq_of_mem_setIfInBounds hu with hu | rfl
  · rcases Array.mem_append.mp hu with hu | hu
    · exact hf.locals u hu
    · rw [(Array.mem_replicate.mp hu).2]
      exact .scalar rfl rfl
  · exact hv

/-- The result of a frame is the top of its stack. -/
theorem Stride.leaveTop (hf : f.Sound s c.bounds) :
    c.Stride A s (Pure.pure (.leave (f.stack.head?.getD .unit))) fun s' =>
      Flow.Sound s' c.bounds f.kind := by
  have htop : c.Fits s (f.stack.head?.getD .unit) := by
    cases hstack : f.stack with
    | nil => exact .scalar rfl rfl
    | cons v base => exact hf.stack v (by rw [hstack]; exact List.mem_cons_self)
  exact Lands.strides (.pure htop)

/-- An instruction strides, and what goes on after it is sound. -/
abbrev Steps (c : Regime p) (s : Store p) (f : Frame) (fuel : Nat) (instr : Instr) : Prop :=
  c.Stride f.Aborts s (f.step c.perform fuel instr) fun s' => Flow.Sound s' c.bounds f.kind

/-- A local that is there is copied onto the stack. -/
theorem Steps.load (hf : f.Sound s c.bounds) (slot : Nat) : c.Steps s f fuel (.load slot) := by
  simp only [Steps, Frame.step]
  split
  · next v hv =>
    have hfits : c.Fits s v := hf.locals v (Array.mem_of_getElem? hv)
    exact (Lands.pure (Flow.sound_next hf hfits hf.stack)).strides
  · exact .abort (.undefinedSlot slot)

/-- The top of the stack becomes a local, if there can be so many. -/
theorem Steps.store (hf : f.Sound s c.bounds) (slot : Nat) : c.Steps s f fuel (.store slot) := by
  simp only [Steps, Frame.step]
  split
  · next v base hstack =>
    obtain ⟨hv, hbase⟩ := hf.fits_cons hstack
    have hnext : c.Stride f.Aborts s
        (Pure.pure (.next { f with stack := base, locals := f.store slot v }))
        fun s' => Flow.Sound s' c.bounds f.kind :=
      (Lands.pure ⟨⟨hf.program, fits_store hf slot hv, hbase⟩, rfl⟩).strides
    unfold increment
    split
    · split
      · exact hnext
      · exact .crash
    · exact hnext
  · exact .underflow

/-- The top of the stack is dropped. -/
theorem Steps.pop (hf : f.Sound s c.bounds) : c.Steps s f fuel .pop := by
  simp only [Steps, Frame.step]
  split
  · next v base hstack =>
    exact (Lands.pure ⟨hf.withStack (hf.fits_cons hstack).2, rfl⟩).strides
  · exact .underflow

/-- The top of the stack is repeated. -/
theorem Steps.dup (hf : f.Sound s c.bounds) : c.Steps s f fuel .dup := by
  simp only [Steps, Frame.step]
  split
  · next v base hstack =>
    have hstay := hf.fits_stack hstack
    exact (Lands.pure (Flow.sound_next hf (hf.fits_cons hstack).1 hstay)).strides
  · exact .underflow

/-- The two topmost values change places. -/
theorem Steps.swap (hf : f.Sound s c.bounds) : c.Steps s f fuel .swap := by
  simp only [Steps, Frame.step]
  split
  · next y x base hstack =>
    obtain ⟨hy, hrest⟩ := hf.fits_cons hstack
    obtain ⟨hx, hbase⟩ := List.forall_mem_cons.mp hrest
    have hswapped := List.forall_mem_cons.mpr ⟨hy, hbase⟩
    exact (Lands.pure (Flow.sound_next hf hx hswapped)).strides
  · exact .underflow

/-- The three topmost values are operands: a container, a key and an item. -/
theorem Steps.setIndex (hf : f.Sound s c.bounds) : c.Steps s f fuel .setIndex := by
  simp only [Steps, Frame.step]
  split
  · next item key x base hstack =>
    obtain ⟨hitem, hrest⟩ := hf.fits_cons hstack
    obtain ⟨hkey, hrest⟩ := List.forall_mem_cons.mp hrest
    obtain ⟨hx, hbase⟩ := List.forall_mem_cons.mp hrest
    exact .operate hf hbase (Staged.set hx hkey hitem)
  · exact .underflow

/-- Whether the top of the stack is the empty list. -/
theorem Steps.isNil (hf : f.Sound s c.bounds) : c.Steps s f fuel .isNil := by
  refine .onTop hf fun x hx => (Walk.isNil hx).bind fun _ _ _ _ => ?_
  exact Prompt.staged fun _ _ => .pure (.scalar rfl rfl)

/-- The topmost values become the elements of a list. -/
theorem Steps.makeList (hf : f.Sound s c.bounds) (count : Nat) :
    c.Steps s f fuel (.makeList count) := by
  simp only [Steps, Frame.step]
  rcases operands_cases hf count with ⟨items, base, heq, hitems, hbase⟩ | heq
  · rw [heq, pure_bind]
    exact .operate hf hbase
      (Prompt.staged fun _ hs' => .makeList fun v hv => hs'.fits (hitems v hv))
  · rw [heq]
    exact .underflow

/-- The topmost values become the fields of a record. -/
theorem Steps.makeRecord (hf : f.Sound s c.bounds) (names : List String) :
    c.Steps s f fuel (.makeRecord names) := by
  simp only [Steps, Frame.step]
  rcases operands_cases hf names.length with ⟨items, base, heq, hitems, hbase⟩ | heq
  · rw [heq, pure_bind]
    refine .operate hf hbase (Prompt.staged fun _ hs' => .makeRecord fun x hx => ?_)
    exact hs'.fits (hitems x.2 (List.of_mem_zip hx).2)
  · rw [heq]
    exact .underflow

/-- The top of the stack becomes the payload of a variant. -/
theorem Steps.makeVariant (hf : f.Sound s c.bounds) (tag : String) :
    c.Steps s f fuel (.makeVariant tag) := by
  simp only [Steps, Frame.step]
  split
  · next v base hstack =>
    obtain ⟨hv, hbase⟩ := hf.fits_cons hstack
    exact .operate hf hbase (Prompt.staged fun _ hs' => .makeVariant tag (hs'.fits hv))
  · exact .underflow

/-- Rendering is considered in cooperative mode only. -/
theorem Steps.render (hlax : ¬ c.strict) (hf : f.Sound s c.bounds) : c.Steps s f fuel .render := by
  refine Stride.congr (y := f.onTop c.perform (.render · c.format)) (fun s' _ w hw => ?_) ?_
  · have hformat : w.context.format = c.format := by rw [hw.context]
    rw [← hformat]
    rfl
  · refine .onTop hf fun x hx => (Walk.render hlax c.format hx).bind fun _ _ _ _ => ?_
    exact Prompt.staged fun _ _ => .makeStr _

/-- A conversion that makes no text strides in both modes. -/
theorem Steps.convert (hf : f.Sound s c.bounds) {kind : Kind}
    (hrenders : kind = .string → ¬ c.strict) : c.Steps s f fuel (.convert kind) :=
  .onTop hf fun _ hx => .convert hrenders hx

/-- A thunk over a chunk of the program is made after the function that it calls. -/
theorem Steps.delay (hf : f.Sound s c.bounds) {chunk captures : Nat}
    (hinstr : f.instr? = some (.delay chunk captures)) :
    c.Steps s f fuel (.delay chunk captures) := by
  simp only [Steps, Frame.step]
  refine (Stride.capture hf (.inl hinstr)).bind fun s' r hs' hr => ?_
  have hthunk : c.Prompt s' (Eval.makeThunk (.waiting (.call r.1))) fun s'' v =>
      c.Fits s'' v := by
    refine .bind (P := fun s'' t => c.Fits s'' (.lazy t)) (.onHeap ?_) fun _ _ _ h => .pure h
    exact s'.exists_later_thunk hr.1
  refine hthunk.lands.bind fun s'' v hs'' hv => .pure ?_
  exact Flow.sound_next (hf.later (hs'.trans hs'')) hv fun u hu => hs''.fits (hr.2 u hu)

/-- A function over a chunk of the program. -/
theorem Steps.closure (hf : f.Sound s c.bounds) {chunk captures : Nat}
    (hinstr : f.instr? = some (.closure chunk captures)) :
    c.Steps s f fuel (.closure chunk captures) := by
  simp only [Steps, Frame.step]
  refine (Stride.capture hf (.inr hinstr)).bind fun s' r hs' hr => ?_
  exact .pure (Flow.sound_next (hf.later hs') hr.1 hr.2)

/-- After a call the frame of the callee is entered, if that is code. -/
theorem Steps.call (hspare : c.spare → 0 < fuel) (hf : f.Sound s c.bounds) (count : Nat) :
    c.Steps s f fuel (.call count) := by
  refine (Stride.apply hspare hf count).bind fun s' r hs' hr => ?_
  obtain ⟨caller, callee⟩ := r
  obtain ⟨⟨hcaller, hkind⟩, hcallee⟩ := hr
  cases callee with
  | none => exact .pure ⟨hcaller, hkind⟩
  | some callee =>
    refine .pure ⟨⟨⟨hcaller.program, hcaller.locals, hcaller.stack⟩, hkind⟩, ?_⟩
    exact hcallee callee rfl

/-- The top of the stack decides whether the frame jumps, once it has been forced. -/
theorem Steps.jumpIfFalse (hf : f.Sound s c.bounds) (target : Nat) :
    c.Steps s f fuel (.jumpIfFalse target) := by
  simp only [Steps, Frame.step]
  split
  · next x base hstack =>
    obtain ⟨hx, hrest⟩ := hf.fits_cons hstack
    refine Stride.bind ((Walk.force hx).staged.strides) fun s' u hs' _ => ?_
    have hbase : (f.withStack base).Sound s' c.bounds :=
      (hf.later hs').withStack fun v hv => hs'.fits (hrest v hv)
    split
    · exact .pure ⟨hbase, rfl⟩
    · exact .pure ⟨hbase, rfl⟩
    · exact .fail _
  · exact .underflow

/-- Every instruction strides, except that in both modes only those do that render nothing. -/
theorem Stride.step (hspare : c.spare → 0 < fuel) (hf : f.Sound s c.bounds) {instr : Instr}
    (hinstr : f.instr? = some instr) (hrenders : instr.renders → ¬ c.strict) :
    c.Steps s f fuel instr := by
  cases instr with
  | push literal => exact .operate hf hf.stack (Prompt.staged fun _ _ => .literal literal)
  | load slot => exact .load hf slot
  | store slot => exact .store hf slot
  | pop => exact .pop hf
  | dup => exact .dup hf
  | swap => exact .swap hf
  | binary op => exact .onTwo hf fun x y hx hy => .binary op hx hy
  | unary op => exact .onTop hf fun x hx => .unary op hx
  | index => exact .onTwo hf fun x y hx hy => .get hx hy
  | setIndex => exact .setIndex hf
  | length => exact .onTop hf fun x hx => .length hx
  | head => exact .onTop hf fun x hx => .head hx
  | tail => exact .onTop hf fun x hx => .tail hx
  | isNil => exact .isNil hf
  | cons => exact .onTwo hf fun x y hx hy => .binary .cons hx hy
  | empty => exact .onTop hf fun x hx => .nilOf hx
  | makeList count => exact .makeList hf count
  | makeRecord names => exact .makeRecord hf names
  | makeVariant tag => exact .makeVariant hf tag
  | tag => exact .onTop hf fun x hx => .tagOf hx
  | untag => exact .onTop hf fun x hx => .untag hx
  | render => exact .render (hrenders rfl) hf
  | convert kind => exact .convert hf fun hkind => hrenders (by rw [hkind]; rfl)
  | delay chunk captures => exact .delay hf hinstr
  | closure chunk captures => exact .closure hf hinstr
  | force => exact .onTop hf fun x hx => ((Walk.force hx).imp fun _ _ _ h => h.fits).staged
  | call count => exact .call hspare hf count
  | jump target => exact (Lands.pure ⟨hf, rfl⟩).strides
  | jumpIfFalse target => exact .jumpIfFalse hf target
  | attempt target => exact (Lands.pure ⟨⟨hf.program, hf.locals, hf.stack⟩, rfl⟩).strides
  | endAttempt => exact (Lands.pure ⟨⟨hf.program, hf.locals, hf.stack⟩, rfl⟩).strides
  | ret => exact .leaveTop hf

/-- The same of whatever the frame does next. -/
theorem Stride.advance (hspare : c.spare → 0 < fuel) (hf : f.Sound s c.bounds)
    (hrenders : ∀ instr ∈ f.instr?, instr.renders → ¬ c.strict) :
    c.Stride f.Aborts s (f.advance c.perform fuel) fun s' => Flow.Sound s' c.bounds f.kind := by
  unfold Frame.advance
  split
  · have hf' : Frame.Sound s c.bounds { f with pendingCall := none } :=
      ⟨hf.program, hf.locals, hf.stack⟩
    refine (Stride.apply hspare hf' _).bind fun s' r hs' hr => ?_
    obtain ⟨caller, callee⟩ := r
    obtain ⟨hcaller, hcallee⟩ := hr
    cases callee with
    | none => exact .pure hcaller
    | some callee => exact .pure ⟨hcaller, hcallee callee rfl⟩
  · split
    · next instr hinstr => exact .step hspare hf hinstr (hrenders instr hinstr)
    · exact .leaveTop hf

end Instructions

end Regime

end LazyMachine
