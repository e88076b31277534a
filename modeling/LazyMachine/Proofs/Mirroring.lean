import LazyMachine.Proofs.Atoms
import LazyMachine.Proofs.Renaming

/-!
# Operations do not see places

`Mirrors V ρ x y` says that the evaluations `x` and `y` come to the same on worlds that are alike by
`ρ`: to values related by `V`, or to the same interrupt, and to worlds that are alike again, by a
renaming that has grown from `ρ`. It passes from the parts of an evaluation to the whole.

An evaluator is `Impartial` if it forces alike values alike. The catalogue below shows that with an
impartial evaluator every operation on values mirrors itself on alike operands. The walks along data
that remember the objects met (`Equality.value`, `Render.value`) remember corresponding ones.
-/

namespace LazyMachine

variable {ε α β γ δ : Type}

/-- Outcomes that are alike by renamings that have grown from `ρ`. -/
inductive Outcomes (V : Renaming → α → β → Prop) (ρ : Renaming) :
    EStateM.Result ε World α → EStateM.Result ε World β → Prop
  | ok {σ : Renaming} {a : α} {b : β} {w w' : World} (hρσ : ρ ≤ σ) (hv : V σ a b)
      (hw : w.Alike σ w') : Outcomes V ρ (.ok a w) (.ok b w')
  | error {σ : Renaming} {e : ε} {w w' : World} (hρσ : ρ ≤ σ) (hw : w.Alike σ w') :
      Outcomes V ρ (.error e w) (.error e w')

/-- On alike worlds the two evaluations have alike outcomes. -/
def Mirrors (V : Renaming → α → β → Prop) (ρ : Renaming) (x : EStateM ε World α)
    (y : EStateM ε World β) : Prop :=
  ∀ w w', w.Alike ρ w' → Outcomes V ρ (x w) (y w')

/-- The two results are the same, whatever the renaming. -/
abbrev Same (_ : Renaming) (a b : α) : Prop :=
  a = b

section Outcomes

variable {V : Renaming → α → β → Prop} {ρ σ : Renaming}

theorem Outcomes.mono (hρσ : ρ ≤ σ) {r : EStateM.Result ε World α} {r' : EStateM.Result ε World β}
    (h : Outcomes V σ r r') : Outcomes V ρ r r' := by
  cases h with
  | ok hστ hv hw => exact .ok (hρσ.trans hστ) hv hw
  | error hστ hw => exact .error (hρσ.trans hστ) hw

end Outcomes

/-! ### Composition -/

namespace Mirrors

variable {V : Renaming → α → β → Prop} {W : Renaming → γ → δ → Prop} {ρ : Renaming}

theorem pure {a : α} {b : β} (h : V ρ a b) :
    Mirrors V ρ (Pure.pure a : EStateM ε World α) (Pure.pure b) :=
  fun _ _ hw => .ok le_rfl h hw

theorem throw (e : ε) :
    Mirrors V ρ (MonadExcept.throw e : EStateM ε World α) (MonadExcept.throw e) :=
  fun _ _ hw => .error le_rfl hw

/-- Mirrored evaluations may follow each other; the second ones run under a grown renaming. -/
theorem bind {x : EStateM ε World α} {y : EStateM ε World β} {f : α → EStateM ε World γ}
    {g : β → EStateM ε World δ} (hx : Mirrors V ρ x y)
    (hf : ∀ σ, ρ ≤ σ → ∀ a b, V σ a b → Mirrors W σ (f a) (g b)) :
    Mirrors W ρ (x >>= f) (y >>= g) := by
  intro w w' hw
  simp only [Bind.bind, EStateM.bind]
  generalize x w = r, y w' = r', hx w w' hw = hr
  cases hr with
  | ok hρσ hv hw => exact (hf _ hρσ _ _ hv _ _ hw).mono hρσ
  | error hρσ hw => exact .error hρσ hw

/-- A value that is the same for both is passed on. -/
theorem bind_same {x y : EStateM ε World α} {f : α → EStateM ε World γ}
    {g : α → EStateM ε World δ} (hx : Mirrors Same ρ x y)
    (hf : ∀ σ, ρ ≤ σ → ∀ a, Mirrors W σ (f a) (g a)) : Mirrors W ρ (x >>= f) (y >>= g) :=
  hx.bind fun σ hρσ a _ h => h ▸ hf σ hρσ a

theorem map {x : EStateM ε World α} {y : EStateM ε World β} {f : α → γ} {g : β → δ}
    (hx : Mirrors V ρ x y) (hf : ∀ σ, ρ ≤ σ → ∀ a b, V σ a b → W σ (f a) (g b)) :
    Mirrors W ρ (x >>= fun a => Pure.pure (f a)) (y >>= fun b => Pure.pure (g b)) :=
  hx.bind fun σ hρσ a b h => .pure (hf σ hρσ a b h)

/-- Mirrored evaluations with mirrored handlers are mirrored. -/
theorem tryCatch {x : EStateM ε World α} {y : EStateM ε World β} {f : ε → EStateM ε World α}
    {g : ε → EStateM ε World β} (hx : Mirrors V ρ x y)
    (hf : ∀ σ, ρ ≤ σ → ∀ e, Mirrors V σ (f e) (g e)) :
    Mirrors V ρ (tryCatch x f) (tryCatch y g) := by
  intro w w' hw
  simp only [MonadExcept.tryCatch, tryCatchThe, MonadExceptOf.tryCatch, EStateM.tryCatch,
    EStateM.Backtrackable.restore, EStateM.dummyRestore]
  generalize x w = r, y w' = r', hx w w' hw = hr
  cases hr with
  | ok hρσ hv hw => exact .ok hρσ hv hw
  | error hρσ hw => exact (hf _ hρσ _ _ _ hw).mono hρσ

/-- Steps made of mirrored evaluations are mirrored. -/
theorem ofEval {x : Eval α} {y : Eval β} (hx : Mirrors V ρ x y) :
    Mirrors V ρ (Step.ofEval x) (Step.ofEval y) := by
  intro w w' hw
  simp only [Step.ofEval]
  generalize x w = r, y w' = r', hx w w' hw = hr
  cases hr with
  | ok hρσ hv hw => exact .ok hρσ hv hw
  | error hρσ hw => exact .error hρσ hw

/-- Outcomes of steps, as results. -/
inductive Ended (V : Renaming → α → β → Prop) (ρ : Renaming) : Except ε α → Except ε β → Prop
  | ok {a : α} {b : β} (h : V ρ a b) : Ended V ρ (.ok a) (.ok b)
  | error (e : ε) : Ended V ρ (.error e) (.error e)

/-- Outcomes of mirrored steps are mirrored as results. -/
theorem outcome {x : Step α} {y : Step β} (hx : Mirrors V ρ x y) :
    Mirrors (Ended V) ρ x.outcome y.outcome := by
  intro w w' hw
  simp only [Step.outcome]
  generalize x w = r, y w' = r', hx w w' hw = hr
  cases hr with
  | ok hρσ hv hw => exact .ok hρσ (.ok hv) hw
  | @error σ stop _ _ hρσ hw =>
    cases stop with
    | abort a => exact .ok hρσ (.error _) hw
    | interrupt i =>
      cases i with
      | exhausted | crashed => exact .error hρσ hw
      | failed | suspended => exact .ok hρσ (.error _) hw

/-- Evaluations on contexts of their own. -/
theorem isolated (own : Context) {x : Eval α} {y : Eval β} (hx : Mirrors V ρ x y) :
    Mirrors (fun σ r r' => Ended V σ r.1 r'.1 ∧ r.2 = r'.2) ρ (Eval.isolated own x)
      (Eval.isolated own y) := by
  intro w w' hw
  simp only [Eval.isolated]
  have hown : World.Alike ρ { w with context := own } { w' with context := own } :=
    ⟨hw.heap, rfl, hw.host, hw.executed⟩
  generalize x { w with context := own } = r, y { w' with context := own } = r',
    hx _ _ hown = hr
  cases hr with
  | ok hρσ hv hw₁ =>
    exact .ok hρσ ⟨.ok hv, hw₁.context⟩ ⟨hw₁.heap, hw.context, hw₁.host, hw₁.executed⟩
  | @error σ i _ _ hρσ hw₁ =>
    cases i with
    | exhausted | crashed => exact .error hρσ ⟨hw₁.heap, hw.context, hw₁.host, hw₁.executed⟩
    | failed | suspended =>
      exact .ok hρσ ⟨.error _, hw₁.context⟩ ⟨hw₁.heap, hw.context, hw₁.host, hw₁.executed⟩

/-! ### Steps -/

theorem fail (e : RuntimeError) : Mirrors V ρ (Eval.fail e : Eval α) (Eval.fail e) :=
  fun _ _ hw => .error le_rfl ⟨hw.heap, congrArg (·.fail e) hw.context, hw.host, hw.executed⟩

/-- Reporting alike operands records the same failure, for it names types only. -/
theorem invalidOperand (op : String) {l r l' r' : Value} (hl : l.Alike ρ l') (hr : r.Alike ρ r') :
    Mirrors V ρ (Eval.invalidOperand op l r : Eval α) (Eval.invalidOperand op l' r') := by
  rw [Eval.invalidOperand, Eval.invalidOperand, hl.typeName_eq, hr.typeName_eq]
  exact fail _

/-- Reporting alike operands records the same failure. -/
theorem invalidUnary (op : String) {v v' : Value} (hv : v.Alike ρ v') :
    Mirrors V ρ (Eval.invalidUnary op v : Eval α) (Eval.invalidUnary op v') := by
  rw [Eval.invalidUnary, Eval.invalidUnary, hv.typeName_eq]
  exact fail _

/-- Reporting a failed conversion of alike values records the same failure. -/
theorem conversionFailed {v v' : Value} (hv : v.Alike ρ v') (target : String) :
    Mirrors V ρ (Eval.conversionFailed v target : Eval α) (Eval.conversionFailed v' target) := by
  rw [Eval.conversionFailed, Eval.conversionFailed, hv.typeName_eq]
  exact fail _

/-- Waiting on the same thunk is mirrored. -/
theorem suspend (t : Ref .thunk) : Mirrors V ρ (Eval.suspend t : Eval α) (Eval.suspend t) :=
  fun _ _ hw => .error le_rfl ⟨hw.heap, congrArg (·.suspend t) hw.context, hw.host, hw.executed⟩

/-- The heaps that are looked at are alike. -/
theorem heap_bind {f : Heap → Eval α} {g : Heap → Eval β}
    (hf : ∀ h h', h.Alike ρ h' → Mirrors V ρ (f h) (g h')) :
    Mirrors V ρ (Eval.heap >>= f) (Eval.heap >>= g) :=
  fun w w' hw => hf _ _ hw.heap w w' hw

theorem context : Mirrors Same ρ Eval.context Eval.context :=
  fun _ _ hw => .ok le_rfl hw.context hw

theorem onContext (f : Context → Context) :
    Mirrors Same ρ (Eval.onContext f) (Eval.onContext f) :=
  fun _ _ hw => .ok le_rfl rfl ⟨hw.heap, congrArg f hw.context, hw.host, hw.executed⟩

theorem onHost {f : Host → Host} (hf : ∀ h h', h.Alike ρ h' → (f h).Alike ρ (f h')) :
    Mirrors Same ρ (Eval.onHost f) (Eval.onHost f) :=
  fun _ _ hw => .ok le_rfl rfl ⟨hw.heap, hw.context, hf _ _ hw.host, hw.executed⟩

theorem onHeap {f : Heap → α × Heap} {g : Heap → β × Heap}
    (hf : ∀ h h', h.Alike ρ h' → ∃ σ, ρ ≤ σ ∧ V σ (f h).1 (g h').1 ∧ (f h).2.Alike σ (g h').2) :
    Mirrors V ρ (Eval.onHeap f) (Eval.onHeap g) := by
  intro w w' hw
  obtain ⟨σ, hρσ, hv, hh⟩ := hf _ _ hw.heap
  exact .ok hρσ hv (hw.withHeap hρσ hh)

/-- The entry check comes out the same in both runs. -/
theorem ensureLive : Mirrors Same ρ Eval.ensureLive Eval.ensureLive := by
  refine context.bind_same fun σ _ c => ?_
  cases c.interrupt? with
  | none => exact .pure rfl
  | some i => exact .throw i

/-- What is found on one of two alike heaps is found on the other. -/
theorem find {f g : Heap → Option α} {V : Renaming → α → α → Prop}
    (hf : ∀ h h' : Heap, h.Alike ρ h' → Option.Rel (V ρ) (f h) (g h')) :
    Mirrors V ρ (Eval.find f) (Eval.find g) := by
  refine heap_bind fun h h' hh => ?_
  generalize f h = x, g h' = x', hf h h' hh = hx
  cases hx with
  | none => exact .throw _
  | some ha => exact .pure ha

/-- Behind forced thunks there are alike values. -/
theorem resolve {v v' : Value} (hv : v.Alike ρ v') :
    Mirrors Value.Alike ρ (Eval.resolve v) (Eval.resolve v') :=
  find fun _ _ hh => hh.resolve? hv

/-- New strings of one text get the same stamp. -/
theorem makeStr (text : String) : Mirrors Value.Alike ρ (Eval.makeStr text) (Eval.makeStr text) :=
  onHeap fun _ _ hh =>
    ⟨ρ, le_rfl, .of_eq (congrArg (fun n => Value.str ⟨n, text⟩) hh.stamp) rfl, hh.freshStamp⟩

/-- New foreign values of the same data get the same stamp. -/
theorem makeForeign (data : ForeignData) :
    Mirrors Value.Alike ρ (Eval.makeForeign data) (Eval.makeForeign data) :=
  onHeap fun _ _ hh =>
    ⟨ρ, le_rfl, .of_eq (congrArg (fun n => Value.foreign ⟨n, data⟩) hh.stamp) rfl, hh.freshStamp⟩

/-- New descriptors of one type get the same stamp. -/
theorem makeTypeInfo (id : Nat) (name : String) :
    Mirrors Value.Alike ρ (Eval.makeTypeInfo id name) (Eval.makeTypeInfo id name) :=
  onHeap fun _ _ hh => ⟨ρ, le_rfl,
    .of_eq (congrArg (fun n => Value.typeInfo ⟨n, id, name⟩) hh.stamp) rfl, hh.freshStamp⟩

/-- The new descriptors of the types of alike values are the same. -/
theorem typeInfo {v v' : Value} (hv : v.Alike ρ v') :
    Mirrors Value.Alike ρ (Eval.typeInfo v) (Eval.typeInfo v') := by
  rw [Eval.typeInfo, Eval.typeInfo, hv.typeId_eq, hv.typeName_eq]
  exact makeTypeInfo _ _

/-- New cells with alike contents become partners. -/
theorem makeCell {head tail head' tail' : Value} (hhead : head.Alike ρ head')
    (htail : tail.Alike ρ tail') :
    Mirrors Renaming.Cells ρ (Eval.makeCell head tail) (Eval.makeCell head' tail') :=
  onHeap fun _ _ hh => ⟨ρ.pushCell, ρ.le_pushCell, hh.addCell ⟨hhead, htail⟩⟩

/-- Alike values put in front of corresponding lists give corresponding lists. -/
theorem prepend {vs vs' : List Value} (hvs : Values ρ vs vs') {rest rest' : Option (Ref .cell)}
    (hrest : ρ.Lists rest rest') :
    Mirrors Renaming.Lists ρ (Eval.prepend vs rest) (Eval.prepend vs' rest') := by
  induction hvs with
  | nil => exact .pure hrest
  | cons hv _ ih =>
    exact ih.bind fun σ hρσ _ _ htail => (makeCell (hv.mono hρσ) (.list htail)).map
      fun _ _ _ _ hcell => .some hcell

/-- New lists of alike values are alike. -/
theorem makeList {vs vs' : List Value} (hvs : Values ρ vs vs') :
    Mirrors Value.Alike ρ (Eval.makeList vs) (Eval.makeList vs') :=
  (prepend hvs .none).map fun _ _ _ _ h => .list h

/-- New records of alike fields are at the same place. -/
theorem makeRecord {r r' : Record} (hr : Entries ρ r.fields r'.fields) :
    Mirrors Value.Alike ρ (Eval.makeRecord r) (Eval.makeRecord r') := by
  refine Mirrors.map (V := Same) (onHeap fun _ _ hh => ⟨ρ, le_rfl, hh.addRecord hr⟩) ?_
  exact fun _ _ _ _ h => .of_eq (congrArg _ h) rfl

/-- New variants with one tag and alike payloads are at the same place. -/
theorem makeVariant (tag : String) {v v' : Value} (hv : v.Alike ρ v') :
    Mirrors Value.Alike ρ (Eval.makeVariant tag v) (Eval.makeVariant tag v') := by
  refine onHeap fun h h' hh => ⟨ρ, le_rfl, ?_⟩
  have hvariant : Variant.Alike ρ ⟨⟨h.nextStamp, tag⟩, v⟩ ⟨⟨h'.nextStamp, tag⟩, v'⟩ :=
    ⟨by rw [hh.stamp], hv⟩
  obtain ⟨href, hadd⟩ := hh.freshStamp.addVariant hvariant
  exact ⟨.of_eq (congrArg Value.variant href) rfl, hadd⟩

/-- New thunks of alike states are at the same place. -/
theorem makeThunk {t t' : Thunk} (ht : t.Alike ρ t') :
    Mirrors Value.Alike ρ (Eval.makeThunk t) (Eval.makeThunk t') := by
  refine Mirrors.map (V := Same) (onHeap fun _ _ hh => ⟨ρ, le_rfl, hh.addThunk ht⟩) ?_
  exact fun _ _ _ _ h => .of_eq (congrArg _ h) rfl

/-- New functions that are alike become partners. -/
theorem makeFunction {f f' : Function} (hf : f.Alike ρ f') :
    Mirrors Value.Alike ρ (Eval.makeFunction f) (Eval.makeFunction f') :=
  Mirrors.map (V := Renaming.Functions)
    (onHeap fun _ _ hh => ⟨ρ.pushFunction, ρ.le_pushFunction, hh.addFunction hf⟩)
    fun _ _ _ _ h => .function h

/-- A constant is the same value in both runs. -/
theorem literal (l : Literal) : Mirrors Value.Alike ρ (Eval.literal l) (Eval.literal l) := by
  cases l with
  | str text => exact makeStr text
  | _ => exact .pure (.same rfl)

end Mirrors

/-! ### Operations -/

/-- The evaluator forces alike values alike. -/
def Evaluator.Impartial (ev : Evaluator) : Prop :=
  ∀ ρ v v', v.Alike ρ v' → Mirrors Value.Alike ρ (ev.force v) (ev.force v')

section Closed

/-! Operations whose operands matter only as far as alike values agree. -/

variable {ρ : Renaming} {l r l' r' : Value}

/-- An atom refers to nothing. -/
theorem isRigid_of_isAtom {v : Value} (hv : v.isAtom = true) : v.isRigid = true := by
  cases v <;> first | rfl | cases hv

/-- Arithmetic on alike values has the same outcome. -/
theorem arithmetic_mirrors (op : BinaryOp) (a : Numeric.Arith) (hl : l.Alike ρ l')
    (hr : r.Alike ρ r') : Mirrors Value.Alike ρ (arithmetic op a l r) (arithmetic op a l' r') := by
  unfold arithmetic Eval.invalidOperand
  rw [hl.numeric?_eq, hr.numeric?_eq, hl.typeName_eq, hr.typeName_eq]
  split
  · dsimp only
    split
    · exact .fail _
    · exact .pure (.same (isRigid_of_isAtom (Value.isAtom_ofNumeric _)))
  · exact .fail _

/-- Bitwise operations on alike values have the same outcome. -/
theorem bitwise_mirrors (op : BinaryOp) (b : Numeric.Bitwise) (hl : l.Alike ρ l')
    (hr : r.Alike ρ r') : Mirrors Value.Alike ρ (bitwise op b l r) (bitwise op b l' r') := by
  unfold bitwise Eval.invalidOperand
  rw [hl.numeric?_eq, hr.numeric?_eq, hl.typeName_eq, hr.typeName_eq]
  split
  · split
    · exact .pure (.same (isRigid_of_isAtom (Value.isAtom_ofNumeric _)))
    · exact .fail _
  · exact .fail _

/-- The order of two values is that of alike ones. -/
theorem ordering_mirrors (op : BinaryOp) (hl : l.Alike ρ l') (hr : r.Alike ρ r') :
    Mirrors Same ρ (ordering op l r) (ordering op l' r') := by
  have heq : ordering op l r = ordering op l' r' := by
    cases hl with
    | same hl =>
      cases hr with
      | same hr => rfl
      | list hr | function hr => cases l <;> rfl
    | list hl | function hl => cases hr <;> rfl
  rw [heq]
  unfold ordering
  split
  · exact .pure rfl
  · exact .pure rfl
  · exact .pure rfl
  · split
    · exact .pure rfl
    · exact .fail _

/-- Alike values stand for the same amount. -/
theorem Foreign.amount?_eq (h : l.Alike ρ l') : Foreign.amount? l = Foreign.amount? l' := by
  cases h <;> rfl

/-- A foreign value equals both of two alike values or neither. -/
theorem Foreign.equal_eq (f : Foreign) (h : l.Alike ρ l') : f.equal l = f.equal l' := by
  cases h <;> rfl

/-- Foreign binary operations treat alike operands alike. -/
theorem foreignBinary_mirrors (f : Foreign) (op : BinaryOp) (hl : l.Alike ρ l')
    (hr : r.Alike ρ r') : Mirrors Value.Alike ρ (f.binary op l r) (f.binary op l' r') := by
  unfold Foreign.binary Foreign.metersBinary Eval.invalidOperand
  rw [Foreign.amount?_eq hl, Foreign.amount?_eq hr, hl.typeName_eq, hr.typeName_eq]
  split
  · split
    · exact .makeForeign _
    · exact .makeForeign _
    · exact .pure (.same rfl)
    · exact .makeList (.cons hl (.cons (.same rfl) .nil))
    · exact .fail _
  · exact .fail _

/-- Foreign unary operations have the same outcome in both runs. -/
theorem foreignUnary_mirrors (f : Foreign) (op : UnaryOp) :
    Mirrors Value.Alike ρ (f.unary op) (f.unary op) := by
  unfold Foreign.unary
  split
  · exact .makeForeign _
  · exact .pure (.same rfl)
  · exact .fail _

/-- The length of a foreign value is the same in both runs. -/
theorem foreignLength_mirrors (f : Foreign) : Mirrors Value.Alike ρ f.length f.length := by
  unfold Foreign.length
  split
  · exact .pure (.same rfl)
  · exact .fail _

/-- A foreign value is applied to alike arguments alike. -/
theorem foreignCall_mirrors (f : Foreign) {args args' : List Value} (hargs : Values ρ args args') :
    Mirrors Value.Alike ρ (f.call args) (f.call args') := by
  unfold Foreign.call
  split
  · exact .makeList hargs
  · exact .fail _

/-- A foreign value is converted to the same value in both runs. -/
theorem foreignConvert_mirrors (f : Foreign) (target : Kind) :
    Mirrors Value.Alike ρ (f.convert target) (f.convert target) := by
  unfold Foreign.convert
  split
  · exact .pure (.same rfl)
  · exact .makeStr _
  · exact .fail _

/-- Reading a text has the same outcome in both runs. -/
theorem readValue_mirrors (text : String) (target : Kind) :
    Mirrors Value.Alike ρ (readValue text target) (readValue text target) := by
  unfold readValue
  refine Mirrors.ensureLive.bind_same fun _ _ _ => ?_
  split
  · exact .makeStr text
  · split
    · next h => exact .pure (.same (isRigid_of_isAtom (isAtom_readScalar? h)))
    · exact .fail _

end Closed

/-- The operation of a foreign operand, if there is one. -/
def Foreign.decide (op : BinaryOp) (l r : Value) (otherwise : Eval Value) : Eval Value :=
  match l.foreign?.or r.foreign? with
  | some f => f.binary op l r
  | none => otherwise

/-- A value that is not foreign is none. -/
theorem Value.foreign?_eq_none {v : Value} (h : ∀ f, v = .foreign f → False) :
    v.foreign? = none := by
  cases v with
  | foreign f => exact (h f rfl).elim
  | _ => rfl

/-- The two branches for a foreign operand are one decision. -/
theorem Foreign.decide_eq (op : BinaryOp) (l r : Value) (x : Eval Value) :
    (match l, r with
      | .foreign f, _ => f.binary op l r
      | _, .foreign f => f.binary op l r
      | _, _ => x) = Foreign.decide op l r x := by
  unfold Foreign.decide
  split
  · rfl
  · next hl => rw [Value.foreign?_eq_none hl]; rfl
  · next hl hr => rw [Value.foreign?_eq_none hl, Value.foreign?_eq_none hr]; rfl

/-- If one of two operands is foreign, it decides on both sides alike. -/
theorem foreign_mirrors {ρ : Renaming} {l r l' r' : Value} (op : BinaryOp) {x x' : Eval Value} :
    l.Alike ρ l' → r.Alike ρ r' → Mirrors Value.Alike ρ x x' → Mirrors Value.Alike ρ
      (match l, r with
      | .foreign f, _ => f.binary op l r
      | _, .foreign f => f.binary op l r
      | _, _ => x)
      (match l', r' with
      | .foreign f, _ => f.binary op l' r'
      | _, .foreign f => f.binary op l' r'
      | _, _ => x') := by
  intro hl hr hx
  rw [Foreign.decide_eq, Foreign.decide_eq]
  unfold Foreign.decide
  rw [hl.foreign?_eq, hr.foreign?_eq]
  split
  · exact foreignBinary_mirrors _ op hl hr
  · exact hx

section Walks

variable {ev : Evaluator} (hev : ev.Impartial) {ρ : Renaming}

include hev

namespace Spine

/-- The tails of corresponding cells are forced to corresponding lists. -/
theorem next_mirrors {c c' : Ref .cell} (hc : ρ.Cells c c') :
    Mirrors Renaming.Lists ρ (next ev c) (next ev c') := by
  refine .heap_bind fun h h' hh => (hev ρ _ _ (hh.cell hc).tail).bind fun σ hρσ v v' hv => ?_
  cases hv with
  | list h => exact .pure h
  | function h => exact .fail _
  | @same v h =>
    cases v with
    | list _ => exact nomatch h
    | _ => exact .fail _

/-- Walks along corresponding lists gather alike items. -/
theorem collectFrom_mirrors (fuel : Nat) {list list' : Option (Ref .cell)}
    (hlist : ρ.Lists list list') {gathered gathered' : List Value}
    (hgathered : Values ρ gathered gathered') :
    Mirrors Values ρ (collectFrom ev fuel list gathered) (collectFrom ev fuel list' gathered') := by
  induction fuel generalizing ρ list list' gathered gathered' with
  | zero => exact .throw _
  | succ fuel ih =>
    cases hlist with
    | none => exact .pure (List.rel_reverse hgathered)
    | some hc =>
      refine .heap_bind fun h h' hh => (next_mirrors hev hc).bind fun σ hρσ rest rest' hrest => ?_
      exact ih hrest (.cons ((hh.cell hc).head.mono hρσ) (hgathered.mono hρσ))

/-- Walks along corresponding lists count the same number of items. -/
theorem lengthFrom_mirrors (fuel : Nat) {list list' : Option (Ref .cell)}
    (hlist : ρ.Lists list list') (counted : Nat) :
    Mirrors Same ρ (lengthFrom ev fuel list counted) (lengthFrom ev fuel list' counted) := by
  induction fuel generalizing ρ list list' counted with
  | zero => exact .throw _
  | succ fuel ih =>
    cases hlist with
    | none => exact .pure rfl
    | some hc => exact (next_mirrors hev hc).bind fun σ hρσ rest rest' hrest => ih hrest _

/-- A position holds alike items in corresponding lists. -/
theorem nth_mirrors (i : Nat) {list list' : Option (Ref .cell)} (hlist : ρ.Lists list list') :
    Mirrors (fun σ => Option.Rel (Value.Alike σ)) ρ (nth ev i list) (nth ev i list') := by
  induction i generalizing ρ list list' with
  | zero =>
    cases hlist with
    | none => exact .pure .none
    | some hc => exact .heap_bind fun h h' hh => .pure (.some (hh.cell hc).head)
  | succ i ih =>
    cases hlist with
    | none => exact .pure .none
    | some hc => exact (next_mirrors hev hc).bind fun σ hρσ rest rest' hrest => ih hrest

/-- Replacing the item at a position gives corresponding lists. -/
theorem setNth_mirrors {item item' : Value} (hitem : item.Alike ρ item') (i : Nat)
    {list list' : Option (Ref .cell)} (hlist : ρ.Lists list list') :
    Mirrors Renaming.Lists ρ (setNth ev item i list) (setNth ev item' i list') := by
  induction i generalizing ρ list list' with
  | zero =>
    cases hlist with
    | none => exact .pure .none
    | some hc =>
      -- the new cell takes over the tail that the old one has on either heap
      exact .heap_bind fun h h' hh => (Mirrors.makeCell hitem (hh.cell hc).tail).map
        fun _ _ _ _ h => .some h
  | succ i ih =>
    cases hlist with
    | none => exact .pure .none
    | some hc =>
      refine .heap_bind fun h h' hh => (next_mirrors hev hc).bind fun σ hρσ rest rest' hrest => ?_
      -- each cell is made only once the rest of the list is, which renames more objects
      refine (ih (hitem.mono hρσ) hrest).bind fun τ hστ updated updated' hupdated => ?_
      cases hupdated with
      | none => exact .pure .none
      | some hupdated =>
        have hhead := ((hh.cell hc).head.mono hρσ).mono hστ
        exact (Mirrors.makeCell hhead (.list (.some hupdated))).map fun _ _ _ _ h => .some h

/-- Turning corresponding lists round gives corresponding lists. -/
theorem reverseOnto_mirrors (fuel : Nat) {list list' onto onto' : Option (Ref .cell)}
    (hlist : ρ.Lists list list') (honto : ρ.Lists onto onto') :
    Mirrors Renaming.Lists ρ (reverseOnto ev fuel list onto) (reverseOnto ev fuel list' onto') := by
  induction fuel generalizing ρ list list' onto onto' with
  | zero => exact .throw _
  | succ fuel ih =>
    cases hlist with
    | none => exact .pure honto
    | some hc =>
      refine .heap_bind fun h h' hh =>
        (Mirrors.makeCell (hh.cell hc).head (.list honto)).bind fun σ hρσ onto onto' honto => ?_
      refine (next_mirrors hev (hc.mono hρσ)).bind fun τ hστ rest rest' hrest => ?_
      exact ih hrest (.some (honto.mono hστ))

end Spine

/-! ### Equality -/

/-- Pairs of objects met on the way that correspond to each other. -/
abbrev PairsMet (ρ : Renaming) : Equality.Met → Equality.Met → Prop :=
  List.Forall₂ fun p p' => ρ.Places p.1 p'.1 ∧ ρ.Places p.2 p'.2

/-- Answers of comparisons are the same, with pairs that correspond to each other. -/
abbrev Compared (ρ : Renaming) (answer answer' : Bool × Equality.Met) : Prop :=
  answer.1 = answer'.1 ∧ PairsMet ρ answer.2 answer'.2

omit hev in
theorem PairsMet.mono {σ : Renaming} (hρσ : ρ ≤ σ) {met met' : Equality.Met}
    (h : PairsMet ρ met met') : PairsMet σ met met' :=
  h.imp fun _ _ h => ⟨h.1.mono hρσ, h.2.mono hρσ⟩

omit hev in
/-- A pair has been met in both runs or in neither. -/
theorem PairsMet.contains_eq {met met' : Equality.Met} (h : PairsMet ρ met met')
    {a b a' b' : Address} (ha : ρ.Places a a') (hb : ρ.Places b b') :
    met.contains (a, b) = met'.contains (a', b') := by
  induction h with
  | nil => rfl
  | cons hp _ ih =>
    rw [List.contains_cons, List.contains_cons, ih]
    congr 1
    rw [Bool.eq_iff_iff, beq_iff_eq, beq_iff_eq, Prod.ext_iff, Prod.ext_iff, ha.unique hp.1,
      hb.unique hp.2]

omit hev in
/-- Both runs stop at a pair that has been met, or both enter it. -/
theorem PairsMet.entered {met met' : Equality.Met} (h : PairsMet ρ met met')
    {a b a' b' : Address} (ha : ρ.Places a a') (hb : ρ.Places b b')
    {f f' : Heap → Eval (Bool × Equality.Met)}
    (hf : ∀ g g', g.Alike ρ g' → PairsMet ρ ((a, b) :: met) ((a', b') :: met') →
      Mirrors Compared ρ (f g) (f' g')) :
    Mirrors Compared ρ
      (if met.contains (a, b) then return (true, met) else Eval.heap >>= f)
      (if met'.contains (a', b') then return (true, met') else Eval.heap >>= f') := by
  rw [h.contains_eq ha hb]
  split
  · exact .pure ⟨rfl, h⟩
  · exact .heap_bind fun g g' hg => hf g g' hg (.cons ⟨ha, hb⟩ h)

/-- With this fuel alike data are compared alike. -/
structure ComparesAlike (ev : Evaluator) (fuel : Nat) : Prop where
  value {ρ : Renaming} {l r l' r' : Value} {met met' : Equality.Met} :
    l.Alike ρ l' → r.Alike ρ r' → PairsMet ρ met met' →
      Mirrors Compared ρ (Equality.value ev fuel l r met) (Equality.value ev fuel l' r' met')
  fields {ρ : Renaming} {a b a' b' : List (String × Value)} {met met' : Equality.Met} :
    Entries ρ a a' → Entries ρ b b' → PairsMet ρ met met' →
      Mirrors Compared ρ (Equality.fields ev fuel a b met) (Equality.fields ev fuel a' b' met')
  lists {ρ : Renaming} {a b a' b' : Option (Ref .cell)} {met met' : Equality.Met} :
    ρ.Lists a a' → ρ.Lists b b' → PairsMet ρ met met' →
      Mirrors Compared ρ (Equality.lists ev fuel a b met) (Equality.lists ev fuel a' b' met')

namespace ComparesAlike

variable {fuel : Nat} {met met' : Equality.Met}

/-- Values are compared alike if their parts are compared alike with less fuel. -/
theorem value_succ (ih : ComparesAlike ev fuel) {l r l' r' : Value} (hl : l.Alike ρ l')
    (hr : r.Alike ρ r') (hmet : PairsMet ρ met met') :
    Mirrors Compared ρ (Equality.value ev (fuel + 1) l r met)
      (Equality.value ev (fuel + 1) l' r' met') := by
  unfold Equality.value
  refine (hev ρ _ _ hl).bind fun σ hρσ l l' hl => ?_
  refine (hev σ _ _ (hr.mono hρσ)).bind fun τ hστ r r' hr => ?_
  replace hl := hl.mono hστ
  replace hmet := hmet.mono (hρσ.trans hστ)
  -- alike values are two lists, two functions or one value of another kind; a foreign value
  -- decides itself what it equals
  cases hl with
  | list hl =>
    cases hr with
    | list hr => exact ih.lists hl hr hmet
    | function hr => exact .pure ⟨rfl, hmet⟩
    | @same r _ =>
      cases r with
      | foreign f => exact .pure ⟨f.equal_eq (.list hl), hmet⟩
      | list _ | function _ => contradiction
      | _ => exact .pure ⟨rfl, hmet⟩
  | function hl =>
    cases hr with
    | list hr => exact .pure ⟨rfl, hmet⟩
    | function hr => exact .pure ⟨hl.beq_eq hr, hmet⟩
    | @same r _ =>
      cases r with
      | foreign f => exact .pure ⟨f.equal_eq (.function hl), hmet⟩
      | list _ | function _ => contradiction
      | _ => exact .pure ⟨rfl, hmet⟩
  | @same l hl =>
    cases hr with
    | list hr =>
      cases l with
      | foreign f => exact .pure ⟨f.equal_eq (.list hr), hmet⟩
      | list _ | function _ => contradiction
      | _ => exact .pure ⟨rfl, hmet⟩
    | function hr =>
      cases l with
      | foreign f => exact .pure ⟨f.equal_eq (.function hr), hmet⟩
      | list _ | function _ => contradiction
      | _ => exact .pure ⟨rfl, hmet⟩
    | same hr =>
      split
      · exact .pure ⟨rfl, hmet⟩
      · exact .pure ⟨rfl, hmet⟩
      · exact .pure ⟨rfl, hmet⟩
      · exact .pure ⟨rfl, hmet⟩
      · exact .pure ⟨rfl, hmet⟩
      · exact .pure ⟨rfl, hmet⟩
      · exact nomatch hl
      · next a b =>
        have hplaces (r : Ref .record) :
            τ.Places (.node .record r.index) (.node .record r.index) := .other nofun
        refine hmet.entered (hplaces a) (hplaces b) fun h h' hh hmet => ?_
        dsimp only
        have hfields := hh.record a
        have hfields' := hh.record b
        rw [hfields.length_eq, hfields'.length_eq]
        split
        · exact .pure ⟨rfl, hmet⟩
        · exact ih.fields hfields hfields' hmet
      · next a b =>
        have hplaces (r : Ref .variant) :
            τ.Places (.node .variant r.index) (.node .variant r.index) := .other nofun
        refine hmet.entered (hplaces a) (hplaces b) fun h h' hh hmet => ?_
        dsimp only
        rw [(hh.variant a).tag, (hh.variant b).tag]
        split
        · exact .pure ⟨rfl, hmet⟩
        · exact ih.value (hh.variant a).payload (hh.variant b).payload hmet
      · exact nomatch hl
      · exact .pure ⟨rfl, hmet⟩
      · exact .pure ⟨rfl, hmet⟩
      · split
        · exact .pure ⟨rfl, hmet⟩
        · exact .pure ⟨rfl, hmet⟩

omit hev in
/-- Fields are compared alike if values are compared alike with less fuel. -/
theorem fields_succ (ih : ComparesAlike ev fuel) {a b a' b' : List (String × Value)}
    (ha : Entries ρ a a') (hb : Entries ρ b b') (hmet : PairsMet ρ met met') :
    Mirrors Compared ρ (Equality.fields ev (fuel + 1) a b met)
      (Equality.fields ev (fuel + 1) a' b' met') := by
  cases ha with
  | nil => cases hb <;> exact .pure ⟨rfl, hmet⟩
  | @cons e e' _ _ he ha =>
    cases hb with
    | nil => exact .pure ⟨rfl, hmet⟩
    | @cons f f' _ _ hf hb =>
      obtain ⟨n, v⟩ := e
      obtain ⟨n', v'⟩ := e'
      obtain ⟨m, w⟩ := f
      obtain ⟨m', w'⟩ := f'
      obtain ⟨rfl, hv⟩ := he
      obtain ⟨rfl, hw⟩ := hf
      unfold Equality.fields
      -- the names are the same on both sides, so the comparisons part at the same field
      split
      · exact .pure ⟨rfl, hmet⟩
      · refine (ih.value hv hw hmet).bind fun σ hρσ answer answer' hanswer => ?_
        obtain ⟨same, met⟩ := answer
        obtain ⟨same', met'⟩ := answer'
        obtain ⟨rfl, hmet⟩ := hanswer
        dsimp only
        split
        · exact ih.fields (Entries.mono hρσ ha) (Entries.mono hρσ hb) hmet
        · exact .pure ⟨rfl, hmet⟩

/-- Lists are compared alike if items and rests are compared alike with less fuel. -/
theorem lists_succ (ih : ComparesAlike ev fuel) {a b a' b' : Option (Ref .cell)}
    (ha : ρ.Lists a a') (hb : ρ.Lists b b') (hmet : PairsMet ρ met met') :
    Mirrors Compared ρ (Equality.lists ev (fuel + 1) a b met)
      (Equality.lists ev (fuel + 1) a' b' met') := by
  cases ha with
  | none => cases hb <;> exact .pure ⟨rfl, hmet⟩
  | some ha =>
    cases hb with
    | none => exact .pure ⟨rfl, hmet⟩
    | some hb =>
      unfold Equality.lists
      dsimp only
      refine hmet.entered (.cell ha) (.cell hb) fun h h' hh hmet => ?_
      refine (ih.value (hh.cell ha).head (hh.cell hb).head hmet).bind
        fun σ hρσ answer answer' hanswer => ?_
      obtain ⟨same, met⟩ := answer
      obtain ⟨same', met'⟩ := answer'
      obtain ⟨rfl, hmet⟩ := hanswer
      dsimp only
      split
      · exact .pure ⟨rfl, hmet⟩
      · refine (Spine.next_mirrors hev (ha.mono hρσ)).bind fun τ hστ a a' ha => ?_
        refine (Spine.next_mirrors hev (hb.mono (hρσ.trans hστ))).bind fun υ hτυ b b' hb => ?_
        exact ih.lists (ha.mono hτυ) hb (hmet.mono (hστ.trans hτυ))

/-- Comparisons have the same answers with any fuel. -/
theorem all (fuel : Nat) : ComparesAlike ev fuel := by
  induction fuel with
  | zero => exact ⟨fun _ _ _ => .throw _, fun _ _ _ => .throw _, fun _ _ _ => .throw _⟩
  | succ fuel ih => exact ⟨value_succ hev ih, fields_succ ih, lists_succ hev ih⟩

end ComparesAlike

/-- Alike values are equal in both runs or in neither. -/
theorem equal_mirrors {l r l' r' : Value} (hl : l.Alike ρ l') (hr : r.Alike ρ r') :
    Mirrors Same ρ (equal ev l r) (equal ev l' r') :=
  Mirrors.ensureLive.bind_same fun _ hρσ _ =>
    ((ComparesAlike.all hev ev.fuel).value (hl.mono hρσ) (hr.mono hρσ) .nil).map
      fun _ _ _ _ h => h.1

/-- A comparison of alike values has the same outcome. -/
theorem relation_mirrors (op : BinaryOp) {l r l' r' : Value} (hl : l.Alike ρ l')
    (hr : r.Alike ρ r') :
    Mirrors Value.Alike ρ (relation ev op l r) (relation ev op l' r') := by
  unfold relation
  cases op with
  | eq => exact (equal_mirrors hev hl hr).map fun _ _ _ _ h => .of_eq (congrArg _ h) rfl
  | ne =>
    exact (equal_mirrors hev hl hr).map fun _ _ _ _ h => .of_eq (congrArg (Value.bool !·) h) rfl
  | _ =>
    refine (hev ρ _ _ hl).bind fun σ hρσ l l' hl => ?_
    refine (hev σ _ _ (hr.mono hρσ)).bind fun τ hστ r r' hr => ?_
    replace hl := hl.mono hστ
    refine foreign_mirrors _ hl hr ?_
    refine (ordering_mirrors _ hl hr).bind_same fun υ _ order => ?_
    split
    · exact .pure (.same rfl)
    · rw [Eval.invalidOperand, Eval.invalidOperand, hl.typeName_eq, hr.typeName_eq]
      exact .fail _

/-- A unary operation treats alike operands alike. -/
theorem unary_mirrors (op : UnaryOp) {v v' : Value} (hv : v.Alike ρ v') :
    Mirrors Value.Alike ρ (unary ev op v) (unary ev op v') := by
  refine (hev ρ _ _ hv).bind fun σ hρσ v v' hv => ?_
  cases hv with
  | list h | function h => cases op <;> exact .fail _
  | same h =>
    split
    · exact foreignUnary_mirrors _ op
    · exact .pure (.same rfl)
    · split
      · exact .pure (.same rfl)
      · exact .fail _
    · split
      · exact .pure (.same rfl)
      · exact .fail _
    · split
      · exact .pure (.same (isRigid_of_isAtom (Value.isAtom_ofNumeric _)))
      · exact .fail _

/-! ### Rendering -/

/-- Objects met on the way that correspond to each other. -/
structure Seen (ρ : Renaming) (seen seen' : List Address) : Prop where
  left : ∀ i, .node .cell i ∈ seen → i < ρ.cells.left
  right : ∀ i, .node .cell i ∈ seen' → i < ρ.cells.right
  mem_iff {a a' : Address} : ρ.Places a a' → (a ∈ seen ↔ a' ∈ seen')

omit hev in
theorem Seen.nil : Seen ρ [] [] :=
  ⟨by simp, by simp, by simp⟩

omit hev in
/-- What has been met corresponds still as the renaming grows. -/
theorem Seen.mono {σ : Renaming} (hρσ : ρ ≤ σ) {seen seen' : List Address} (h : Seen ρ seen seen') :
    Seen σ seen seen' where
  left i hi := (h.left i hi).trans_le hρσ.1.left
  right i hi := (h.right i hi).trans_le hρσ.1.right
  mem_iff hplaces := by
    cases hplaces with
    | other hne => exact h.mem_iff (.other hne)
    | @cell a b hab =>
      -- an object that was seen has the partner that it had then
      constructor
      · intro hmem
        exact (h.mem_iff (.cell (hρσ.1.old hab (.inl (h.left _ hmem))))).mp hmem
      · intro hmem
        exact (h.mem_iff (.cell (hρσ.1.old hab (.inr (h.right _ hmem))))).mpr hmem

omit hev in
/-- One more pair of corresponding objects has been met. -/
theorem Seen.cons {seen seen' : List Address} (h : Seen ρ seen seen') {a a' : Address}
    (ha : ρ.Places a a') : Seen ρ (a :: seen) (a' :: seen') where
  left i hi := by
    rcases List.mem_cons.mp hi with rfl | hi
    · exact ha.lt_left
    · exact h.left i hi
  right i hi := by
    rcases List.mem_cons.mp hi with rfl | hi
    · exact ha.lt_right
    · exact h.right i hi
  mem_iff hb := by
    rw [List.mem_cons, List.mem_cons, hb.unique ha, h.mem_iff hb]

omit hev in
/-- An object has been met in both runs or in neither. -/
theorem Seen.contains_eq {seen seen' : List Address} (h : Seen ρ seen seen') {a a' : Address}
    (ha : ρ.Places a a') : seen.contains a = seen'.contains a' := by
  rw [Bool.eq_iff_iff, List.contains_iff_mem, List.contains_iff_mem]
  exact h.mem_iff ha

omit hev in
/-- Alike values need parentheses in both heaps or in neither. -/
theorem needsParentheses?_alike {h h' : Heap} (hh : h.Alike ρ h') {v v' : Value}
    (hv : v.Alike ρ v') :
    Render.needsParentheses? h v = Render.needsParentheses? h' v' := by
  cases hv with
  | list _ | function _ => rfl
  | @same v _ =>
    cases v with
    | variant r => exact hh.hasPayload?_eq (hh.variant r)
    | _ => rfl

/-- With this fuel alike data have the same text. -/
structure RendersAlike (ev : Evaluator) (format : Format) (fuel : Nat) : Prop where
  value {ρ : Renaming} (nested : Bool) {seen seen' : List Address} {v v' : Value} :
    Seen ρ seen seen' → v.Alike ρ v' →
      Mirrors Same ρ (Render.value ev format fuel nested seen v)
        (Render.value ev format fuel nested seen' v')
  fields {ρ : Renaming} {seen seen' : List Address} {es es' : List (String × Value)} :
    Seen ρ seen seen' → Entries ρ es es' →
      Mirrors Same ρ (Render.fields ev format fuel seen es) (Render.fields ev format fuel seen' es')
  items {ρ : Renaming} (shown : Nat) {seen seen' : List Address}
    {list list' : Option (Ref .cell)} : Seen ρ seen seen' → ρ.Lists list list' →
      Mirrors Same ρ (Render.items ev format fuel shown seen list)
        (Render.items ev format fuel shown seen' list')

namespace RendersAlike

variable {format : Format} {fuel : Nat} {seen seen' : List Address}

/-- Values have the same text if their parts have with less fuel. -/
theorem value_succ (ih : RendersAlike ev format fuel) (nested : Bool) (hseen : Seen ρ seen seen')
    {v v' : Value} (hv : v.Alike ρ v') :
    Mirrors Same ρ (Render.value ev format (fuel + 1) nested seen v)
      (Render.value ev format (fuel + 1) nested seen' v') := by
  unfold Render.value
  refine (hev ρ _ _ hv).bind fun σ hρσ v v' hv => ?_
  replace hseen := hseen.mono hρσ
  cases hv with
  | list h => exact (ih.items 0 hseen h).bind_same fun _ _ _ => .pure rfl
  | function h =>
    refine .heap_bind fun _ _ hh => ?_
    dsimp only
    rw [(hh.function h).name, (hh.function h).remaining_eq]
    exact .pure rfl
  | @same v h =>
    cases v with
    | list _ | function _ => cases h
    | single x | double x =>
      -- one and the same number: both sides write it, fail or crash
      dsimp only [Render.floatValue]
      split
      · split
        · exact .throw _
        · exact .pure rfl
      · exact .fail _
    | record r =>
      have hplace : σ.Places (.node .record r.index) (.node .record r.index) := .other (by simp)
      dsimp only
      -- the objects around the values correspond, so both sides write `...` or neither does
      rw [hseen.contains_eq hplace]
      split
      · exact .pure rfl
      · refine .heap_bind fun _ _ hh => ?_
        exact (ih.fields (hseen.cons hplace) (hh.record r)).bind_same fun _ _ _ => .pure rfl
    | variant r =>
      have hplace : σ.Places (.node .variant r.index) (.node .variant r.index) := .other (by simp)
      dsimp only
      rw [hseen.contains_eq hplace]
      split
      · exact .pure rfl
      · refine .heap_bind fun _ _ hh => ?_
        have hvariant := hh.variant r
        refine (hev σ _ _ hvariant.payload).bind fun τ hστ payload payload' hpayload => ?_
        rw [hpayload.isUnit_eq, hvariant.tag]
        split
        · exact .pure rfl
        · have hwrap : Mirrors Same τ (Eval.find (Render.needsParentheses? · payload))
              (Eval.find (Render.needsParentheses? · payload')) := by
            refine .find fun h h' hh => ?_
            rw [needsParentheses?_alike hh hpayload]
            cases Render.needsParentheses? h' payload' with
            | none => exact .none
            | some wrap => exact .some rfl
          refine hwrap.bind_same fun υ hτυ wrap => ?_
          have hseen := (hseen.cons hplace).mono (hστ.trans hτυ)
          exact (ih.value true hseen (hpayload.mono hτυ)).bind_same fun _ _ _ => .pure rfl
    | module m =>
      refine .heap_bind fun _ _ hh => ?_
      rw [(hh.module m).name]
      exact .pure rfl
    | _ => exact .pure rfl

omit hev in
/-- Fields have the same text if values have with less fuel. -/
theorem fields_succ (ih : RendersAlike ev format fuel) (hseen : Seen ρ seen seen')
    {es es' : List (String × Value)} (hes : Entries ρ es es') :
    Mirrors Same ρ (Render.fields ev format (fuel + 1) seen es)
      (Render.fields ev format (fuel + 1) seen' es') := by
  cases hes with
  | nil => exact .pure rfl
  | @cons e e' es es' he hes =>
    obtain ⟨name, v⟩ := e
    obtain ⟨name', v'⟩ := e'
    obtain ⟨rfl, hv⟩ := he
    refine (ih.value true hseen hv).bind_same fun σ hρσ text => ?_
    exact (ih.fields (hseen.mono hρσ) (Entries.mono hρσ hes)).bind_same fun _ _ _ => .pure rfl

/-- Items have the same text if values and rests have with less fuel. -/
theorem items_succ (ih : RendersAlike ev format fuel) (shown : Nat) (hseen : Seen ρ seen seen')
    {list list' : Option (Ref .cell)} (hlist : ρ.Lists list list') :
    Mirrors Same ρ (Render.items ev format (fuel + 1) shown seen list)
      (Render.items ev format (fuel + 1) shown seen' list') := by
  cases hlist with
  | none => exact .pure rfl
  | some hc =>
    unfold Render.items
    dsimp only
    rw [hseen.contains_eq (.cell hc)]
    split
    · exact .pure rfl
    · refine .heap_bind fun _ _ hh => ?_
      refine (ih.value true (hseen.cons (.cell hc)) (hh.cell hc).head).bind_same
        fun σ hρσ text => ?_
      refine (Spine.next_mirrors hev (hc.mono hρσ)).bind fun τ hστ rest rest' hrest => ?_
      have hseen' := (hseen.cons (.cell hc)).mono (hρσ.trans hστ)
      exact (ih.items (shown + 1) hseen' hrest).bind_same fun _ _ _ => .pure rfl

/-- Texts are the same with any fuel. -/
theorem all (format : Format) (fuel : Nat) : RendersAlike ev format fuel := by
  induction fuel with
  | zero =>
    exact ⟨fun _ _ _ _ _ _ _ => .throw _, fun _ _ => .throw _, fun _ _ _ _ _ _ _ => .throw _⟩
  | succ fuel ih =>
    exact ⟨fun nested _ _ _ _ hseen hv => value_succ hev ih nested hseen hv,
      fun hseen hes => fields_succ ih hseen hes,
      fun shown _ _ _ _ hseen hlist => items_succ hev ih shown hseen hlist⟩

end RendersAlike

/-- Alike values have the same text. -/
theorem render_mirrors (format : Format) {v v' : Value} (hv : v.Alike ρ v') :
    Mirrors Same ρ (render ev format v) (render ev format v') :=
  Mirrors.ensureLive.bind_same fun _ hρσ _ =>
    (RendersAlike.all hev format ev.fuel).value false .nil (hv.mono hρσ)

/-! ### Containers -/

/-- Alike values are reported by the same text. -/
theorem display_mirrors {v v' : Value} (hv : v.Alike ρ v') :
    Mirrors Same ρ (display ev v) (display ev v') := by
  refine (Mirrors.isolated {} (render_mirrors hev {} hv)).bind fun σ _ shown shown' hshown => ?_
  obtain ⟨answer, own⟩ := shown
  obtain ⟨answer', own'⟩ := shown'
  obtain ⟨hanswer, rfl⟩ := hshown
  cases hanswer with
  | ok h =>
    cases h
    exact .pure rfl
  | error _ =>
    dsimp only
    split
    · exact .pure rfl
    · exact .pure rfl

/-- A missing entry is reported alike, by the container's type and the key's text. -/
theorem indexOutOfRange_mirrors {V : Renaming → α → β → Prop}
    {container key container' key' : Value}
    (hcontainer : container.typeName = container'.typeName) (hkey : key.Alike ρ key') :
    Mirrors V ρ (indexOutOfRange ev container key) (indexOutOfRange ev container' key') := by
  refine (display_mirrors hev hkey).bind_same fun σ _ text => ?_
  rw [hcontainer, hkey.typeName_eq]
  exact .fail _

/-- Alike entries are found, or the same failure is recorded. -/
theorem foundAt_mirrors {container key container' key' : Value}
    (hcontainer : container.typeName = container'.typeName) (hkey : key.Alike ρ key')
    {found found' : Option Value} (hfound : Option.Rel (Value.Alike ρ) found found') :
    Mirrors Value.Alike ρ (foundAt ev container key found) (foundAt ev container' key' found') := by
  cases hfound with
  | some h => exact .pure h
  | none => exact indexOutOfRange_mirrors hev hcontainer hkey

omit hev in
/-- Keys of a wrong type are reported alike. -/
theorem invalidIndexType_mirrors {V : Renaming → α → β → Prop}
    {container key container' key' : Value} (hcontainer : container.typeName = container'.typeName)
    (hkey : key.Alike ρ key') :
    Mirrors V ρ (invalidIndexType container key) (invalidIndexType container' key') := by
  rw [invalidIndexType, invalidIndexType, hcontainer, hkey.typeName_eq]
  exact .fail _

/-- A foreign value has the same entries for alike keys. -/
theorem foreignGet_mirrors (f : Foreign) {key key' : Value} (hkey : key.Alike ρ key') :
    Mirrors Value.Alike ρ (f.get ev key) (f.get ev key') := by
  unfold Foreign.get
  split
  · cases hkey with
    | list h => exact indexOutOfRange_mirrors hev rfl (.list h)
    | function h => exact indexOutOfRange_mirrors hev rfl (.function h)
    | same h =>
      split
      · split
        · exact .pure (.same rfl)
        · exact indexOutOfRange_mirrors hev rfl (.same h)
      · exact indexOutOfRange_mirrors hev rfl (.same h)
  · exact .invalidOperand _ (.same rfl) hkey

/-- Alike values have the same length. -/
theorem length_mirrors {v v' : Value} (hv : v.Alike ρ v') :
    Mirrors Value.Alike ρ (length ev v) (length ev v') := by
  refine (hev ρ _ _ hv).bind fun σ _ v v' hv => ?_
  cases hv with
  | list h =>
    exact (Spine.lengthFrom_mirrors hev ev.fuel h 0).bind_same fun _ _ n =>
      .pure (.same (isRigid_of_isAtom (isAtom_countValue n)))
  | function h => exact .invalidUnary _ (.function h)
  | @same v h =>
    cases v with
    | str s => exact .pure (.same (isRigid_of_isAtom (isAtom_countValue _)))
    | list _ | function _ => contradiction
    | record r =>
      refine .heap_bind fun h h' hh => ?_
      rw [Record.length, Record.length, (hh.record r).length_eq]
      exact .pure (.same (isRigid_of_isAtom (isAtom_countValue _)))
    | module m =>
      refine .heap_bind fun h h' hh => ?_
      rw [Record.length, Record.length, (hh.module m).exports.length_eq]
      exact .pure (.same (isRigid_of_isAtom (isAtom_countValue _)))
    | foreign f => exact foreignLength_mirrors f
    | _ => exact .fail _

/-- Alike containers have alike entries for alike keys. -/
theorem getValue_mirrors {container key container' key' : Value}
    (hcontainer : container.Alike ρ container') (hkey : key.Alike ρ key') :
    Mirrors Value.Alike ρ (getValue ev container key) (getValue ev container' key') := by
  refine (hev ρ _ _ hcontainer).bind fun σ hρσ container container' hcontainer => ?_
  refine (hev σ _ _ (hkey.mono hρσ)).bind fun τ hστ key key' hkey => ?_
  replace hcontainer := hcontainer.mono hστ
  cases hcontainer with
  | list h =>
    dsimp only
    -- keys that are alike stand for the same position
    rw [hkey.ordinal?_eq]
    split
    · exact invalidIndexType_mirrors rfl hkey
    · split
      · exact (Spine.nth_mirrors hev _ h).bind fun υ hτυ _ _ hfound =>
          foundAt_mirrors hev rfl (hkey.mono hτυ) hfound
      · exact indexOutOfRange_mirrors hev rfl hkey
  | function h => exact .invalidOperand _ (.function h) hkey
  | same h =>
    cases container with
    | str s =>
      dsimp only
      rw [hkey.ordinal?_eq]
      split
      · exact invalidIndexType_mirrors rfl hkey
      · refine foundAt_mirrors hev rfl hkey ?_
        cases position? _ with
        | none => exact .none
        | some i =>
          dsimp only [Option.bind_some]
          cases s.text.toList[i]? with
          | none => exact .none
          | some c => exact .some (.same rfl)
    | list _ | function _ => contradiction
    | record r =>
      refine .heap_bind fun h h' hh => ?_
      have hrecord := hh.record r
      cases hkey with
      | list h => exact invalidIndexType_mirrors rfl (.list h)
      | function h => exact invalidIndexType_mirrors rfl (.function h)
      | same hkey =>
        dsimp only
        split
        · exact foundAt_mirrors hev rfl (.same rfl) (hrecord.get? _)
        · split
          · refine foundAt_mirrors hev rfl (.same hkey) ?_
            cases position? _ with
            | none => exact .none
            | some i => exact hrecord.at? i
          · exact invalidIndexType_mirrors rfl (.same hkey)
    | module m =>
      cases hkey with
      | list h => exact invalidIndexType_mirrors rfl (.list h)
      | function h => exact invalidIndexType_mirrors rfl (.function h)
      | same hkey =>
        dsimp only
        split
        · exact .heap_bind fun h h' hh =>
            foundAt_mirrors hev rfl (.same rfl) ((hh.module m).exports.get? _)
        · exact invalidIndexType_mirrors rfl (.same hkey)
    | foreign f => exact foreignGet_mirrors hev f hkey
    | _ => exact .invalidOperand _ (.same rfl) hkey

/-- A record with a field replaced, unless there is no such field. -/
theorem updated_mirrors (updated updated' : Option Record) {r : Ref .record} {key key' : Value}
    (hkey : key.Alike ρ key') :
    Option.Rel (fun a b : Record => Entries ρ a.fields b.fields) updated updated' →
    Mirrors Value.Alike ρ
      (match updated with
      | some updated => Eval.makeRecord updated
      | none => indexOutOfRange ev (.record r) key)
      (match updated' with
      | some updated => Eval.makeRecord updated
      | none => indexOutOfRange ev (.record r) key') := by
  intro hupdated
  cases hupdated with
  | none => exact indexOutOfRange_mirrors hev rfl hkey
  | some h => exact .makeRecord h

/-- Replacing an entry in alike containers gives alike ones. -/
theorem setValue_mirrors {container key item container' key' item' : Value}
    (hcontainer : container.Alike ρ container') (hkey : key.Alike ρ key')
    (hitem : item.Alike ρ item') :
    Mirrors Value.Alike ρ (setValue ev container key item)
      (setValue ev container' key' item') := by
  refine (hev ρ _ _ hcontainer).bind fun σ hρσ container container' hcontainer => ?_
  refine (hev σ _ _ (hkey.mono hρσ)).bind fun τ hστ key key' hkey => ?_
  replace hcontainer := hcontainer.mono hστ
  replace hitem := hitem.mono (hρσ.trans hστ)
  cases hcontainer with
  | list h =>
    dsimp only
    rw [hkey.ordinal?_eq]
    split
    · exact invalidIndexType_mirrors rfl hkey
    · split
      · exact indexOutOfRange_mirrors hev rfl hkey
      · refine (Spine.setNth_mirrors hev hitem _ h).bind fun υ hτυ _ _ hupdated => ?_
        cases hupdated with
        | some hc => exact .pure (.list (.some hc))
        | none => exact indexOutOfRange_mirrors hev rfl (hkey.mono hτυ)
  | function h => exact .invalidOperand _ (.function h) hkey
  | same h =>
    cases container with
    | list _ | function _ => contradiction
    | record r =>
      refine .heap_bind fun h h' hh => ?_
      have hrecord := hh.record r
      -- at one and the same position the items are alike
      have hset (i : Option Nat) :
          Option.Rel (fun a b : Record => Entries τ a.fields b.fields)
            (i.bind fun i => (h.record r).setAt? i item)
            (i.bind fun i => (h'.record r).setAt? i item') := by
        cases i with
        | none => exact .none
        | some i => exact hrecord.setAt? i hitem
      cases hkey with
      | list h => exact invalidIndexType_mirrors rfl (.list h)
      | function h => exact invalidIndexType_mirrors rfl (.function h)
      | same hkey =>
        dsimp only
        split
        · rw [hrecord.position?_eq]
          exact updated_mirrors hev _ _ (.same rfl) (hset _)
        · split
          · exact updated_mirrors hev _ _ (.same hkey) (hset _)
          · exact invalidIndexType_mirrors rfl (.same hkey)
    | _ => exact .invalidOperand _ (.same rfl) hkey

/-! ### Sequences -/

/-- Alike values have alike heads. -/
theorem head_mirrors {v v' : Value} (hv : v.Alike ρ v') :
    Mirrors Value.Alike ρ (head ev v) (head ev v') := by
  refine (hev ρ _ _ hv).bind fun σ _ v v' hv => ?_
  cases hv with
  | list h =>
    cases h with
    | none => exact .fail _
    | some hc => exact .heap_bind fun h h' hh => .pure (hh.cell hc).head
  | function h => exact .fail _
  | @same v h =>
    cases v with
    | str s =>
      dsimp only
      split
      · exact .pure (.same rfl)
      · exact .fail _
    | list _ | function _ => contradiction
    | _ => exact .fail _

/-- Alike values have alike tails. -/
theorem tail_mirrors {v v' : Value} (hv : v.Alike ρ v') :
    Mirrors Value.Alike ρ (tail ev v) (tail ev v') := by
  refine (hev ρ _ _ hv).bind fun σ _ v v' hv => ?_
  cases hv with
  | list h =>
    cases h with
    | none => exact .fail _
    | some hc => exact .heap_bind fun h h' hh => .pure (hh.cell hc).tail
  | function h => exact .fail _
  | @same v h =>
    cases v with
    | str s =>
      dsimp only
      split
      · exact .makeStr _
      · exact .fail _
    | list _ | function _ => contradiction
    | _ => exact .fail _

/-- Alike values are empty in both runs or in neither. -/
theorem isNil_mirrors {v v' : Value} (hv : v.Alike ρ v') :
    Mirrors Same ρ (isNil ev v) (isNil ev v') := by
  refine (hev ρ _ _ hv).bind fun σ _ v v' hv => ?_
  cases hv with
  | list h => exact .pure h.isNone_eq
  | function h => exact .fail _
  | @same v h =>
    cases v with
    | list _ | function _ => contradiction
    | str s => exact .pure rfl
    | _ => exact .fail _

omit hev in
/-- Consing alike values gives alike lists. -/
theorem cons_mirrors {x x' v v' : Value} (hx : x.Alike ρ x') (hv : v.Alike ρ v') :
    Mirrors Value.Alike ρ (cons ev x v) (cons ev x' v') := by
  refine Mirrors.ensureLive.bind_same fun σ hρσ _ => ?_
  replace hv := hv.mono hρσ
  refine (Mirrors.resolve hv).bind fun τ hστ rest rest' hrest => ?_
  replace hx := hx.mono (hρσ.trans hστ)
  replace hv := hv.mono hστ
  -- the tail decides what is made; if it is lazy, the cell gets the tail as it was given
  cases hrest with
  | list h => exact (Mirrors.makeCell hx (.list h)).map fun _ _ _ _ hc => .list (.some hc)
  | function h => exact .invalidOperand _ hx (.function h)
  | @same rest h =>
    cases rest with
    | lazy t => exact (Mirrors.makeCell hx hv).map fun _ _ _ _ hc => .list (.some hc)
    | list _ | function _ => contradiction
    | str s =>
      refine (Mirrors.resolve hx).bind fun υ hτυ first first' hfirst => ?_
      replace hv := hv.mono hτυ
      cases hfirst with
      | list h => exact .invalidOperand _ (.list h) hv
      | function h => exact .invalidOperand _ (.function h) hv
      | same h =>
        split
        · exact .makeStr _
        · exact .invalidOperand _ (.same h) hv
    | foreign f => exact foreignBinary_mirrors f .cons hx hv
    | _ => exact .invalidOperand _ hx (.same h)

/-- Alike values have the same empty sequence. -/
theorem nilOf_mirrors {v v' : Value} (hv : v.Alike ρ v') :
    Mirrors Value.Alike ρ (nilOf ev v) (nilOf ev v') := by
  refine (hev ρ _ _ hv).bind fun σ _ v v' hv => ?_
  cases hv with
  | list h => exact .pure (.list .none)
  | function h => exact .fail _
  | @same v h =>
    cases v with
    | list _ | function _ => contradiction
    | str s => exact .makeStr _
    | record r => exact .makeRecord .nil
    | _ => exact .fail _

/-- Adding alike items to alike sequences gives alike ones. -/
theorem generate_mirrors {acc item acc' item' : Value} (hacc : acc.Alike ρ acc')
    (hitem : item.Alike ρ item') :
    Mirrors Value.Alike ρ (generate ev acc item) (generate ev acc' item') := by
  refine (hev ρ _ _ hacc).bind fun σ hρσ acc acc' hacc => ?_
  replace hitem := hitem.mono hρσ
  cases hacc with
  | list h => exact (Mirrors.makeCell hitem (.list h)).map fun _ _ _ _ hc => .list (.some hc)
  | function h => exact .invalidOperand _ (.function h) hitem
  | @same acc h =>
    cases acc with
    | list _ | function _ => contradiction
    | str s =>
      refine (hev σ _ _ hitem).bind fun τ _ item item' hitem => ?_
      cases hitem with
      | list h => exact .fail _
      | function h => exact .fail _
      | same h =>
        split
        · exact .makeStr _
        · exact .makeStr _
        · exact .fail _
    | _ => exact .invalidOperand _ (.same rfl) hitem

/-- Finishing alike sequences gives alike ones. -/
theorem finalize_mirrors {acc acc' : Value} (hacc : acc.Alike ρ acc') :
    Mirrors Value.Alike ρ (finalize ev acc) (finalize ev acc') := by
  refine (hev ρ _ _ hacc).bind fun σ _ acc acc' hacc => ?_
  cases hacc with
  | list h =>
    exact (Spine.reverseOnto_mirrors hev ev.fuel h .none).map fun _ _ _ _ h => .list h
  | function h => exact .fail _
  | @same acc h =>
    cases acc with
    | list _ | function _ => contradiction
    | str s => exact .pure (.same rfl)
    | _ => exact .fail _

/-- Alike values have alike tags. -/
theorem tagOf_mirrors {v v' : Value} (hv : v.Alike ρ v') :
    Mirrors Value.Alike ρ (tagOf ev v) (tagOf ev v') := by
  refine (hev ρ _ _ hv).bind fun σ _ v v' hv => ?_
  cases hv with
  | list h => exact .fail _
  | function h => exact .fail _
  | @same v h =>
    cases v with
    | variant r =>
      refine .heap_bind fun h h' hh => ?_
      exact .pure (.of_eq (congrArg Value.str (hh.variant r).tag) rfl)
    | list _ | function _ => contradiction
    | _ => exact .fail _

/-- Alike values have alike payloads. -/
theorem untag_mirrors {v v' : Value} (hv : v.Alike ρ v') :
    Mirrors Value.Alike ρ (untag ev v) (untag ev v') := by
  refine (hev ρ _ _ hv).bind fun σ _ v v' hv => ?_
  cases hv with
  | list h => exact .fail _
  | function h => exact .fail _
  | @same v h =>
    cases v with
    | variant r => exact .heap_bind fun h h' hh => .pure (hh.variant r).payload
    | list _ | function _ => contradiction
    | _ => exact .fail _

/-- Concatenations of alike values are alike. -/
theorem concat_mirrors {l r l' r' : Value} (hl : l.Alike ρ l') (hr : r.Alike ρ r') :
    Mirrors Value.Alike ρ (concat ev l r) (concat ev l' r') := by
  cases hl with
  | list hl =>
    cases hr with
    | list hr =>
      cases hr with
      | none => exact .pure (.list hl)
      | some hr =>
        refine (Spine.collectFrom_mirrors hev ev.fuel hl .nil).bind fun σ hρσ _ _ hvs => ?_
        exact (Mirrors.prepend hvs (.some (hr.mono hρσ))).map fun _ _ _ _ h => .list h
    | function hr => exact .invalidOperand _ (.list hl) (.function hr)
    | @same r hr =>
      cases r with
      | list _ => contradiction
      | _ => exact .invalidOperand _ (.list hl) (.same hr)
  | function hl =>
    exact .invalidOperand _ (.function hl) hr
  | @same l hl =>
    cases hr with
    | list hr =>
      cases l with
      | list _ => contradiction
      | _ => exact .invalidOperand _ (.same hl) (.list hr)
    | function hr =>
      cases l with
      | list _ => contradiction
      | _ => exact .invalidOperand _ (.same hl) (.function hr)
    | same hr =>
      -- what is the same on both sides is not a list, so nothing but texts and records is joined
      unfold concat
      split
      · exact .makeStr _
      · exact .makeStr _
      · exact .makeStr _
      · exact .makeStr _
      · exact nomatch hl
      · exact nomatch hl
      · refine .heap_bind fun h h' hh => .makeRecord ?_
        exact List.rel_append (hh.record _) (hh.record _)
      · exact .invalidOperand _ (.same hl) (.same hr)

/-- Binary operations on alike values have alike results. -/
theorem binary_mirrors (op : BinaryOp) {l r l' r' : Value} (hl : l.Alike ρ l')
    (hr : r.Alike ρ r') : Mirrors Value.Alike ρ (binary ev op l r) (binary ev op l' r') := by
  refine Mirrors.ensureLive.bind_same fun σ hρσ _ => ?_
  replace hl := hl.mono hρσ
  replace hr := hr.mono hρσ
  split
  · exact cons_mirrors hl hr
  · exact relation_mirrors hev _ hl hr
  · exact relation_mirrors hev _ hl hr
  · exact relation_mirrors hev _ hl hr
  · exact relation_mirrors hev _ hl hr
  · exact relation_mirrors hev _ hl hr
  · exact relation_mirrors hev _ hl hr
  · refine (hev σ _ _ hl).bind fun τ hστ l l' hl => ?_
    refine (hev τ _ _ (hr.mono hστ)).bind fun υ hτυ r r' hr => ?_
    replace hl := hl.mono hτυ
    refine foreign_mirrors op hl hr ?_
    split
    · exact arithmetic_mirrors op _ hl hr
    · exact bitwise_mirrors op _ hl hr
    · exact concat_mirrors hev hl hr

/-! ### Conversion -/

/-- Alike items are the same characters, or not all of them are characters. -/
theorem charsOf?_mirrors {vs vs' : List Value} (hvs : Values ρ vs vs') :
    Mirrors Same ρ (charsOf? ev vs) (charsOf? ev vs') := by
  induction vs generalizing ρ vs' with
  | nil =>
    cases hvs
    exact .pure rfl
  | cons v vs ih =>
    cases hvs with
    | cons hv hvs =>
      refine (hev ρ _ _ hv).bind fun σ hρσ v v' hv => ?_
      cases hv with
      | list h => exact .pure rfl
      | function h => exact .pure rfl
      | same h =>
        split
        · exact (ih (Values.mono hρσ hvs)).bind_same fun _ _ _ => .pure rfl
        · exact .pure rfl

/-- Alike values are converted to alike ones. -/
theorem convert_mirrors {v v' : Value} (hv : v.Alike ρ v') (target : Kind) :
    Mirrors Value.Alike ρ (convert ev v target) (convert ev v' target) := by
  refine (hev ρ _ _ hv).bind fun σ _ v v' hv => ?_
  cases hv with
  | list h =>
    have hv : Value.Alike σ _ _ := .list h
    cases target with
    | list => exact .pure hv
    | string =>
      refine (Spine.collectFrom_mirrors hev ev.fuel h .nil).bind fun τ hστ vs vs' hvs => ?_
      -- both lists hold characters only, the same ones, or neither does
      refine (charsOf?_mirrors hev hvs).bind_same fun υ hτυ chars => ?_
      cases chars with
      | some cs => exact .makeStr _
      | none =>
        exact (render_mirrors hev {} (hv.mono (hστ.trans hτυ))).bind_same fun _ _ _ => .makeStr _
    | typeInfo => exact .typeInfo hv
    | _ => exact .conversionFailed hv _
  | function h =>
    have hv : Value.Alike σ _ _ := .function h
    cases target with
    | function => exact .pure hv
    | string => exact (render_mirrors hev {} hv).bind_same fun _ _ _ => .makeStr _
    | typeInfo => exact .typeInfo hv
    | _ => exact .conversionFailed hv _
  | same h =>
    split
    · exact foreignConvert_mirrors _ target
    · split
      · exact .pure (.same h)
      · split
        · exact nomatch h
        · exact (render_mirrors hev {} (.same h)).bind_same fun _ _ _ => .makeStr _
        · exact .typeInfo (.same h)
        · refine .makeList (List.forall₂_same.mpr fun v hv => ?_)
          obtain ⟨c, -, rfl⟩ := List.mem_map.mp hv
          exact .same rfl
        · split
          · next hscalar => exact .pure (.same (isRigid_of_isAtom (isAtom_convertScalar? hscalar)))
          · exact .conversionFailed (.same h) _

/-- Alike values have the same type. -/
theorem typeOf_mirrors {v v' : Value} (hv : v.Alike ρ v') :
    Mirrors Value.Alike ρ (typeOf ev v) (typeOf ev v') :=
  (hev ρ _ _ hv).bind fun _ _ _ _ hv => .typeInfo hv

/-- Alike values have the same text by a spec. -/
theorem renderAs_mirrors {v v' : Value} (hv : v.Alike ρ v') (spec : String) :
    Mirrors Same ρ (renderAs ev v spec) (renderAs ev v' spec) := by
  unfold renderAs
  split
  · exact render_mirrors hev _ hv
  · refine (Mirrors.resolve hv).bind fun σ _ v v' hv => ?_
    rw [hv.typeName_eq]
    exact .fail _

end Walks

end LazyMachine
