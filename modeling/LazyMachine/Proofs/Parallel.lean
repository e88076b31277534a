import LazyMachine.Proofs.Outcome

/-!
# How operations are composed

Every operation on values is composed of a few kinds of steps: it looks at the heap, adds objects
other than thunks and functions to it, fails, runs out of fuel, and forces values by the evaluator
that it is given. If it shows values in a format that is too wide for the host, it may also crash,
and a foreign value answers as the host has it. `Parallel extra ev ev' x y` says that `x` and `y`
are composed in the same way, `x` with the forces of `ev` and `y` with those of `ev'`, except that
`x` may run out of fuel where `y` goes on; `extra` says whether there can be crashes in them and
what foreign values may answer. In the standard embedding their answers are composed of the other
steps themselves.

The catalogue below shows this of every operation. What then holds of each kind of step holds of
every operation, by induction on `Parallel`:

* with `ev = ev'` for a property of one evaluation;
* with `ev` and `ev'` of different fuel for a comparison of two of them.
-/

namespace LazyMachine

/-- All entries of `xs` are entries of `ys` at the same positions. -/
def Kept {α : Type} (xs ys : Array α) : Prop :=
  ∀ (i : Nat) (a : α), xs[i]? = some a → ys[i]? = some a

theorem Kept.refl {α : Type} (xs : Array α) : Kept xs xs := fun _ _ h => h

theorem Kept.trans {α : Type} {xs ys zs : Array α} (h : Kept xs ys) (h' : Kept ys zs) :
    Kept xs zs := fun i a hi => h' i a (h i a hi)

/-- Adding an entry keeps those that are there. -/
theorem Kept.push {α : Type} (xs : Array α) (a : α) : Kept xs (xs.push a) := by
  intro i b hi
  have hlt : i < xs.size := (Array.getElem?_eq_some_iff.mp hi).1
  rw [Array.getElem?_push, if_neg (by omega), hi]

/-- A kept entry is found where it was. -/
theorem Kept.getD_eq {α : Type} {xs ys : Array α} (hkept : Kept xs ys) {i : Nat} (hi : i < xs.size)
    (a : α) : ys.getD i a = xs.getD i a := by
  have hget := Array.getElem?_eq_getElem hi
  rw [Array.getD_eq_getD_getElem?, Array.getD_eq_getD_getElem?, hkept _ _ hget, hget]

/-- A kept entry is within bounds. -/
theorem Kept.size_le {α : Type} {xs ys : Array α} (hkept : Kept xs ys) {i : Nat}
    (hi : i < xs.size) : i < ys.size :=
  (Array.getElem?_eq_some_iff.mp (hkept _ _ (Array.getElem?_eq_getElem hi))).1

/-- A list, or a lazy value that yields one. -/
def Value.IsTail : Value → Prop
  | .list _ | .lazy _ => True
  | _ => False

/-- A lazy value may stand behind a head. -/
theorem Value.isTail_of_isLazy {v : Value} (hv : v.isLazy = true) : v.IsTail := by
  cases v with
  | lazy t => trivial
  | _ => cases hv

namespace Heap

/-- The objects of `h` other than thunks are in `h'` as they are. -/
structure Retains (h h' : Heap) : Prop where
  cells : Kept h.cells h'.cells
  records : Kept h.records h'.records
  variants : Kept h.variants h'.variants
  functions : Kept h.functions h'.functions
  modules : Kept h.modules h'.modules

theorem Retains.refl (h : Heap) : h.Retains h where
  cells := .refl _
  records := .refl _
  variants := .refl _
  functions := .refl _
  modules := .refl _

/-- The objects other than thunks are the same, whatever becomes of the thunks. -/
theorem retains_withThunks (h : Heap) (thunks : Array Thunk) : h.Retains { h with thunks } :=
  { Retains.refl h with }

theorem Retains.trans {a b c : Heap} (hab : a.Retains b) (hbc : b.Retains c) : a.Retains c where
  cells := hab.cells.trans hbc.cells
  records := hab.records.trans hbc.records
  variants := hab.variants.trans hbc.variants
  functions := hab.functions.trans hbc.functions
  modules := hab.modules.trans hbc.modules

/-- `h'` has the objects of `h` and perhaps more of them, but the same thunks. -/
structure Extends (h h' : Heap) : Prop extends h.Retains h' where
  thunks : h'.thunks = h.thunks

theorem Extends.refl (h : Heap) : h.Extends h where
  toRetains := .refl h
  thunks := rfl

theorem Extends.trans {a b c : Heap} (hab : a.Extends b) (hbc : b.Extends c) : a.Extends c where
  toRetains := hab.toRetains.trans hbc.toRetains
  thunks := hbc.thunks.trans hab.thunks

/-- A new cell extends the heap. -/
theorem extends_addCell (h : Heap) (c : Cell) : h.Extends (h.addCell c).2 :=
  { Extends.refl h with cells := Kept.push _ _ }

/-- A new record extends the heap. -/
theorem extends_addRecord (h : Heap) (r : Record) : h.Extends (h.addRecord r).2 :=
  { Extends.refl h with records := Kept.push _ _ }

/-- A new function extends the heap. -/
theorem extends_addFunction (h : Heap) (f : Function) : h.Extends (h.addFunction f).2 :=
  { Extends.refl h with functions := Kept.push _ _ }

/-- A new variant extends the heap. -/
theorem extends_addVariant (h : Heap) (v : Variant) : h.Extends (h.addVariant v).2 :=
  { Extends.refl h with variants := Kept.push _ _ }

/-- A new module extends the heap. -/
theorem extends_addModule (h : Heap) (m : Module) : h.Extends (h.addModule m).2 :=
  { Extends.refl h with modules := Kept.push _ _ }

/-- A stamp takes no object. -/
theorem extends_freshStamp (h : Heap) : h.Extends h.freshStamp.2 :=
  { Extends.refl h with }

/-- What evaluations put behind the head of a new cell: a list, a lazy value, or what already stands
behind a head. -/
def Follows (h : Heap) (v : Value) : Prop :=
  v.IsTail ∨ ∃ c : Ref .cell, v = (h.cell c).tail

/-- What evaluations make as a new function: one without arguments that is no overload table, or a
partial application of a function that lacks more arguments than it is given. -/
def Makes (h : Heap) (f : Function) : Prop :=
  (f.applied = [] ∧ ∀ table, f.body ≠ .overloaded table) ∨
  ∃ (g : Ref .function) (args : List Value), args.length < (h.function g).remaining ∧
    f = { h.function g with applied := (h.function g).applied ++ args }

/-- The objects that `h'` has besides those of `h` are as evaluations make them. -/
structure Grows (h h' : Heap) : Prop extends h.Extends h' where
  tails : ∀ c ∈ h'.cells, c ∈ h.cells ∨ h.Follows c.tail
  made : ∀ f ∈ h'.functions, f ∈ h.functions ∨ h.Makes f

/-- Nothing has to be said of objects other than cells and functions. -/
theorem Extends.grows {h h' : Heap} (e : h.Extends h') (hcells : h'.cells = h.cells)
    (hfunctions : h'.functions = h.functions) : h.Grows h' :=
  { e with
    tails := fun _ hc => .inl (hcells ▸ hc)
    made := fun _ hf => .inl (hfunctions ▸ hf) }

/-- A stamp is no object. -/
theorem grows_freshStamp (h : Heap) : h.Grows h.freshStamp.2 :=
  h.extends_freshStamp.grows rfl rfl

/-- A new cell is as evaluations make it if its tail may stand there. -/
theorem grows_addCell {h : Heap} {c : Cell} (hc : h.Follows c.tail) : h.Grows (h.addCell c).2 :=
  { h.extends_addCell c with
    tails := fun d hd => (Array.mem_push.mp hd).imp_right (by rintro rfl; exact hc)
    made := fun _ => .inl }

/-- A new function is as evaluations make it if it is of their kinds. -/
theorem grows_addFunction {h : Heap} {f : Function} (hf : h.Makes f) :
    h.Grows (h.addFunction f).2 :=
  { h.extends_addFunction f with
    tails := fun _ => .inl
    made := fun g hg => (Array.mem_push.mp hg).imp_right (by rintro rfl; exact hf) }

end Heap

/-- Floating-point numbers have more digits in the format than the host writes. -/
def Format.Wide (format : Format) : Prop :=
  format.radix = .decimal ∧ format.style.fits = false

/-- The digits asked for are compared with what the host writes. -/
instance (format : Format) : Decidable format.Wide :=
  inferInstanceAs (Decidable (_ ∧ _))

/-- The default format is not wide. -/
theorem Format.not_wide_default : ¬ ({} : Format).Wide := by
  decide

/-- The operation shows a value in a wide format. -/
def Operation.Wide : Operation → Prop
  | .render _ format => format.Wide
  | .renderAs _ spec => ∃ format, Format.ofSpec? spec = some format ∧ format.Wide
  | _ => False

/-- What a foreign value answers with one evaluator and with another. -/
inductive ForeignAnswers [Embedding] (ev ev' : Evaluator) : {α : Type} → Eval α → Eval α → Prop
  | text (format : Format) (f : Foreign) :
      ForeignAnswers ev ev' (ForeignText.text ev format f) (ForeignText.text ev' format f)
  | binary (f : Foreign) (op : BinaryOp) (l r : Value) :
      ForeignAnswers ev ev' (Embedding.binary ev f op l r) (Embedding.binary ev' f op l r)
  | unary (f : Foreign) (op : UnaryOp) :
      ForeignAnswers ev ev' (Embedding.unary ev f op) (Embedding.unary ev' f op)
  | equal (f : Foreign) (other : Value) :
      ForeignAnswers ev ev' (Embedding.equal ev f other) (Embedding.equal ev' f other)
  | length (f : Foreign) : ForeignAnswers ev ev' (Embedding.length ev f) (Embedding.length ev' f)
  | get (f : Foreign) (key : Value) :
      ForeignAnswers ev ev' (Embedding.get ev f key) (Embedding.get ev' f key)
  | call (f : Foreign) (args : List Value) :
      ForeignAnswers ev ev' (Embedding.call ev f args) (Embedding.call ev' f args)
  | convert (f : Foreign) (target : Kind) :
      ForeignAnswers ev ev' (Embedding.convert ev f target) (Embedding.convert ev' f target)

/-- Steps that only some evaluations are composed of. -/
structure Extra where
  /-- Numbers may have too many digits for the host. -/
  crashes : Prop
  /-- Steps that are taken as they are, like the answers of foreign values. -/
  answers : {α : Type} → Eval α → Eval α → Prop

namespace Extra

/-- Crashes only. -/
def crashing (wide : Prop) : Extra where
  crashes := wide
  answers _ _ := False

/-- No such step. -/
abbrev none : Extra :=
  crashing False

end Extra

/-- The evaluator that has run out of fuel. -/
abbrev Evaluator.spent : Evaluator :=
  ⟨0, fun _ => throw .exhausted, fun _ => throw .exhausted⟩

/-- `x` and `y` are composed in the same way, of the forces of `ev` and of `ev'` and of `extra`
steps. Only lack of fuel in `x` has no counterpart in `y`. -/
inductive Parallel (extra : Extra) (ev ev' : Evaluator) : {α : Type} → Eval α → Eval α → Prop
  | cut {α : Type} (y : Eval α) : Parallel extra ev ev' (throw .exhausted) y
  | pure {α : Type} (a : α) : Parallel extra ev ev' (pure a) (pure a)
  | fail {α : Type} (e : RuntimeError) : Parallel extra ev ev' (Eval.fail e : Eval α) (Eval.fail e)
  /-- A number has too many digits for the host. -/
  | crash {α : Type} (h : extra.crashes) :
      Parallel extra ev ev' (throw .crashed : Eval α) (throw .crashed)
  | answer {α : Type} {x y : Eval α} (h : extra.answers x y) : Parallel extra ev ev' x y
  | live : Parallel extra ev ev' Eval.ensureLive Eval.ensureLive
  | heap : Parallel extra ev ev' Eval.heap Eval.heap
  | add {α : Type} {f : Heap → α × Heap} (hf : ∀ h : Heap, h.Grows (f h).2)
      (hfunctions : ∀ h : Heap, (f h).2.functions = h.functions) :
      Parallel extra ev ev' (Eval.onHeap f) (Eval.onHeap f)
  | force (v : Value) : Parallel extra ev ev' (ev.force v) (ev'.force v)
  /-- A failure that reports what `x` comes to on a context of its own. -/
  | report {α β : Type} {x y : Eval α} (e : Except Interrupt α × Context → RuntimeError) :
      Parallel extra ev ev' x y →
      Parallel extra ev ev' (Eval.isolated {} x >>= fun o => (Eval.fail (e o) : Eval β))
        (Eval.isolated {} y >>= fun o => Eval.fail (e o))
  | bind {α β : Type} {x y : Eval α} {f g : α → Eval β} :
      Parallel extra ev ev' x y → (∀ a, Parallel extra ev ev' (f a) (g a)) →
      Parallel extra ev ev' (x >>= f) (y >>= g)

namespace Parallel

variable {extra : Extra} {ev ev' : Evaluator}

/-! ### Steps that force nothing -/

section Steps

/-- What is found is a pure result; for what is not, fuel runs out. -/
theorem find {α : Type} (f : Heap → Option α) :
    Parallel extra ev ev' (Eval.find f) (Eval.find f) := by
  refine .bind .heap fun h => ?_
  split
  · exact .pure _
  · exact .cut _

/-- Following memos is a look at the heap. -/
theorem resolve (v : Value) : Parallel extra ev ev' (Eval.resolve v) (Eval.resolve v) :=
  find _

/-- Only a lazy value resolves to a lazy value. -/
theorem resolving {α : Type} (v : Value) {f g : Value → Eval α}
    (hf : ∀ u, (u.isLazy = true → v.isLazy = true) → Parallel extra ev ev' (f u) (g u)) :
    Parallel extra ev ev' (Eval.resolve v >>= f) (Eval.resolve v >>= g) := by
  cases hv : v.isLazy with
  | true => exact .bind (resolve v) fun u => hf u fun _ => hv
  | false =>
    have hresolve : Eval.resolve v = Pure.pure v := by
      funext w
      cases v <;> first | rfl | cases hv
    rw [hresolve, pure_bind, pure_bind]
    exact hf v id

/-- Reporting two operands fails in both. -/
theorem invalidOperand {α : Type} (op : String) (l r : Value) :
    Parallel extra ev ev' (Eval.invalidOperand op l r : Eval α) (Eval.invalidOperand op l r) :=
  .fail _

/-- Reporting an operand fails in both. -/
theorem invalidUnary {α : Type} (op : String) (v : Value) :
    Parallel extra ev ev' (Eval.invalidUnary op v : Eval α) (Eval.invalidUnary op v) := .fail _

/-- Reporting a failed conversion fails in both. -/
theorem conversionFailed {α : Type} (v : Value) (target : String) :
    Parallel extra ev ev' (Eval.conversionFailed v target : Eval α)
      (Eval.conversionFailed v target) := .fail _

/-- Reporting a key of a wrong type fails in both. -/
theorem invalidIndexType {α : Type} (container key : Value) :
    Parallel extra ev ev' (LazyMachine.invalidIndexType container key : Eval α)
      (LazyMachine.invalidIndexType container key) := .fail _

/-- A new string is the same step in both. -/
theorem makeStr (text : String) : Parallel extra ev ev' (Eval.makeStr text) (Eval.makeStr text) :=
  .add Heap.grows_freshStamp fun _ => rfl

/-- A new descriptor is the same step in both. -/
theorem makeTypeInfo (id : Nat) (name : String) :
    Parallel extra ev ev' (Eval.makeTypeInfo id name) (Eval.makeTypeInfo id name) :=
  .add Heap.grows_freshStamp fun _ => rfl

/-- A new descriptor of a value's type is the same step in both. -/
theorem typeInfo (v : Value) : Parallel extra ev ev' (Eval.typeInfo v) (Eval.typeInfo v) :=
  makeTypeInfo _ _

/-- A new foreign value is the same step in both. -/
theorem makeForeign (data : ForeignData) :
    Parallel extra ev ev' (Eval.makeForeign data) (Eval.makeForeign data) :=
  .add Heap.grows_freshStamp fun _ => rfl

/-- A new cell is the same step in both. -/
theorem makeCell (head : Value) {tail : Value} (htail : tail.IsTail) :
    Parallel extra ev ev' (Eval.makeCell head tail) (Eval.makeCell head tail) :=
  .add (fun _ => Heap.grows_addCell (.inl htail)) fun _ => rfl

/-- A new record is the same step in both. -/
theorem makeRecord (r : Record) : Parallel extra ev ev' (Eval.makeRecord r) (Eval.makeRecord r) :=
  .bind (.add (fun h => (h.extends_addRecord r).grows rfl rfl) fun _ => rfl) fun _ => .pure _

/-- A new variant is the same step in both. -/
theorem makeVariant (tag : String) (payload : Value) :
    Parallel extra ev ev' (Eval.makeVariant tag payload) (Eval.makeVariant tag payload) :=
  .add (fun h => (h.extends_freshStamp.trans (h.freshStamp.2.extends_addVariant _)).grows rfl rfl)
    fun _ => rfl

/-- A constant is the same step in both. -/
theorem literal (l : Literal) : Parallel extra ev ev' (Eval.literal l) (Eval.literal l) := by
  cases l with
  | str text => exact makeStr text
  | _ => exact .pure _

/-- New cells in front of a list are made one by one in both. -/
theorem prepend (items : List Value) (rest : Option (Ref .cell)) :
    Parallel extra ev ev' (Eval.prepend items rest) (Eval.prepend items rest) := by
  induction items with
  | nil => exact .pure rest
  | cons v vs ih =>
    refine .bind ih fun tail => .bind (makeCell v trivial) fun _ => .pure _

/-- A new list is made cell by cell in both. -/
theorem makeList (items : List Value) :
    Parallel extra ev ev' (Eval.makeList items) (Eval.makeList items) :=
  .bind (prepend items none) fun _ => .pure _

/-- Arithmetic forces nothing: it is pure or fails. -/
theorem arithmetic (op : BinaryOp) (a : Numeric.Arith) (l r : Value) :
    Parallel extra ev ev' (LazyMachine.arithmetic op a l r) (LazyMachine.arithmetic op a l r) := by
  unfold LazyMachine.arithmetic
  split
  · dsimp only
    split
    · exact .fail _
    · exact .pure _
  · exact invalidOperand _ _ _

/-- Bitwise operations force nothing: they are pure or fail. -/
theorem bitwise (op : BinaryOp) (b : Numeric.Bitwise) (l r : Value) :
    Parallel extra ev ev' (LazyMachine.bitwise op b l r) (LazyMachine.bitwise op b l r) := by
  unfold LazyMachine.bitwise
  split
  · split
    · exact .pure _
    · exact invalidOperand _ _ _
  · exact invalidOperand _ _ _

/-- Orderings force nothing: they are pure or fail. -/
theorem ordering (op : BinaryOp) (l r : Value) :
    Parallel extra ev ev' (LazyMachine.ordering op l r) (LazyMachine.ordering op l r) := by
  unfold LazyMachine.ordering
  split
  · exact .pure _
  · exact .pure _
  · exact .pure _
  · split
    · exact .pure _
    · exact invalidOperand _ _ _

/-- Reading a text forces nothing. -/
theorem readValue (text : String) (target : Kind) :
    Parallel extra ev ev' (LazyMachine.readValue text target)
      (LazyMachine.readValue text target) := by
  refine .bind .live fun _ => ?_
  split
  · exact makeStr _
  · split
    · exact .pure _
    · exact .fail _

end Steps

/-! ### Walks along the spine of a list -/

section Spine

/-- The next cell of a list takes one force of the tail. -/
theorem next (c : Ref .cell) : Parallel extra ev ev' (Spine.next ev c) (Spine.next ev' c) := by
  refine .bind .heap fun h => .bind (.force _) fun v => ?_
  split
  · exact .pure _
  · exact invalidUnary _ _

/-- A walk that gathers the items goes as far with more fuel. -/
theorem collectFrom {fuel fuel' : Nat} (hle : fuel ≤ fuel') (list : Option (Ref .cell))
    (gathered : List Value) :
    Parallel extra ev ev' (Spine.collectFrom ev fuel list gathered)
      (Spine.collectFrom ev' fuel' list gathered) := by
  induction fuel generalizing fuel' list gathered with
  | zero => exact .cut _
  | succ fuel ih =>
    obtain ⟨k, rfl⟩ := Nat.exists_eq_add_of_lt hle
    cases list with
    | none => exact .pure _
    | some c =>
      refine .bind .heap fun h => .bind (next c) fun rest => ?_
      exact ih (Nat.le_add_right fuel k) rest _

/-- A walk that counts the items goes as far with more fuel. -/
theorem lengthFrom {fuel fuel' : Nat} (hle : fuel ≤ fuel') (list : Option (Ref .cell))
    (counted : Nat) :
    Parallel extra ev ev' (Spine.lengthFrom ev fuel list counted)
      (Spine.lengthFrom ev' fuel' list counted) := by
  induction fuel generalizing fuel' list counted with
  | zero => exact .cut _
  | succ fuel ih =>
    obtain ⟨k, rfl⟩ := Nat.exists_eq_add_of_lt hle
    cases list with
    | none => exact .pure _
    | some c => exact .bind (next c) fun rest => ih (Nat.le_add_right fuel k) rest _

/-- A walk to a position takes one force for each cell on the way. -/
theorem nth (i : Nat) (list : Option (Ref .cell)) :
    Parallel extra ev ev' (Spine.nth ev i list) (Spine.nth ev' i list) := by
  induction i generalizing list with
  | zero =>
    cases list with
    | none => exact .pure _
    | some c => exact .bind .heap fun h => .pure _
  | succ i ih =>
    cases list with
    | none => exact .pure _
    | some c => exact .bind (next c) fun rest => ih rest

/-- A walk to a position that replaces an item copies the cells on the way. -/
theorem setNth (item : Value) (i : Nat) (list : Option (Ref .cell)) :
    Parallel extra ev ev' (Spine.setNth ev item i list) (Spine.setNth ev' item i list) := by
  induction i generalizing list with
  | zero =>
    cases list with
    | none => exact .pure _
    | some c =>
      -- the tail is read off the heap that the new cell is added to
      let put : Eval (Ref .cell) := Eval.onHeap fun h => h.addCell ⟨item, (h.cell c).tail⟩
      have hput : Parallel extra ev ev' put put :=
        .add (fun h => Heap.grows_addCell (.inr ⟨c, rfl⟩)) fun _ => rfl
      have hset : Parallel extra ev ev' (put >>= fun r => Pure.pure (some r))
          (put >>= fun r => Pure.pure (some r)) := .bind hput fun _ => .pure _
      exact hset
  | succ i ih =>
    cases list with
    | none => exact .pure _
    | some c =>
      refine .bind .heap fun h => .bind (next c) fun rest => .bind (ih rest) fun updated => ?_
      cases updated with
      | none => exact .pure _
      | some c => exact .bind (makeCell _ trivial) fun _ => .pure _

/-- A walk that turns a list round goes as far with more fuel. -/
theorem reverseOnto {fuel fuel' : Nat} (hle : fuel ≤ fuel') (list onto : Option (Ref .cell)) :
    Parallel extra ev ev' (Spine.reverseOnto ev fuel list onto)
      (Spine.reverseOnto ev' fuel' list onto) := by
  induction fuel generalizing fuel' list onto with
  | zero => exact .cut _
  | succ fuel ih =>
    obtain ⟨k, rfl⟩ := Nat.exists_eq_add_of_lt hle
    cases list with
    | none => exact .pure _
    | some c =>
      refine .bind .heap fun h => .bind (makeCell _ trivial) fun onto => ?_
      refine .bind (next c) fun rest => ?_
      exact ih (Nat.le_add_right fuel k) rest _

end Spine

/-! ### Sequences -/

section Sequences

/-- The head takes one force. -/
theorem head (v : Value) :
    Parallel extra ev ev' (LazyMachine.head ev v) (LazyMachine.head ev' v) := by
  refine .bind (.force v) fun v => ?_
  split
  · exact .bind .heap fun h => .pure _
  · split
    · exact .pure _
    · exact invalidUnary _ _
  · exact invalidUnary _ _

/-- The tail takes one force. -/
theorem tail (v : Value) :
    Parallel extra ev ev' (LazyMachine.tail ev v) (LazyMachine.tail ev' v) := by
  refine .bind (.force v) fun v => ?_
  split
  · exact .bind .heap fun h => .pure _
  · split
    · exact makeStr _
    · exact invalidUnary _ _
  · exact invalidUnary _ _

/-- The test for emptiness takes one force. -/
theorem isNil (v : Value) :
    Parallel extra ev ev' (LazyMachine.isNil ev v) (LazyMachine.isNil ev' v) := by
  refine .bind (.force v) fun v => ?_
  split
  · exact .pure _
  · exact .pure _
  · exact invalidUnary _ _

/-- The empty sequence of a kind takes one force. -/
theorem nilOf (v : Value) :
    Parallel extra ev ev' (LazyMachine.nilOf ev v) (LazyMachine.nilOf ev' v) := by
  refine .bind (.force v) fun v => ?_
  split
  · exact .pure _
  · exact makeStr _
  · exact makeRecord _
  · exact invalidUnary _ _

/-- Adding an item takes one force of the sequence. -/
theorem generate (acc item : Value) :
    Parallel extra ev ev' (LazyMachine.generate ev acc item)
      (LazyMachine.generate ev' acc item) := by
  refine .bind (.force acc) fun acc => ?_
  split
  · exact .bind (makeCell _ trivial) fun _ => .pure _
  · refine .bind (.force item) fun item => ?_
    split
    · exact makeStr _
    · exact makeStr _
    · exact invalidOperand _ _ _
  · exact invalidOperand _ _ _

/-- Finishing a sequence turns its list round. -/
theorem finalize (hfuel : ev.fuel ≤ ev'.fuel) (acc : Value) :
    Parallel extra ev ev' (LazyMachine.finalize ev acc) (LazyMachine.finalize ev' acc) := by
  refine .bind (.force acc) fun acc => ?_
  split
  · exact .bind (reverseOnto hfuel _ _) fun _ => .pure _
  · exact .pure _
  · exact invalidUnary _ _

/-- The tag takes one force. -/
theorem tagOf (v : Value) :
    Parallel extra ev ev' (LazyMachine.tagOf ev v) (LazyMachine.tagOf ev' v) := by
  refine .bind (.force v) fun v => ?_
  split
  · exact .bind .heap fun h => .pure _
  · exact invalidUnary _ _

/-- The payload takes one force. -/
theorem untag (v : Value) :
    Parallel extra ev ev' (LazyMachine.untag ev v) (LazyMachine.untag ev' v) := by
  refine .bind (.force v) fun v => ?_
  split
  · exact .bind .heap fun h => .pure _
  · exact invalidUnary _ _

/-- Concatenations compose in the same way with more fuel. -/
theorem concat (hfuel : ev.fuel ≤ ev'.fuel) (l r : Value) :
    Parallel extra ev ev' (LazyMachine.concat ev l r) (LazyMachine.concat ev' l r) := by
  unfold LazyMachine.concat
  split
  · exact makeStr _
  · exact makeStr _
  · exact makeStr _
  · exact makeStr _
  · exact .pure _
  · exact .bind (collectFrom hfuel _ _) fun items => .bind (prepend _ _) fun _ => .pure _
  · exact .bind .heap fun h => makeRecord _
  · exact invalidOperand _ _ _

/-- Gathering characters forces the items one by one. -/
theorem charsOf? (items : List Value) :
    Parallel extra ev ev' (LazyMachine.charsOf? ev items) (LazyMachine.charsOf? ev' items) := by
  induction items with
  | nil => exact .pure _
  | cons v vs ih =>
    refine .bind (.force v) fun v => ?_
    split
    · exact .bind ih fun _ => .pure _
    · exact .pure _

end Sequences

/-! ### Rendering -/

/-- Foreign values are shown in the same way. -/
class Showing [ForeignText] (extra : Extra) (ev ev' : Evaluator) : Prop where
  /-- The texts are composed in the same way. -/
  text : ev.fuel ≤ ev'.fuel → ∀ format f,
    Parallel extra ev ev' (ForeignText.text ev format f) (ForeignText.text ev' format f)

section Render

variable [ForeignText] [Showing extra ev ev'] {format : Format}
  (hwide : format.Wide → extra.crashes)

include hwide

omit [ForeignText] [Showing extra ev ev'] in
/-- A floating-point number is shown in one step, which crashes in a wide format. -/
theorem floatValue (v : Value) (shortest : String) (number : Decimal.Number) :
    Parallel extra ev ev' (Render.floatValue format v shortest number)
      (Render.floatValue format v shortest number) := by
  unfold Render.floatValue
  split
  · next hdecimal =>
    split
    · next hcrash =>
      have hfits : format.style.fits = false := by simpa using (Bool.and_eq_true_iff.mp hcrash).2
      exact .crash (hwide ⟨hdecimal, hfits⟩)
    · exact .pure _
  · exact .fail _

/-- The three walks of rendering together, by induction on the fuel. -/
theorem renderAll (hfuel : ev.fuel ≤ ev'.fuel) {fuel fuel' : Nat} (hle : fuel ≤ fuel') :
    (∀ nested seen v, Parallel extra ev ev' (Render.value ev format fuel nested seen v)
      (Render.value ev' format fuel' nested seen v)) ∧
    (∀ seen fields, Parallel extra ev ev' (Render.fields ev format fuel seen fields)
      (Render.fields ev' format fuel' seen fields)) ∧
    (∀ shown seen list, Parallel extra ev ev' (Render.items ev format fuel shown seen list)
      (Render.items ev' format fuel' shown seen list)) := by
  induction fuel generalizing fuel' with
  | zero =>
    simp only [Render.value, Render.fields, Render.items]
    exact ⟨fun _ _ _ => .cut _, fun _ _ => .cut _, fun _ _ _ => .cut _⟩
  | succ fuel ih =>
    obtain ⟨k, rfl⟩ := Nat.exists_eq_add_of_lt hle
    -- the walks call each other with less fuel: the three are shown at once
    obtain ⟨ihValue, ihFields, ihItems⟩ := ih (Nat.le_add_right fuel k)
    refine ⟨fun nested seen v => ?_, fun seen fields => ?_, fun shown seen list => ?_⟩
    · simp only [Render.value]
      refine .bind (.force v) fun u => ?_
      split
      all_goals try exact .pure _
      · exact floatValue hwide _ _ _
      · exact floatValue hwide _ _ _
      · exact .bind (ihItems _ _ _) fun _ => .pure _
      · split
        · exact .pure _
        · exact .bind .heap fun h => .bind (ihFields _ _) fun _ => .pure _
      · split
        · exact .pure _
        · refine .bind .heap fun h => .bind (.force _) fun payload => ?_
          split
          · exact .pure _
          · exact .bind (find _) fun _ => .bind (ihValue _ _ _) fun _ => .pure _
      · exact .bind .heap fun h => .pure _
      · exact .bind .heap fun h => .pure _
      · exact Showing.text hfuel _ _
    · cases fields with
      | nil =>
        simp only [Render.fields]
        exact .pure _
      | cons field rest =>
        simp only [Render.fields]
        exact .bind (ihValue _ _ _) fun _ => .bind (ihFields _ _) fun _ => .pure _
    · cases list with
      | none =>
        simp only [Render.items]
        exact .pure _
      | some c =>
        simp only [Render.items]
        split
        · exact .pure _
        · refine .bind .heap fun h => .bind (ihValue _ _ _) fun text => ?_
          exact .bind (next c) fun rest => .bind (ihItems _ _ _) fun _ => .pure _

/-- Rendering composes in the same way with more fuel. -/
theorem render (hfuel : ev.fuel ≤ ev'.fuel) (v : Value) :
    Parallel extra ev ev' (LazyMachine.render ev format v) (LazyMachine.render ev' format v) :=
  .bind .live fun _ => (renderAll hwide hfuel hfuel).1 _ _ _

omit hwide

/-- The text by which a report names a value, made of what rendering it came to. -/
def reportedText : Except Interrupt String × Context → String
  | (.ok text, _) => text
  | (.error _, context) =>
    match context.error with
    | some e => "<error: " ++ e.display ++ ">"
    | none => "<error>"

/-- The text in a report is a rendering on a context of its own, with any interrupt replaced. -/
theorem display_eq (ev : Evaluator) (v : Value) :
    LazyMachine.display ev v =
      Eval.isolated {} (LazyMachine.render ev {} v) >>= fun o => Pure.pure (reportedText o) := by
  refine bind_congr fun o => ?_
  rcases o with ⟨_ | text, context⟩
  · dsimp only [reportedText]
    cases context.error <;> rfl
  · rfl

/-- Reporting a missing entry renders the key and fails. -/
theorem indexOutOfRange {α : Type} (hfuel : ev.fuel ≤ ev'.fuel) (container key : Value) :
    Parallel extra ev ev' (LazyMachine.indexOutOfRange ev container key : Eval α)
      (LazyMachine.indexOutOfRange ev' container key) := by
  simp only [LazyMachine.indexOutOfRange, display_eq, bind_assoc, pure_bind]
  exact .report _ (render (absurd · Format.not_wide_default) hfuel key)

end Render

/-! ### Operations of foreign values -/

section Foreign

/-- Foreign binary operations force nothing. -/
theorem foreignBinary (f : Foreign) (op : BinaryOp) (l r : Value) :
    Parallel extra ev ev' (f.binary op l r) (f.binary op l r) := by
  unfold Foreign.binary Foreign.metersBinary
  split
  · split
    · exact makeForeign _
    · exact makeForeign _
    · exact .pure _
    · exact makeList _
    · exact invalidOperand _ _ _
  · exact invalidOperand _ _ _

/-- Foreign unary operations force nothing. -/
theorem foreignUnary (f : Foreign) (op : UnaryOp) :
    Parallel extra ev ev' (f.unary op) (f.unary op) := by
  unfold Foreign.unary
  split
  · exact makeForeign _
  · exact .pure _
  · exact invalidUnary _ _

/-- The length of a foreign value forces nothing. -/
theorem foreignLength (f : Foreign) : Parallel extra ev ev' f.length f.length := by
  unfold Foreign.length
  split
  · exact .pure _
  · exact invalidUnary _ _

/-- The entry of a foreign value forces only to render a missing key. -/
theorem foreignGet [ForeignText] [Showing extra ev ev'] (hfuel : ev.fuel ≤ ev'.fuel) (f : Foreign)
    (key : Value) :
    Parallel extra ev ev' (Foreign.get ev f key) (Foreign.get ev' f key) := by
  unfold Foreign.get
  split
  · split
    · split
      · exact .pure _
      · exact indexOutOfRange hfuel _ _
    · exact indexOutOfRange hfuel _ _
  · exact invalidOperand _ _ _

/-- Application of a foreign value forces nothing. -/
theorem foreignCall (f : Foreign) (args : List Value) :
    Parallel extra ev ev' (f.call args) (f.call args) := by
  unfold Foreign.call
  split
  · exact makeList _
  · exact invalidUnary _ _

/-- Conversion of a foreign value forces nothing. -/
theorem foreignConvert (f : Foreign) (target : Kind) :
    Parallel extra ev ev' (f.convert target) (f.convert target) := by
  unfold Foreign.convert
  split
  · exact .pure _
  · exact makeStr _
  · exact conversionFailed _ _

/-- Foreign values answer in the same way. -/
class Answering [Embedding] (extra : Extra) (ev ev' : Evaluator) : Prop where
  /-- What they answer is composed in the same way. -/
  answer {α : Type} {x y : Eval α} :
    ev.fuel ≤ ev'.fuel → ForeignAnswers ev ev' x y → Parallel extra ev ev' x y

/-- In whatever embedding, with their answers as steps. -/
theorem answering_steps [Embedding] {crashes : Prop} :
    Answering ⟨crashes, ForeignAnswers ev ev'⟩ ev ev' where
  answer _ h := .answer h

/-- In the standard embedding they are shown in one step. -/
instance : @Showing .standard extra ev ev' :=
  @Showing.mk .standard extra ev ev' fun _ _ _ => .pure _

/-- In the standard embedding the answers are composed without any further step. -/
instance : Answering extra ev ev' where
  answer hfuel h := by
    cases h with
    | text format f => exact .pure _
    | binary f op l r => exact foreignBinary f op l r
    | unary f op => exact foreignUnary f op
    | equal f other => exact .pure _
    | length f => exact foreignLength f
    | get f key => exact @foreignGet extra ev ev' .standard _ hfuel f key
    | call f args => exact foreignCall f args
    | convert f target => exact foreignConvert f target

end Foreign

section Embedding

variable [Embedding] [Answering extra ev ev']

/-- What foreign values answer with one evaluator, they answer with the other. -/
theorem answered {α : Type} {x y : Eval α} (hfuel : ev.fuel ≤ ev'.fuel)
    (h : ForeignAnswers ev ev' x y) : Parallel extra ev ev' x y :=
  Answering.answer hfuel h

/-- A foreign value that answers is shown. -/
instance : Showing extra ev ev' where
  text hfuel format f := answered hfuel (.text format f)

/-! ### Equality and comparison -/

section Equality

/-- The three walks of equality together, by induction on the fuel. -/
theorem equalityAll (hfuel : ev.fuel ≤ ev'.fuel) {fuel fuel' : Nat} (hle : fuel ≤ fuel') :
    (∀ l r met, Parallel extra ev ev' (Equality.value ev fuel l r met)
      (Equality.value ev' fuel' l r met)) ∧
    (∀ a b met, Parallel extra ev ev' (Equality.fields ev fuel a b met)
      (Equality.fields ev' fuel' a b met)) ∧
    (∀ a b met, Parallel extra ev ev' (Equality.lists ev fuel a b met)
      (Equality.lists ev' fuel' a b met)) := by
  induction fuel generalizing fuel' with
  | zero =>
    simp only [Equality.value, Equality.fields, Equality.lists]
    exact ⟨fun _ _ _ => .cut _, fun _ _ _ => .cut _, fun _ _ _ => .cut _⟩
  | succ fuel ih =>
    obtain ⟨k, rfl⟩ := Nat.exists_eq_add_of_lt hle
    obtain ⟨ihValue, ihFields, ihLists⟩ := ih (Nat.le_add_right fuel k)
    refine ⟨fun l r met => ?_, fun a b met => ?_, fun a b met => ?_⟩
    · simp only [Equality.value]
      refine .bind (.force l) fun l => .bind (.force r) fun r => ?_
      split
      -- what compares no parts and asks no foreign value answers at once
      all_goals try exact .pure _
      · exact .bind (answered hfuel (.equal _ _)) fun _ => .pure _
      · exact .bind (answered hfuel (.equal _ _)) fun _ => .pure _
      · exact ihLists _ _ _
      -- records and variants go on with their parts if the pair has not been met
      · split
        · exact .pure _
        · refine .bind .heap fun h => ?_
          split
          · exact .pure _
          · exact ihFields _ _ _
      · split
        · exact .pure _
        · refine .bind .heap fun h => ?_
          split
          · exact .pure _
          · exact ihValue _ _ _
      · split
        · exact .pure _
        · exact .pure _
    · rcases a with _ | ⟨⟨n, v⟩, a⟩
      · simp only [Equality.fields]
        exact .pure _
      · rcases b with _ | ⟨⟨m, u⟩, b⟩
        · simp only [Equality.fields]
          exact .pure _
        · simp only [Equality.fields]
          split
          · exact .pure _
          · refine .bind (ihValue _ _ _) fun outcome => ?_
            split
            · exact ihFields _ _ _
            · exact .pure _
    · cases a <;> cases b <;> simp only [Equality.lists]
      · exact .pure _
      · exact .pure _
      · exact .pure _
      · split
        · exact .pure _
        · refine .bind .heap fun h => .bind (ihValue _ _ _) fun outcome => ?_
          split
          · exact .pure _
          · exact .bind (next _) fun a => .bind (next _) fun b => ihLists _ _ _

/-- Comparison for equality composes in the same way with more fuel. -/
theorem equal (hfuel : ev.fuel ≤ ev'.fuel) (l r : Value) :
    Parallel extra ev ev' (LazyMachine.equal ev l r) (LazyMachine.equal ev' l r) :=
  .bind .live fun _ => .bind ((equalityAll hfuel hfuel).1 l r []) fun _ => .pure _

/-- Comparisons compose in the same way with more fuel. -/
theorem relation (hfuel : ev.fuel ≤ ev'.fuel) (op : BinaryOp) (l r : Value) :
    Parallel extra ev ev' (LazyMachine.relation ev op l r) (LazyMachine.relation ev' op l r) := by
  unfold LazyMachine.relation
  split
  · exact .bind (equal hfuel l r) fun _ => .pure _
  · exact .bind (equal hfuel l r) fun _ => .pure _
  · refine .bind (.force l) fun l => .bind (.force r) fun r => ?_
    split
    · exact answered hfuel (.binary _ _ _ _)
    · exact answered hfuel (.binary _ _ _ _)
    · refine .bind (ordering op l r) fun order => ?_
      split
      · exact .pure _
      · exact invalidOperand _ _ _

/-- A unary operation forces its operand and goes on in one step. -/
theorem unary (hfuel : ev.fuel ≤ ev'.fuel) (op : UnaryOp) (v : Value) :
    Parallel extra ev ev' (LazyMachine.unary ev op v) (LazyMachine.unary ev' op v) := by
  refine .bind (.force v) fun v => ?_
  split
  · exact answered hfuel (.unary _ _)
  · exact .pure _
  · split
    · exact .pure _
    · exact conversionFailed _ _
  · split
    · exact .pure _
    · exact conversionFailed _ _
  · split
    · exact .pure _
    · exact invalidUnary _ _

end Equality

/-! ### Containers -/

section Containers

/-- Consing forces nothing by itself, a lazy tail included. -/
theorem cons (hfuel : ev.fuel ≤ ev'.fuel) (head tail : Value) :
    Parallel extra ev ev' (LazyMachine.cons ev head tail) (LazyMachine.cons ev' head tail) := by
  refine .bind .live fun _ => resolving tail fun t ht => ?_
  split
  · exact .bind (makeCell _ trivial) fun _ => .pure _
  · exact .bind (makeCell _ (Value.isTail_of_isLazy (ht rfl))) fun _ => .pure _
  · refine .bind (resolve head) fun h => ?_
    split
    · exact makeStr _
    · exact invalidOperand _ _ _
  · exact answered hfuel (.binary _ _ _ _)
  · exact invalidOperand _ _ _

/-- Lengths compose in the same way with more fuel. -/
theorem length (hfuel : ev.fuel ≤ ev'.fuel) (v : Value) :
    Parallel extra ev ev' (LazyMachine.length ev v) (LazyMachine.length ev' v) := by
  refine .bind (.force v) fun v => ?_
  split
  · exact .pure _
  · exact .bind (lengthFrom hfuel _ _) fun _ => .pure _
  · exact .bind .heap fun h => .pure _
  · exact .bind .heap fun h => .pure _
  · exact answered hfuel (.length _)
  · exact invalidUnary _ _

/-- An entry that is there is the result; one that is not is reported. -/
theorem foundAt (hfuel : ev.fuel ≤ ev'.fuel) (container key : Value) (found : Option Value) :
    Parallel extra ev ev' (LazyMachine.foundAt ev container key found)
      (LazyMachine.foundAt ev' container key found) := by
  cases found with
  | some v => exact .pure _
  | none => exact indexOutOfRange hfuel _ _

/-- Lookups compose in the same way with more fuel. -/
theorem getValue (hfuel : ev.fuel ≤ ev'.fuel) (container key : Value) :
    Parallel extra ev ev' (LazyMachine.getValue ev container key)
      (LazyMachine.getValue ev' container key) := by
  refine .bind (.force container) fun container => .bind (.force key) fun key => ?_
  split
  -- the kinds that have entries, and then all others
  · split
    · exact invalidIndexType _ _
    · exact foundAt hfuel _ _ _
  · split
    · exact invalidIndexType _ _
    · split
      · exact .bind (nth _ _) fun found => foundAt hfuel _ _ _
      · exact indexOutOfRange hfuel _ _
  · refine .bind .heap fun h => ?_
    split
    · exact foundAt hfuel _ _ _
    · split
      · exact foundAt hfuel _ _ _
      · exact invalidIndexType _ _
  · split
    · exact .bind .heap fun h => foundAt hfuel _ _ _
    · exact invalidIndexType _ _
  -- a foreign value answers for itself
  · exact answered hfuel (.get _ _)
  · exact invalidOperand _ _ _

/-- Replacements compose in the same way with more fuel. -/
theorem setValue (hfuel : ev.fuel ≤ ev'.fuel) (container key item : Value) :
    Parallel extra ev ev' (LazyMachine.setValue ev container key item)
      (LazyMachine.setValue ev' container key item) := by
  refine .bind (.force container) fun container => .bind (.force key) fun key => ?_
  split
  · refine .bind .heap fun h => ?_
    dsimp only
    split
    · split
      · exact makeRecord _
      · exact indexOutOfRange hfuel _ _
    · split
      · split
        · exact makeRecord _
        · exact indexOutOfRange hfuel _ _
      · exact invalidIndexType _ _
  · split
    · exact invalidIndexType _ _
    · split
      · exact indexOutOfRange hfuel _ _
      · refine .bind (setNth _ _ _) fun updated => ?_
        split
        · exact .pure _
        · exact indexOutOfRange hfuel _ _
  · exact invalidOperand _ _ _

/-- Binary operations compose in the same way with more fuel. -/
theorem binary (hfuel : ev.fuel ≤ ev'.fuel) (op : BinaryOp) (l r : Value) :
    Parallel extra ev ev' (LazyMachine.binary ev op l r) (LazyMachine.binary ev' op l r) := by
  refine .bind .live fun _ => ?_
  split
  · exact cons hfuel l r
  all_goals try exact relation hfuel _ l r
  · refine .bind (.force l) fun l => .bind (.force r) fun r => ?_
    split
    · exact answered hfuel (.binary _ _ _ _)
    · exact answered hfuel (.binary _ _ _ _)
    · split
      · exact arithmetic _ _ _ _
      · exact bitwise _ _ _ _
      · exact concat hfuel _ _

end Containers

/-! ### Conversion -/

section Conversion

/-- Conversions compose in the same way with more fuel. -/
theorem convert (hfuel : ev.fuel ≤ ev'.fuel) (v : Value) (target : Kind) :
    Parallel extra ev ev' (LazyMachine.convert ev v target) (LazyMachine.convert ev' v target) := by
  refine .bind (.force v) fun v => ?_
  split
  · exact answered hfuel (.convert _ _)
  · split
    · exact .pure _
    · split
      · refine .bind (collectFrom hfuel _ _) fun items => .bind (charsOf? items) fun chars => ?_
        split
        · exact makeStr _
        · exact .bind (render (absurd · Format.not_wide_default) hfuel _) fun _ => makeStr _
      · exact .bind (render (absurd · Format.not_wide_default) hfuel _) fun _ => makeStr _
      · exact typeInfo _
      · exact makeList _
      · split
        · exact .pure _
        · exact conversionFailed _ _

/-- Rendering by a spec crashes only if the spec stands for a wide format. -/
theorem renderAs {spec : String}
    (hwide : ∀ format, Format.ofSpec? spec = some format → format.Wide → extra.crashes)
    (hfuel : ev.fuel ≤ ev'.fuel) (v : Value) :
    Parallel extra ev ev' (LazyMachine.renderAs ev v spec) (LazyMachine.renderAs ev' v spec) := by
  unfold LazyMachine.renderAs
  split
  · next format hspec => exact render (hwide format hspec) hfuel v
  · exact .bind (resolve v) fun _ => .fail _

end Conversion

/-! ### The operations -/

omit [Answering extra ev ev'] in
/-- Every operation but the application of a callable value is composed of forces and answers. -/
theorem perform {E E' : Engine} {fuel fuel' : Nat}
    [Answering extra ⟨fuel, LazyMachine.force E fuel, E⟩ ⟨fuel', LazyMachine.force E' fuel', E'⟩]
    (hfuel : fuel ≤ fuel') {o : Operation} (hwide : o.Wide → extra.crashes)
    (ho : ∀ callee args, o ≠ .call callee args) :
    Parallel extra ⟨fuel, LazyMachine.force E fuel, E⟩ ⟨fuel', LazyMachine.force E' fuel', E'⟩
      (LazyMachine.perform E fuel o) (LazyMachine.perform E' fuel' o) := by
  unfold LazyMachine.perform
  have hle : (⟨fuel, LazyMachine.force E fuel, E⟩ : Evaluator).fuel ≤
    (⟨fuel', LazyMachine.force E' fuel', E'⟩ : Evaluator).fuel := hfuel
  cases o with
  | force x => exact .force x
  | binary op l r => exact .binary hle op l r
  | unary op x => exact .unary hle op x
  | equal l r => exact .bind (.equal hle l r) fun _ => .pure _
  | notEqual l r => exact .bind (.equal hle l r) fun _ => .pure _
  | length x => exact .length hle x
  | get x key => exact .getValue hle x key
  | set x key item => exact .setValue hle x key item
  | head x => exact .head x
  | tail x => exact .tail x
  | isNil x => exact .bind (.isNil x) fun _ => .pure _
  | nilOf x => exact .nilOf x
  | generate acc item => exact .generate acc item
  | finalize acc => exact .finalize hle acc
  | tagOf x => exact .tagOf x
  | untag x => exact .untag x
  | render x format => exact .bind (.render hwide hle x) fun _ => .makeStr _
  | renderAs x spec =>
    have hspec (format) (hformat : Format.ofSpec? spec = some format) (h : format.Wide) :=
      hwide ⟨format, hformat, h⟩
    exact .bind (.renderAs hspec hle x) fun _ => .makeStr _
  | convert x target => exact .convert hle x target
  | read text target => exact .readValue text target
  | typeOf x => exact .bind (.force x) fun _ => .typeInfo _
  | call callee args => exact absurd rfl (ho callee args)

end Embedding

/-- In the standard embedding it crashes only if it shows a value in a wide format, and takes no
further step. -/
theorem perform_standard {E E' : Engine} {fuel fuel' : Nat} (hfuel : fuel ≤ fuel') {o : Operation}
    (ho : ∀ callee args, o ≠ .call callee args) :
    Parallel (.crashing o.Wide) ⟨fuel, LazyMachine.force E fuel, E⟩
      ⟨fuel', LazyMachine.force E' fuel', E'⟩
      (LazyMachine.perform E fuel o) (LazyMachine.perform E' fuel' o) :=
  perform hfuel id ho

end Parallel

end LazyMachine
