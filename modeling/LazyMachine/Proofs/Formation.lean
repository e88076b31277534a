import LazyMachine.Proofs.Links

/-!
# Well-formed heaps

What the host does with a heap is one of its acts (`HostAct`): it makes objects by the public
constructors, claims, completes, releases and forces thunks, applies functions, performs operations
and runs machines, in whatever mode and context. While an act lasts, code of the host may be called
and act on the heap itself, in the midst of evaluations, and so may foreign values that answer; what
they do comes in as an embedding, whatever it is (`Heap.Served`).

An evaluation moves the heap by itself, and the host may moreover make a thunk with a value,
complete a thunk with a value of its own, and make a function from an overload table that it has
built. So whatever the acts are and however they are nested, they come to a sequence of such changes
(`Heap.Served.changes`), and it is enough that each change keeps a property of heaps. They keep the
values of thunks (`Heap.Change.memo`), they publish no lazy value that the host has not brought in
itself (`Heap.Change.strict`), and every object stays formed as it must be (`Heap.Change.formed`).
Together this is what `heap_stays_formed` says of every sequence of acts from the empty heap on.
-/

namespace LazyMachine

open Heap (Evolves Moving)

/-! ### How objects are formed -/

/-- Every clause has as many parameters as the table has arguments, and its target lacks as many. -/
def OverloadTable.Agrees (t : OverloadTable) (h : Heap) : Prop :=
  ∀ c ∈ t.clauses, c.params.length = t.arity ∧ c.target.index < h.functions.size ∧
    (h.function c.target).remaining = t.arity

/-- The tables that the host can build over the functions of a heap: it adds clause after clause to
an empty table. -/
inductive OverloadTable.Built (h : Heap) : OverloadTable → Prop
  | empty (name : String) (arity : Nat) : Built h ⟨name, arity, []⟩
  | clause {t t' : OverloadTable} {params : List (Option Nat)} {target : Ref .function} :
      Built h t → target.index < h.functions.size → t.addClause h params target = .ok t' →
      Built h t'

/-- A clause is added only if it agrees with the table. -/
theorem OverloadTable.Built.agrees {h : Heap} {t : OverloadTable} (ht : t.Built h) :
    t.Agrees h := by
  induction ht with
  | empty name arity =>
    intro c hc
    cases hc
  | clause _ htarget hadd ih =>
    unfold addClause at hadd
    dsimp only at hadd
    split at hadd
    · cases hadd
    · next hparams =>
      split at hadd
      · cases hadd
      · next hremaining =>
        cases hadd
        intro c hc
        -- the two tests passed, so the new clause agrees; the others did before
        rcases List.mem_append.mp hc with hc | hc
        · exact ih c hc
        · rw [List.mem_singleton] at hc
          subst hc
          exact ⟨not_not.mp hparams, htarget, not_not.mp hremaining⟩

namespace Heap

variable {h h' : Heap}

/-- Functions that have been made stay as they are. -/
theorem function_of_kept (hkept : Kept h.functions h'.functions) {f : Ref .function}
    (hf : f.index < h.functions.size) : h'.function f = h.function f := by
  have hi := Array.getElem?_eq_getElem hf
  simp only [function, Array.getD_eq_getD_getElem?, hkept _ _ hi, hi]

/-- A reference to a function that is kept stays within bounds. -/
theorem lt_size_of_kept (hkept : Kept h.functions h'.functions) {f : Ref .function}
    (hf : f.index < h.functions.size) : f.index < h'.functions.size :=
  (Array.getElem?_eq_some_iff.mp (hkept _ _ (Array.getElem?_eq_getElem hf))).1

end Heap

theorem OverloadTable.Agrees.mono {h h' : Heap} {t : OverloadTable} (ht : t.Agrees h)
    (hkept : Kept h.functions h'.functions) : t.Agrees h' := by
  intro c hc
  obtain ⟨hparams, hlt, hremaining⟩ := ht c hc
  refine ⟨hparams, Heap.lt_size_of_kept hkept hlt, ?_⟩
  rw [Heap.function_of_kept hkept hlt, hremaining]

/-- A function has no arguments yet or lacks some, and a table in it agrees with its targets. -/
structure Function.Formed (h : Heap) (f : Function) : Prop where
  applied : f.applied = [] ∨ f.applied.length < f.arity
  table : ∀ t, f.body = .overloaded t → t.Agrees h

theorem Function.Formed.mono {h h' : Heap} {f : Function} (hf : f.Formed h)
    (hkept : Kept h.functions h'.functions) : f.Formed h' where
  applied := hf.applied
  table t ht := (hf.table t ht).mono hkept

/-- The evaluation is over exactly if there is a value. -/
def Thunk.Whole (t : Thunk) : Prop :=
  t.memo?.isSome ↔ t.state = .done

/-- A waiting thunk has no value. -/
theorem Thunk.whole_waiting (d : Deferred) : (Thunk.waiting d).Whole := by
  simp [Whole]

/-- A running thunk has no value. -/
theorem Thunk.whole_running (d : Deferred) : (Thunk.running d).Whole := by
  simp [Whole]

/-- A forced thunk has its value and is done. -/
theorem Thunk.whole_forced (v : Value) : (Thunk.forced v).Whole := by
  simp [Whole]

/-- A thunk with a value is forced. -/
theorem Thunk.Whole.eq_forced {t : Thunk} (ht : t.Whole) {v : Value} (hv : t.memo? = some v) :
    t = .forced v := by
  obtain ⟨s, memo⟩ := t
  cases hv
  cases ht.mp rfl
  rfl

namespace Heap

/-- All thunks, cells and functions are formed as they must be. -/
structure Formed (h : Heap) : Prop where
  thunks : ∀ t ∈ h.thunks, t.Whole
  tails : ∀ c ∈ h.cells, c.tail.IsTail
  functions : ∀ f ∈ h.functions, f.Formed h

namespace Formed

variable {h h' : Heap}

/-- A cell that was never made counts as the last one of a list. -/
theorem tail (hf : h.Formed) (c : Ref .cell) : (h.cell c).tail.IsTail := by
  rw [cell, Array.getD_eq_getD_getElem?]
  cases hc : h.cells[c.index]? with
  | some d => exact hf.tails d (Array.mem_of_getElem? hc)
  | none => trivial

/-- The function of any reference is formed. -/
theorem function (hf : h.Formed) (f : Ref .function) : (h.function f).Formed h := by
  rw [Heap.function, Array.getD_eq_getD_getElem?]
  cases hi : h.functions[f.index]? with
  | some g => exact hf.functions g (Array.mem_of_getElem? hi)
  | none => exact ⟨.inl rfl, by rintro t ⟨⟩⟩

/-- What evaluations make as a function is formed. -/
theorem makes (hf : h.Formed) {f : Function} (hmakes : h.Makes f) : f.Formed h := by
  rcases hmakes with ⟨happlied, hbody⟩ | ⟨g, args, hargs, rfl⟩
  · exact ⟨.inl happlied, fun t ht => absurd ht (hbody t)⟩
  · refine ⟨.inr ?_, (hf.function g).table⟩
    rw [Function.remaining] at hargs
    dsimp only
    rw [List.length_append]
    omega

/-- A thunk that was never made counts as forced. -/
theorem thunk (hf : h.Formed) (t : Ref .thunk) : (h.thunk t).Whole := by
  rw [Heap.thunk, Array.getD_eq_getD_getElem?]
  cases hi : h.thunks[t.index]? with
  | some u => exact hf.thunks u (Array.mem_of_getElem? hi)
  | none => exact Thunk.whole_forced _

/-- New objects as evaluations make them. -/
theorem grows (hf : h.Formed) (e : h.Grows h') : h'.Formed where
  thunks := e.thunks ▸ hf.thunks
  tails c hc := by
    -- a cell is old, has a tail of its own, or shares the tail of an old cell
    rcases e.tails c hc with hold | htail | ⟨r, hr⟩
    · exact hf.tails c hold
    · exact htail
    · rw [hr]
      exact hf.tail r
  functions f hmem := by
    refine Function.Formed.mono ?_ e.functions
    exact (e.made f hmem).elim (hf.functions f) hf.makes

/-- Thunks have no part in how cells and functions are formed. -/
theorem of_thunks (hf : h.Formed) {thunks : Array Thunk} (hwhole : ∀ t ∈ thunks, t.Whole) :
    { h with thunks }.Formed where
  thunks := hwhole
  tails := hf.tails
  functions f hmem := (hf.functions f hmem).mono (Kept.refl _)

/-- A new thunk has to have a value exactly when it is done. -/
theorem addThunk (hf : h.Formed) {s : Thunk} (hs : s.Whole) : (h.addThunk s).2.Formed :=
  hf.of_thunks fun u hu => (Array.mem_push.mp hu).elim (hf.thunks u) fun heq => heq ▸ hs

theorem setThunk (hf : h.Formed) (t : Ref .thunk) {s : Thunk} (hs : s.Whole) :
    (h.setThunk t s).Formed :=
  hf.of_thunks fun u hu => (Array.mem_or_eq_of_mem_setIfInBounds hu).elim (hf.thunks u)
    fun heq => heq ▸ hs

/-- Moves keep heaps formed. -/
theorem move (hf : h.Formed) (m : h.Move h') : h'.Formed := by
  cases m with
  | grow e => exact hf.grows e
  | defer d => exact hf.addThunk (Thunk.whole_waiting d)
  | claim => exact hf.setThunk _ (Thunk.whole_running _)
  | release => exact hf.setThunk _ (Thunk.whole_waiting _)
  | publish => exact hf.setThunk _ (Thunk.whole_forced _)
  | mark => exact hf.setThunk _ (Thunk.whole_forced _)

/-- A function from a table that agrees with its targets. -/
theorem addTable (hf : h.Formed) {t : OverloadTable} (ht : t.Agrees h) :
    (h.addFunction (.ofTable t)).2.Formed where
  thunks := hf.thunks
  tails := hf.tails
  functions f hmem := by
    refine Function.Formed.mono (h := h) ?_ (Kept.push _ _)
    rcases Array.mem_push.mp hmem with hold | rfl
    · exact hf.functions f hold
    · refine ⟨.inl rfl, ?_⟩
      rintro _ ⟨⟩
      exact ht

end Formed

/-- No thunk has a lazy value. -/
def Strict (h : Heap) : Prop :=
  ∀ (i : Nat) (v : Value), h.memoAt? i = some v → v.isLazy = false

namespace Strict

variable {h h' : Heap} {v : Value}

/-- No lazy value can be published where none is a thunk's. -/
theorem publishable (hs : h.Strict) (hv : h.Publishable v) : v.isLazy = false :=
  hv.elim id fun ⟨i, hi⟩ => hs i v hi

/-- A thunk is replaced by one without a lazy value. -/
theorem setThunk (hs : h.Strict) (t : Ref .thunk) {s : Thunk}
    (hv : ∀ v, s.memo? = some v → v.isLazy = false) : (h.setThunk t s).Strict := by
  intro i v hi
  rw [memoAt?, getElem?_setThunk] at hi
  split at hi
  · exact hv v hi
  · exact hs i v hi

/-- A new thunk has no lazy value. -/
theorem addThunk (hs : h.Strict) {s : Thunk} (hv : ∀ v, s.memo? = some v → v.isLazy = false) :
    (h.addThunk s).2.Strict := by
  intro i v hi
  rw [memoAt?, Heap.addThunk, Array.getElem?_push] at hi
  split at hi
  · exact hv v hi
  · exact hs i v hi

/-- Moves publish no lazy value. -/
theorem move (hs : h.Strict) (m : h.Move h') : h'.Strict := by
  cases m with
  | grow e =>
    intro i v hi
    rw [memoAt?, e.thunks] at hi
    exact hs i v hi
  | defer d => exact hs.addThunk (by rintro v ⟨⟩)
  | claim => exact hs.setThunk _ (by rintro v ⟨⟩)
  | release => exact hs.setThunk _ (by rintro v ⟨⟩)
  | publish _ hv =>
    refine hs.setThunk _ ?_
    rintro v ⟨⟩
    exact hs.publishable hv
  | mark ht =>
    refine hs.setThunk _ ?_
    rintro v ⟨⟩
    exact hs.publishable (publishable_of_memo ht)

theorem complete (hs : h.Strict) (t : Ref .thunk) (hv : v.isLazy = false) :
    (h.complete t v).2.Strict :=
  (evolves_complete t (.inl hv)).1.keeps (fun m hs => hs.move m) hs

end Strict

end Heap

/-! ### Acts of the host -/

/-- What the host may do with a heap. `admits` says which values it makes thunks with, and completes
them with, by itself; `E` performs the operations that are asked for meanwhile. What it reads off
values at the boundary comes down to operations. -/
inductive HostAct [Embedding] (admits : Value → Prop) (E : Engine) (h : Heap) :
    {α : Type} → Eval α → Prop
  | literal (l : Literal) : HostAct admits E h (Eval.literal l)
  | typeInfo (id : Nat) (name : String) : HostAct admits E h (Eval.makeTypeInfo id name)
  | foreign (data : ForeignData) : HostAct admits E h (Eval.makeForeign data)
  | list (items : List Value) : HostAct admits E h (Eval.makeList items)
  | record (r : Record) : HostAct admits E h (Eval.makeRecord r)
  | variant (tag : String) (payload : Value) : HostAct admits E h (Eval.makeVariant tag payload)
  | module (m : Module) : HostAct admits E h (Eval.makeModule m)
  | native (name : String) (arity : Nat) (code : List Value → HostCode) :
      HostAct admits E h (Eval.makeFunction ⟨name, arity, [], .native code⟩)
  | code {program : Program} {chunk : Nat} {captures : List Value} {f : Function} :
      Function.ofChunk? program chunk captures = some f →
      HostAct admits E h (Eval.makeFunction f)
  | overloaded {t : OverloadTable} : t.Built h →
      HostAct admits E h (Eval.makeFunction (.ofTable t))
  | deferred (d : Deferred) : HostAct admits E h (Eval.makeThunk (.waiting d))
  | ready {v : Value} : admits v → HostAct admits E h (Eval.makeThunk (.forced v))
  | begin (t : Ref .thunk) : HostAct admits E h (claim t)
  | complete (t : Ref .thunk) {v : Value} :
      admits v → HostAct admits E h (Eval.onHeap (·.complete t v))
  | abort (t : Ref .thunk) : HostAct admits E h (Eval.onHeap fun h => ((), h.release t))
  | force (fuel : Nat) (t : Ref .thunk) : HostAct admits E h (forceThunk E fuel t)
  | forceNow (fuel : Nat) (t : Ref .thunk) : HostAct admits E h (forceNow E fuel [] t)
  | select (t : OverloadTable) (args : List Value) : HostAct admits E h (t.select E args)
  | bind (fuel : Nat) (f : Ref .function) (args : List Value) :
      HostAct admits E h (bind E fuel f args)
  | apply (fuel : Nat) (f : Ref .function) (args : List Value) :
      HostAct admits E h (applyFunction E fuel f args)
  | perform (fuel : Nat) (o : Operation) : HostAct admits E h (perform E fuel o)
  | execute (fuel : Nat) (m : Machine) : HostAct admits E h (m.execute E fuel)
  | invoke (fuel : Nat) (m : Machine) (program : Program) (chunk : Nat) (locals : List Value) :
      HostAct admits E h (m.invoke E fuel program chunk locals)
  | invokeFunction (level : Nat) (f : Ref .function) (args : List Value) :
      HostAct admits E h (invokeFunction level f args)
  /-- The calls whose code asks for nothing but operations. -/
  | call {α : Type} {x : Eval α} : HostCall x → HostAct admits E h x

/-- One change of a heap by an act. -/
inductive Heap.Change (admits : Value → Prop) : Heap → Heap → Prop
  | move {h h' : Heap} : h.Move h' → Change admits h h'
  | ready (h : Heap) {v : Value} : admits v → Change admits h (h.addThunk (.forced v)).2
  | complete (h : Heap) (t : Ref .thunk) {v : Value} :
      admits v → Change admits h (h.complete t v).2
  | overload {h : Heap} {t : OverloadTable} :
      t.Built h → Change admits h (h.addFunction (.ofTable t)).2

/-- `h'` comes from `h` by changes. -/
def Heap.Changes (admits : Value → Prop) : Heap → Heap → Prop :=
  Relation.ReflTransGen (Heap.Change admits)

/-- What every change keeps, a sequence of changes keeps. -/
theorem Heap.Changes.keeps {admits : Value → Prop} {P : Heap → Prop} {h h' : Heap}
    (hchanges : h.Changes admits h') (hchange : ∀ {a b : Heap}, a.Change admits b → P a → P b)
    (hP : P h) : P h' := by
  induction hchanges with
  | refl => exact hP
  | tail _ hc ih => exact hchange hc ih

/-- Moves are changes. -/
instance (admits : Value → Prop) : Moving (Heap.Changes admits) where
  refl _ := .refl
  trans _ _ _ := .trans
  of_move m := .single (.move m)

/-- To look at the outcome of an evaluation changes nothing more. -/
theorem outcome_preserves {R : Heap → Heap → Prop} {α : Type} {x : Eval α} (hx : x.Preserves R) :
    (outcome x).Preserves R := by
  intro w
  have h := hx w
  simp only [Leads, outcome] at *
  cases hw : x w with
  | ok a w' =>
    rw [hw] at h
    exact h
  | error i w' =>
    rw [hw] at h
    cases i with
    | failed => exact fun _ => h (.inl rfl)
    | suspended => exact fun _ => h (.inr rfl)
    | exhausted => exact h
    | crashed => exact h

/-- An invocation at the boundary is a sequence of moves. -/
theorem invokeFunction_evolves (level : Nat) (f : Ref .function) (args : List Value) :
    (invokeFunction level f args).Preserves Evolves := by
  have hE := engine_evolves level
  refine .bind .heap fun h => ?_
  dsimp only
  split
  · exact .pure _
  · refine .bind (outcome_preserves ?_) fun r => ?_
    · exact applyFunction_preserves hE (invokeChunk_evolves hE) level f args
    · -- handing over the outcome changes the context only
      refine .of_eq fun w => ?_
      cases r with
      | ok v => rfl
      | error i => cases i <;> rfl

/-- Every act changes the heap by moves, or makes or completes a thunk with a value of the host, or
makes a function from a table; and so, if operations, code of the host and foreign values do nothing
else meanwhile. -/
theorem HostAct.changes [Embedding] {admits : Value → Prop} {E : Engine}
    [(Discipline.ofHeaps (Heap.Changes admits)).Hosted E]
    (hE : ∀ o, (E o).Preserves (Heap.Changes admits)) {α : Type} {x : Eval α} {w : World}
    (hx : HostAct admits E w.heap x) :
    Leads x w fun r w' => Regular r → w.heap.Changes admits w'.heap := by
  -- what runs no code moves nothing but what it makes
  have forceless {α : Type} {x : Eval α} (hx : ∀ ev : Evaluator, Parallel .none ev ev x x) :
      x.Preserves (Heap.Changes admits) :=
    Parallel.preserves_of_forceless hx
  have evolves {α : Type} {x : Eval α} (hx : x.Preserves Evolves) :
      x.Preserves (Heap.Changes admits) :=
    fun w => (hx w).imp fun _ _ h hreg => (h hreg).related
  cases hx with
  | literal l => exact forceless (fun _ => .literal l) w
  | typeInfo id name => exact forceless (fun _ => .makeTypeInfo id name) w
  | foreign data => exact forceless (fun _ => .makeForeign data) w
  | list items => exact forceless (fun _ => .makeList items) w
  | record r => exact forceless (fun _ => .makeRecord r) w
  | variant tag payload => exact forceless (fun _ => .makeVariant tag payload) w
  | module m =>
    refine forceless (fun _ => .bind (.add (fun h => ?_) fun _ => rfl) fun _ => .pure _) w
    exact (h.extends_addModule m).grows rfl rfl
  | native name arity code => exact makeFunction_preserves rfl (by simp) w
  | code hf =>
    obtain ⟨c, -, rfl⟩ := Option.map_eq_some_iff.mp hf
    exact makeFunction_preserves rfl (by simp) w
  | overloaded ht => exact fun _ => .single (.overload ht)
  | deferred d => exact makeThunk_preserves d w
  | ready hv => exact fun _ => .single (.ready _ hv)
  | begin t => exact (claim_evolves t).imp fun _ _ h _ => h.1
  | complete t hv => exact fun _ => .single (.complete _ t hv)
  | abort t => exact fun _ => (w.heap.evolves_release t).related
  | force fuel t => exact forceThunk_evolves hE fuel t w
  | forceNow fuel t => exact forceNow_evolves hE fuel [] t w
  | select t args => exact select_preserves hE t args w
  | bind fuel f args => exact bind_preserves hE fuel f args w
  | apply fuel f args =>
    exact applyFunction_preserves hE (invokeChunk_evolves hE) fuel f args w
  | perform fuel o =>
    exact perform_preserves hE (forceThunk_evolves hE) (invokeChunk_evolves hE) fuel o w
  | execute fuel m => exact execute_evolves hE fuel m w
  | invoke fuel m program chunk locals => exact invoke_evolves hE fuel m program chunk locals w
  | invokeFunction level f args => exact evolves (invokeFunction_evolves level f args) w
  | call hcall => exact evolves hcall.evolves w

/-- The evaluation ends with this outcome in this world, whether regular or not. -/
def Eval.EndsWith {α : Type} (x : Eval α) (w : World) (r : Except Interrupt α) (w' : World) :
    Prop :=
  Leads x w fun r₁ w₁ => r₁ = r ∧ w₁ = w'

/-- A relation that holds across all regular ends is preserved. -/
theorem Eval.Preserves.of_ends {R : Heap → Heap → Prop} {α : Type} {x : Eval α}
    (hends : ∀ w r w', x.EndsWith w r w' → Regular r → R w.heap w'.heap) : x.Preserves R :=
  fun w => .intro (fun _ w' hx => hends w _ w' (.of_eq_ok hx ⟨rfl, rfl⟩))
    fun _ w' hx => hends w _ w' (.of_eq_error hx ⟨rfl, rfl⟩)

namespace Heap

/-- The host has acted on `h` any number of times, in whatever contexts, and leaves `h'`. -/
inductive Served (admits : Value → Prop) : Heap → Heap → Prop
  | refl (h : Heap) : Served admits h h
  | act {α : Type} {x : Eval α} {h : Heap} {w w' : World} {r : Except Interrupt α} (level : Nat) :
      Served admits h w.heap → HostAct admits (engine level) w.heap x → x.EndsWith w r w' →
      Regular r → Served admits h w'.heap
  /-- An act in any other embedding. While it lasts, operations are asked for, code of the host runs
  and foreign values answer; nothing is said of what these do, but that the heap comes out of it as
  the host can leave it. They may claim, complete and give back thunks that are being evaluated, run
  machines, and handle failures and go on. -/
  | hosted {α : Type} {x : Eval α} {emb : Embedding} {E : Engine} {h : Heap} {w w' : World}
      {r : Except Interrupt α} : Served admits h w.heap →
      (∀ o w₁ r₁ w₂, (E o).EndsWith w₁ r₁ w₂ → Regular r₁ → Served admits w₁.heap w₂.heap) →
      (∀ code w₁ r₁ w₂, (emb.run E code).EndsWith w₁ r₁ w₂ → Regular r₁ →
        Served admits w₁.heap w₂.heap) →
      (∀ {β : Type} {y z : Eval β} {ev : Evaluator} w₁ r₁ w₂, ev.From E →
        ForeignAnswers ev ev y z → y.EndsWith w₁ r₁ w₂ → Regular r₁ →
        Served admits w₁.heap w₂.heap) →
      HostAct admits E w.heap x → x.EndsWith w r w' → Regular r → Served admits h w'.heap

namespace Served

variable {admits : Value → Prop} {h h' : Heap}

/-- However acts are nested, they come to a sequence of changes. -/
theorem changes (hs : h.Served admits h') : h.Changes admits h' := by
  -- whatever is known of the act is known of its outcome
  have ended {α : Type} {x : Eval α} {w w' : World} {r : Except Interrupt α}
      (hact : Leads x w fun r₁ w₁ => Regular r₁ → w.heap.Changes admits w₁.heap)
      (hend : x.EndsWith w r w') (hreg : Regular r) : w.heap.Changes admits w'.heap :=
    (hact.and hend).elim fun _ _ ⟨hchanges, hr, hw⟩ => hw ▸ hchanges (hr ▸ hreg)
  induction hs with
  | refl => exact .refl
  | act level _ hx hend hreg ih =>
    have hE (o : Operation) : (engine level o).Preserves (Changes admits) :=
      fun w => (engine_evolves level o w).imp fun _ _ h hreg => (h hreg).related
    exact ih.trans (ended (HostAct.changes hE hx) hend hreg)
  | @hosted α x emb E _ _ _ _ _ _ _ _ hx hend hreg ih ihE ihrun ihanswer =>
    have hhosted : (Discipline.ofHeaps (Changes admits)).Hosted E :=
      { code := fun _ code _ => Eval.keepsTo_ofHeaps.mpr (.of_ends (ihrun code))
        answer := fun _ hev _ _ _ _ h => Eval.keepsTo_ofHeaps.mpr
          (.of_ends fun w r w' => ihanswer w r w' hev h) }
    exact ih.trans (ended (HostAct.changes (fun o => .of_ends (ihE o)) hx) hend hreg)

/-- What every change keeps, a sequence of acts keeps. -/
theorem keeps {P : Heap → Prop} (hs : h.Served admits h')
    (hchange : ∀ {a b : Heap}, a.Change admits b → P a → P b) (hP : P h) : P h' :=
  hs.changes.keeps hchange hP

end Served

namespace Change

variable {admits : Value → Prop} {h h' : Heap}

/-- Values of thunks are never replaced. -/
theorem memo {i : Nat} {v : Value} (c : h.Change admits h') (hi : h.memoAt? i = some v) :
    h'.memoAt? i = some v := by
  cases c with
  | move m => exact m.memo hi
  | ready _ => exact h.memoAt?_addThunk _ hi
  | overload _ => exact hi
  | complete t _ =>
    cases ht : h.memo? t with
    | some first =>
      rw [h.complete_of_memo t ht]
      exact memoAt?_mark ht hi
    | none =>
      rw [h.complete_of_unforced t ht]
      exact memoAt?_setThunk ht _ hi

/-- No value is lazy that the host has not brought in. -/
theorem strict (hadmits : ∀ v, admits v → v.isLazy = false) (c : h.Change admits h')
    (hs : h.Strict) : h'.Strict := by
  cases c with
  | move m => exact hs.move m
  | ready hv =>
    refine hs.addThunk ?_
    rintro u ⟨⟩
    exact hadmits _ hv
  | complete t hv => exact hs.complete t (hadmits _ hv)
  | overload _ => exact hs

/-- Changes keep heaps formed. -/
theorem formed (c : h.Change admits h') (hf : h.Formed) : h'.Formed := by
  cases c with
  | move m => exact hf.move m
  | ready _ => exact hf.addThunk (Thunk.whole_forced _)
  | complete t _ => exact hf.setThunk t (Thunk.whole_forced _)
  | overload ht => exact hf.addTable ht.agrees

end Change

/-- The empty heap is formed. -/
theorem formed_empty : ({} : Heap).Formed where
  thunks := by simp
  tails := by simp
  functions := by simp

/-- The empty heap has no thunk. -/
theorem strict_empty : ({} : Heap).Strict := by
  intro i v hi
  cases hi

end Heap

/-- An act that yields a value. -/
theorem Heap.Served.acted {admits : Value → Prop} {h : Heap} {α : Type} {x : Eval α} {a : α}
    {w w' : World} (level : Nat) (hs : h.Served admits w.heap)
    (hx : HostAct admits (engine level) w.heap x) (hend : x w = .ok a w') :
    h.Served admits w'.heap :=
  hs.act level hx (.of_eq_ok hend ⟨rfl, rfl⟩) trivial

/-- A forced thunk answers with its value, whatever is done with it. -/
theorem forced_answers {w : World} {t : Ref .thunk} {v : Value}
    (ht : w.heap.thunk t = .forced v) :
    w.heap.release t = w.heap ∧ (∀ u, w.heap.complete t u = (v, w.heap)) ∧
      claim t w = .ok (.ready v) w ∧
      ∀ E fuel, forceThunk E fuel t w = .ok v w ∧ forceNow E (fuel + 1) [] t w = .ok v w := by
  have hmemo : w.heap.memo? t = some v := by rw [Heap.memo?, ht]
  have hheap : Eval.heap w = .ok w.heap w := rfl
  refine ⟨by rw [Heap.release, ht], w.heap.complete_of_forced t ht, claim_of_memo hmemo,
    fun E fuel => ⟨?_, ?_⟩⟩
  · rw [forceThunk, bind_ok hheap, hmemo]
    rfl
  · have hclaim : releasing [] (claim t) w = .ok (.ready v) w :=
      releasing_ok (claim_of_memo hmemo)
    rw [forceNow, bind_ok hclaim]
    rfl

/-- However the host has come by a heap, a thunk has a value exactly when its evaluation is over,
and each keeps the first one: later claims, forces and completions give that value and change
nothing. Unless the host itself makes or completes thunks with lazy values, no value is lazy. Behind
every head stands a list or a lazy value; every function has no arguments yet or fewer than it
needs; and every clause of an overload table has as many parameters as the table has arguments, and
a target that lacks as many. -/
theorem heap_stays_formed {admits : Value → Prop} {h h' : Heap}
    (hs : ({} : Heap).Served admits h) (hs' : h.Served admits h') :
    (∀ t, (h.memo? t).isSome ↔ (h.thunk t).state = .done) ∧
    (∀ (t : Ref .thunk) (v : Value), t.index < h.thunks.size → h.memo? t = some v →
      h'.memo? t = some v ∧ ∀ w : World, w.heap = h' →
        w.heap.release t = w.heap ∧ (∀ u, w.heap.complete t u = (v, w.heap)) ∧
        claim t w = .ok (.ready v) w ∧
        ∀ E fuel, forceThunk E fuel t w = .ok v w ∧ forceNow E (fuel + 1) [] t w = .ok v w) ∧
    ((∀ v, admits v → v.isLazy = false) → ∀ t v, h.memo? t = some v → v.isLazy = false) ∧
    (∀ c ∈ h.cells, c.tail.IsTail) ∧
    (∀ f ∈ h.functions, f.applied = [] ∨ f.applied.length < f.arity) ∧
    (∀ f ∈ h.functions, ∀ table, f.body = .overloaded table → ∀ c ∈ table.clauses,
      c.params.length = table.arity ∧ (h.function c.target).remaining = table.arity) := by
  have hformed : h.Formed := hs.keeps Heap.Change.formed Heap.formed_empty
  refine ⟨fun t => hformed.thunk t, fun t v ht hv => ?_, fun hadmits t v hv => ?_, hformed.tails,
    fun f hf => (hformed.functions f hf).applied, fun f hf table htable c hc => ?_⟩
  · -- a reference past the end reads as forced too, so the bound is needed here
    have hkept := hs'.keeps (fun c => c.memo) (h.memoAt?_of_memo? t ht hv)
    have hmemo : h'.memo? t = some v := h'.memo?_of_memoAt? t hkept
    have hwhole := (hs'.keeps Heap.Change.formed hformed).thunk t
    refine ⟨hmemo, ?_⟩
    rintro w rfl
    exact forced_answers (hwhole.eq_forced hmemo)
  · have hstrict : h.Strict := hs.keeps (Heap.Change.strict hadmits) Heap.strict_empty
    exact hstrict.publishable (Heap.publishable_of_memo hv)
  · obtain ⟨hparams, -, hremaining⟩ := (hformed.functions f hf).table table htable c hc
    exact ⟨hparams, hremaining⟩

/-- Host code of two arguments that gives the list of them. -/
def pairing : Function :=
  ⟨"pair", 2, [], .native fun args => .makeList args .done⟩

/-- An overload table that pairs whatever it is given. -/
def pairingTable : OverloadTable :=
  ⟨"pairs", 2, [⟨[none, none], ⟨0⟩⟩]⟩

/-- The table is built by adding its clause. -/
theorem pairingTable_built : pairingTable.Built { functions := #[pairing] } := by
  have hadd : (⟨"pairs", 2, []⟩ : OverloadTable).addClause { functions := #[pairing] }
      [none, none] ⟨0⟩ = .ok pairingTable := rfl
  exact .clause (.empty "pairs" 2) (by decide) hadd

/-- A function of the host, an overload table over it, a partial application of that, and a list
with a forced thunk behind its head. -/
def World.furnished : World where
  heap := {
    functions := #[pairing, .ofTable pairingTable,
      { Function.ofTable pairingTable with applied := [.int 5] }]
    thunks := #[.forced (.int 7)]
    cells := #[⟨.int 1, .lazy ⟨0⟩⟩] }

/-- An embedding in which code publishes a value of its own in the first thunk, and foreign values
refuse every operation. -/
@[reducible]
def Embedding.publishing : Embedding where
  text _ _ f := return f.kind.name
  binary _ _ op l r := Eval.invalidOperand op.name l r
  unary _ f op := Eval.invalidUnary op.name (.foreign f)
  equal _ f other := return f.equal other
  length _ f := Eval.invalidUnary "GetLength" (.foreign f)
  get _ f key := Eval.invalidOperand "GetValue" (.foreign f) key
  call _ f _ := Eval.invalidUnary "Call" (.foreign f)
  convert _ f target := Eval.conversionFailed (.foreign f) target.name
  run _ _ := Eval.onHeap (·.complete ⟨0⟩ (.int 7))

/-- What such a foreign value answers leaves the heap as it is. -/
theorem publishing_answers {α : Type} {ev : Evaluator} {x y : Eval α} {w w' : World}
    {r : Except Interrupt α} (h : @ForeignAnswers .publishing ev ev α x y)
    (hend : x.EndsWith w r w') : w'.heap = w.heap := by
  cases h <;> · obtain ⟨-, rfl⟩ := hend; rfl

/-- The thunk is evaluated by code that publishes a value before it yields it. -/
theorem served_furnished :
    ({} : Heap).Served (fun v => v.isLazy = false) World.furnished.heap := by
  have hstart : ({} : Heap).Served (fun v => v.isLazy = false) ({} : World).heap := .refl _
  have hnative :=
    hstart.acted 0 (.native "pair" 2 fun args => .makeList args .done) rfl
  have htable := hnative.acted 0 (.overloaded pairingTable_built) rfl
  have hpartial := htable.acted 1 (.bind 1 ⟨1⟩ [.int 5]) rfl
  have hthunk := hpartial.acted 0 (.deferred (.native (.done (.int 8)))) rfl
  have hcell := hthunk.acted 2 (.perform 2 (.binary .cons (.int 1) (.lazy ⟨0⟩))) rfl
  refine hcell.hosted ?_ ?_ ?_ (@HostAct.forceNow .publishing _ (engine 0) _ 2 ⟨0⟩) ⟨rfl, rfl⟩
    trivial
  · -- the code does not perform any operation
    rintro o w₁ r₁ w₂ ⟨rfl, -⟩ (hreg | hreg) <;> cases hreg
  · rintro code w₁ r₁ w₂ ⟨rfl, rfl⟩ -
    exact (Heap.Served.refl w₁.heap).acted 0 (.complete ⟨0⟩ rfl) rfl
  · intro β y z ev w₁ r₁ w₂ _ h hend _
    rw [publishing_answers h hend]
    exact .refl _

/-- Completing the forced thunk again leaves its value. -/
theorem heap_stays_formed_furnished :
    World.furnished.heap.memo? ⟨0⟩ = some (.int 7) ∧
    World.furnished.heap.Served (fun v => v.isLazy = false)
      (World.furnished.heap.complete ⟨0⟩ (.int 9)).2 ∧
    (World.furnished.heap.complete ⟨0⟩ (.int 9)).2.memo? ⟨0⟩ = some (.int 7) := by
  have hcompleted :
      World.furnished.heap.Served (fun v => v.isLazy = false) (World.mk _ {} {} 0).heap :=
    Heap.Served.acted (w := World.furnished) 0 (.refl _) (.complete ⟨0⟩ (v := .int 9) rfl) rfl
  exact ⟨rfl, hcompleted,
    ((heap_stays_formed served_furnished hcompleted).2.1 ⟨0⟩ (.int 7) (by decide) rfl).1⟩

end LazyMachine
