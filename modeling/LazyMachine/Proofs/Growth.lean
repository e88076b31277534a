import LazyMachine.Proofs.Discipline

/-!
# What code does to the heap besides claims

Code adds objects to the heap and otherwise leaves it to the operations that it performs. So a
relation of heaps that admits new objects and holds across the operations of an engine holds across
all code. `Heap.Growth R` says that `R` is such a relation: to relate the heaps before and after by
it is a lawful discipline, whatever the world and however an evaluation ends.
-/

namespace LazyMachine

variable {α : Type}

/-- A reflexive and transitive relation of heaps that admits new objects, thunks being new while
they wait. -/
class Heap.Growth (R : Heap → Heap → Prop) : Prop extends IsPreorder Heap R where
  of_grows {h h' : Heap} : h.Grows h' → R h h'
  of_addThunk (h : Heap) (d : Deferred) : R h (h.addThunk (.waiting d)).2

/-- The discipline to relate the heaps before and after by `R`. -/
def Discipline.ofHeaps (R : Heap → Heap → Prop) : Discipline where
  start _ := True
  done w w' := R w.heap w'.heap
  stopped _ w w' := R w.heap w'.heap
  code _ := True

section Growth

variable {R : Heap → Heap → Prop}

/-- A relation of heaps is a discipline of all host code if it admits new objects. -/
instance [Heap.Growth R] : (Discipline.ofHeaps R).LawfulCode where
  refl _ := refl_of R _
  trans h h' := trans_of R h h'
  stop h h' := trans_of R h h'
  next _ _ := trivial
  dead _ _ := refl_of R _
  fail _ _ := refl_of R _
  grow _ hgrows _ := Heap.Growth.of_grows hgrows
  enclose _ _ _ _ _ _ := Heap.Growth.of_grows (Heap.grows_addFunction (.inl ⟨rfl, by simp⟩))
  curry f _ hargs := Heap.Growth.of_grows (Heap.grows_addFunction (.inr ⟨f, _, hargs, rfl⟩))
  delay _ _ := Heap.Growth.of_addThunk _ _
  body _ _ _ := trivial
  code_next _ _ := trivial
  code_stop _ _ _ := refl_of R _
  code_count _ _ := refl_of R _
  code_latch _ _ := refl_of R _
  code_makeThunk _ _ := Heap.Growth.of_addThunk _ _
  code_makeFunction _ _ := Heap.Growth.of_grows (Heap.grows_addFunction (.inl ⟨rfl, by simp⟩))
  code_makeNaturals _ _ := Heap.Growth.of_addThunk _ _
  eager _ := trivial
  eager_done _ h := h
  eager_stopped _ _ h := h
  aside _ := trivial
  report _ _ h := h.elim id fun ⟨_, h⟩ => h

/-- To keep to the discipline is to preserve the relation. -/
theorem Eval.keepsTo_ofHeaps {x : Eval α} :
    x.KeepsTo (Discipline.ofHeaps R) ↔ x.Preserves R := by
  constructor
  · intro h w
    refine (h w trivial).imp fun r w' h => ?_
    cases r with
    | ok a => exact fun _ => h
    | error i => exact h
  · intro h w _
    refine (h w).imp fun r w' h => ?_
    cases r with
    | ok a => exact h trivial
    | error i => exact h

/-- The same of steps. -/
theorem Step.KeepsTo.yields {P : α → Prop} {x : Step α}
    (hx : x.KeepsTo (Discipline.ofHeaps R) P) : x.Yields R P := by
  intro w
  refine (hx w trivial).imp fun r w' h => ?_
  match r with
  | .ok a => exact ⟨fun _ => h.1, by rintro _ ⟨⟩; exact h.2⟩
  | .error (.abort a) => exact ⟨fun _ => h, by rintro _ ⟨⟩⟩
  | .error (.interrupt i) => exact ⟨h, by rintro _ ⟨⟩⟩

/-! ### Steps that force nothing -/

variable [Heap.Growth R]

/-- What is composed without any force only adds objects. -/
theorem Parallel.preserves_of_forceless {x : Eval α}
    (hx : ∀ ev : Evaluator, Parallel .none ev ev x x) : x.Preserves R :=
  Eval.keepsTo_ofHeaps.mp (Parallel.keepsTo_of_forceless hx)

/-- Making a pending thunk adds an object. -/
theorem makeThunk_preserves (d : Deferred) : (Eval.makeThunk (.waiting d)).Preserves R :=
  .bind (.onHeap fun h => Heap.Growth.of_addThunk h d) fun _ => .pure _

/-- A function without arguments that is no overload table can be made on every heap. -/
theorem makeFunction_preserves {f : Function} (happlied : f.applied = [])
    (hbody : ∀ table, f.body ≠ .overloaded table) : (Eval.makeFunction f).Preserves R := by
  refine .bind (.onHeap fun h => ?_) fun _ => .pure _
  exact Heap.Growth.of_grows (Heap.grows_addFunction (.inl ⟨happlied, hbody⟩))

/-- Making the value for a handler adds objects. -/
theorem errorValue_preserves (e : Option RuntimeError) : (errorValue e).Preserves R :=
  Eval.keepsTo_ofHeaps.mp (errorValue_keepsTo e)

/-! ### Code -/

section Engine

variable [Embedding] {E : Engine} [(Discipline.ofHeaps R).Hosted E] (hE : ∀ o, (E o).Preserves R)

include hE

omit [Embedding] [(Discipline.ofHeaps R).Hosted E] in
/-- Selecting a clause comes down to forces. -/
theorem select_preserves (t : OverloadTable) (args : List Value) :
    (t.select E args).Preserves R :=
  Eval.keepsTo_ofHeaps.mp (select_keepsTo (fun o => Eval.keepsTo_ofHeaps.mpr (hE o)) t args)

/-- Binding adds partial applications, and whatever host code does. -/
theorem bind_preserves (fuel : Nat) (f : Ref .function) (args : List Value) :
    (bind E fuel f args).Preserves R :=
  Eval.keepsTo_ofHeaps.mp (bind_keepsTo (fun o => Eval.keepsTo_ofHeaps.mpr (hE o)) fuel f args)

theorem deferredBind_preserves (fuel : Nat) (d : Deferred) : (d.bind E fuel).Preserves R :=
  Eval.keepsTo_ofHeaps.mp
    (deferredBind_keepsTo (fun o => Eval.keepsTo_ofHeaps.mpr (hE o)) fuel fun _ _ => trivial)

/-- Whatever the frame does next, it goes on next to where it is or where it says. -/
theorem advance_follows (fuel : Nat) (f : Frame) :
    (f.advance E fuel).Yields R (Flow.Follows f) :=
  (advance_keepsTo (fun o => Eval.keepsTo_ofHeaps.mpr (hE o)) fuel f).yields

/-- In particular the frame keeps its task. -/
theorem advance_yields (fuel : Nat) (f : Frame) :
    (f.advance E fuel).Yields R (Flow.Keeps f) :=
  (advance_follows hE fuel f).imp fun _ h => h.keeps

section Application

variable (hinvoke : ∀ fuel program chunk locals,
  (invokeChunk E fuel program chunk locals).Preserves R)

include hinvoke

/-- Application comes down to binding and the runs of code. -/
theorem applyFunction_preserves (fuel : Nat) (f : Ref .function) (args : List Value) :
    (applyFunction E fuel f args).Preserves R :=
  Eval.keepsTo_ofHeaps.mp (applyFunction_keepsTo (fun o => Eval.keepsTo_ofHeaps.mpr (hE o))
    (fun fuel p c l => Eval.keepsTo_ofHeaps.mpr (hinvoke fuel p c l)) fuel f args)

theorem deferredRun_preserves (fuel : Nat) (d : Deferred) : (d.run E fuel).Preserves R :=
  Eval.keepsTo_ofHeaps.mp (deferredRun_keepsTo (fun o => Eval.keepsTo_ofHeaps.mpr (hE o))
    (fun fuel p c l => Eval.keepsTo_ofHeaps.mpr (hinvoke fuel p c l)) fuel fun _ _ => trivial)

end Application

/-- Every operation comes down to the runs of code and the forces of thunks in it. -/
theorem perform_preserves (hthunk : ∀ fuel t, (forceThunk E fuel t).Preserves R)
    (hinvoke : ∀ fuel program chunk locals, (invokeChunk E fuel program chunk locals).Preserves R)
    (fuel : Nat) (o : Operation) : (perform E fuel o).Preserves R :=
  Eval.keepsTo_ofHeaps.mp (perform_keepsTo (fun o => Eval.keepsTo_ofHeaps.mpr (hE o))
    (fun fuel t => Eval.keepsTo_ofHeaps.mpr (hthunk fuel t))
    (fun fuel p c l => Eval.keepsTo_ofHeaps.mpr (hinvoke fuel p c l)) fuel o)

end Engine

end Growth

end LazyMachine
