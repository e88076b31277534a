import LazyMachine.Proofs.Rendering
import LazyMachine.Proofs.Synchrony

/-!
# Rendering again

Rendering forces what it meets, so the heap after it shows what the text shows. Rendering the same
value again follows the same path and forces nothing (`render_repeats`), and so does rendering the
value in which thunks are replaced by their values (`Heap.inlined`).

One decision on the way is not made by forcing: whether the payload of a variant needs parentheses
depends on whether it has a payload itself, and for that a thunk without a value counts as one. So a
thunk that turns out to be unit where it stands inside two variants makes the difference
(`render_changes`); `Tidy` says that there is none.

References to objects that have not been made count as references to default objects, which would
change when the object is made. Host code of the model can make up such references; an evaluation
with `Evaluator.guarded` forces stops as soon as there are any.
-/

namespace LazyMachine

open Heap (Evolves)

variable {α β : Type}

namespace Heap

variable {h h' : Heap} {v u : Value}

/-! ### Closed heaps -/

/-- Whether the object that a value refers to has been made. -/
def has (h : Heap) : Value → Bool
  | .list (some c) => c.index < h.cells.size
  | .record r => r.index < h.records.size
  | .variant v => v.index < h.variants.size
  | .lazy t => t.index < h.thunks.size
  | .function f => f.index < h.functions.size
  | .module m => m.index < h.modules.size
  | _ => true

/-- Whether the parts of all data and the values of all thunks refer to objects that have been
made. -/
def closed (h : Heap) : Bool :=
  h.cells.toList.all (fun c => h.has c.head && h.has c.tail) &&
    h.records.toList.all (fun r => r.fields.all fun x => h.has x.2) &&
    h.variants.toList.all (fun v => h.has v.payload) &&
    h.thunks.toList.all fun t => t.memo?.all h.has

/-- In a closed heap the parts of what has been made have been made. -/
theorem has_part (hclosed : h.closed = true) (hv : h.has v = true) (hpart : h.Part v u) :
    h.has u = true := by
  simp only [closed, Bool.and_eq_true, List.all_eq_true, Array.mem_toList_iff] at hclosed
  obtain ⟨⟨⟨hcells, hrecords⟩, hvariants⟩, hthunks⟩ := hclosed
  have hmem {α : Type} {xs : Array α} {i : Nat} (hi : i < xs.size) (a : α) : xs.getD i a ∈ xs := by
    simp [Array.getD, hi]
  cases hpart with
  | @memo t u ht =>
    have hlt : t.index < h.thunks.size := by simpa [has] using hv
    have hall := hthunks _ (hmem hlt default)
    have ht' : (h.thunks.getD t.index default).memo? = some u := ht
    rwa [ht', Option.all_some] at hall
  | head c => exact (hcells _ (hmem (by simpa [has] using hv) default)).1
  | tail c => exact (hcells _ (hmem (by simpa [has] using hv) default)).2
  | field hx => exact hrecords _ (hmem (by simpa [has] using hv) default) _ hx
  | payload c => exact hvariants _ (hmem (by simpa [has] using hv) default)

/-- Whatever a closed heap reaches from one of its values it has. -/
theorem has_of_reaches (hclosed : h.closed = true) (hv : h.has v = true) (hu : h.Reaches v u) :
    h.has u = true := by
  induction hu with
  | refl => exact hv
  | tail _ hpart ih => exact has_part hclosed ih hpart

/-- A value that does not resolve to a lazy one is evaluated, in a closed heap. -/
theorem evaluated_of_resolve (hclosed : h.closed = true) (hv : h.has v = true)
    (hresolve : (h.resolve v).isLazy = false) : h.Evaluated v := by
  have hfollow (steps : Nat) (v : Value) (hv : h.has v = true)
      (hend : (h.follow steps v).isLazy = false) : h.Evaluated v := by
    induction steps generalizing v with
    | zero => exact .value hend
    | succ steps ih =>
      cases v with
      | lazy t =>
        rw [follow] at hend
        cases ht : h.memo? t with
        | none => rw [ht] at hend; cases hend
        | some u =>
          rw [ht] at hend
          have hlt : t.index < h.thunks.size := by simpa [has] using hv
          exact .link (h.memoAt?_of_memo? t hlt ht) (ih u (has_part hclosed hv (.memo ht)) hend)
      | _ => exact .value rfl
  exact hfollow _ v hv hresolve

/-! ### Later heaps -/

/-- A move removes no thunk. -/
theorem Move.thunks_size_le (m : h.Move h') : h.thunks.size ≤ h'.thunks.size := by
  cases m with
  | grow e => rw [e.thunks]
  | defer d => simp [addThunk]
  | claim _ => simp [setThunk]
  | release _ => simp [setThunk]
  | publish _ _ => simp [setThunk]
  | mark _ => simp [setThunk]

/-- What has been made stays. -/
theorem Evolves.has (e : h.Evolves h') (hv : h.has v = true) : h'.has v = true := by
  have hsize : h.thunks.size ≤ h'.thunks.size :=
    e.keeps (P := fun k => h.thunks.size ≤ k.thunks.size)
      (fun m hle => hle.trans m.thunks_size_le) (Nat.le_refl _)
  have hr := e.retains
  unfold Heap.has at *
  split at hv <;> simp only [decide_eq_true_eq] at *
  · exact hr.cells.size_le hv
  · exact hr.records.size_le hv
  · exact hr.variants.size_le hv
  · exact Nat.lt_of_lt_of_le hv hsize
  · exact hr.functions.size_le hv
  · exact hr.modules.size_le hv

/-- A value stays evaluated. -/
theorem Evolves.evaluated (e : h.Evolves h') (hv : h.Evaluated v) : h'.Evaluated v :=
  e.keeps (P := fun k => k.Evaluated v) (fun m hv => m.evaluated hv) hv

/-- What is evaluated resolves to the same value from then on. -/
theorem Evaluated.resolve_eq (hv : h.Evaluated v) (e : h.Evolves h') :
    h'.resolve v = h.resolve v ∧ (h.resolve v).isLazy = false := by
  -- links stay, so on both heaps the way from `v` leads over the same thunks to the same value
  have hpaths : ∃ passed u, h.Path v passed u ∧ h'.Path v passed u ∧ u.isLazy = false := by
    induction hv with
    | @value v hv =>
      have hstop (t : Ref .thunk) : v ≠ .lazy t := by
        rintro rfl
        cases hv
      have hend {h : Heap} : h.Path v [] v := .stop fun t ht => absurd ht (hstop t)
      exact ⟨[], v, hend, hend, hv⟩
    | @link t v ht _ ih =>
      obtain ⟨passed, u, hp, hp', hu⟩ := ih
      have ht' := e.memoAt? ht
      exact ⟨t :: passed, u, .link (h.memo?_of_memoAt? t ht) hp,
        .link (h'.memo?_of_memoAt? t ht') hp', hu⟩
  obtain ⟨passed, u, hp, hp', hu⟩ := hpaths
  rw [hp.resolve_eq, hp'.resolve_eq]
  exact ⟨rfl, hu⟩

/-- A thunk with an evaluated value resolves to what that resolves to. -/
theorem resolve_link {t : Ref .thunk} (ht : h.memo? t = some v) (hv : h.Evaluated v) :
    h.resolve (.lazy t) = h.resolve v := by
  obtain ⟨passed, u, hp, -⟩ := hv.path
  rw [hp.resolve_eq, (Path.link ht hp).resolve_eq]

end Heap

/-! ### What forcing leaves -/

section Forcing

variable {level fuel : Nat} {w w' : World} {t : Ref .thunk} {v x : Value}

/-- A thunk that has been forced has the value that the force gave. -/
theorem forceThunk_memo (hforce : forceThunk (engine level) fuel t w = .ok v w') :
    w'.heap.memo? t = some v := by
  have hmemo : Leads (forceThunk (engine level) fuel t) w fun r w' =>
      ∀ v, r = .ok v → w'.heap.memo? t = some v := by
    simp only [forceThunk, leads_bind, leads_heap]
    split
    · next u hu =>
      rintro _ ⟨⟩
      exact hu
    · simp only [leads_bind, leads_context]
      split
      · refine (forceNow_concluded (engine_settles level) fuel t (Heap.Owned.start w.heap)).imp ?_
        rintro r w' hc v rfl
        exact ((hc trivial).published v rfl).1
      · rintro _ ⟨⟩
  exact hmemo.of_ok hforce v rfl

/-- Forcing on and on is a sequence of moves. -/
theorem forceFrom_evolves (level fuel : Nat) (v : Value) :
    (forceFrom (engine level) fuel v).Preserves Evolves := by
  induction fuel generalizing v with
  | zero => exact .throw _
  | succ fuel ih =>
    cases v with
    | lazy t => exact .bind (forceThunk_evolves (engine_evolves level) fuel t) fun u => ih u
    | _ => exact .pure _

/-- A thunk that is passed on the way of a force has its value when the way has ended. One that was
never made is taken for unit, where the way ends. -/
theorem passed_of_forceFrom {u : Value} {w₁ : World}
    (hthunk : forceThunk (engine level) fuel t w = .ok u w₁)
    (hrest : forceFrom (engine level) fuel u w₁ = .ok x w') :
    w'.heap.memoAt? t.index = some u ∨
      w'.heap.thunks.size ≤ t.index ∧ u = .unit ∧ x = .unit := by
  have hmemo := forceThunk_memo hthunk
  by_cases hlt : t.index < w₁.heap.thunks.size
  · have hevolves := (forceFrom_evolves level fuel u w₁).of_ok hrest trivial
    exact .inl (hevolves.memoAt? (w₁.heap.memoAt?_of_memo? t hlt hmemo))
  · have hle := Nat.le_of_not_lt hlt
    rw [Heap.memo?_of_size_le _ _ hle] at hmemo
    cases hmemo
    cases fuel with
    | zero => cases hrest
    | succ fuel =>
      cases hrest
      exact .inr ⟨hle, rfl, rfl⟩

/-- A value that has been forced is evaluated, and resolves to what the force gave. -/
theorem evaluated_of_forceFrom (hforce : forceFrom (engine level) fuel v w = .ok x w')
    (hclosed : w'.heap.closed = true) (hv : w'.heap.has v = true) :
    w'.heap.Evaluated v ∧ w'.heap.resolve v = x := by
  induction fuel generalizing v w with
  | zero => cases hforce
  | succ fuel ih =>
    cases v with
    | lazy t =>
      obtain ⟨u, w₁, hthunk, hrest⟩ := of_bind_ok hforce
      rcases passed_of_forceFrom hthunk hrest with hmemoAt | ⟨hle, -⟩
      · -- as the heap is closed in the end, the link leads to something that was made
        have hmemo := w'.heap.memo?_of_memoAt? t hmemoAt
        have hu := Heap.has_part hclosed hv (.memo hmemo)
        obtain ⟨hevaluated, hresolve⟩ := ih hrest hu
        exact ⟨.link hmemoAt hevaluated, by rw [Heap.resolve_link hmemo hevaluated, hresolve]⟩
      · exact absurd (by simpa [Heap.has] using hv) (Nat.not_lt_of_le hle)
    | _ =>
      cases hforce
      exact ⟨.value rfl, Heap.resolve_of_not_lazy rfl⟩

end Forcing

/-- The evaluator that stops as soon as the heap refers to objects that have not been made. -/
def Evaluator.guarded (ev : Evaluator) : Evaluator where
  fuel := ev.fuel
  force v := do
    let x ← ev.force v
    if (← Eval.heap).closed then return x else throw .crashed
  perform := ev.perform

/-- The look whether a context is live changes nothing. -/
theorem leads_ensureLive (w : World) : Leads Eval.ensureLive w fun _ w' => w' = w := by
  simp only [Eval.ensureLive, leads_bind, leads_context]
  split <;> simp

/-- What the forces of an operation give. -/
def forcesOf (level : Nat) : Evaluator :=
  ⟨level, force (engine level) level, engine level⟩

section Guarded

variable {level : Nat} {w w' : World} {v x : Value}

/-- A guarded force that yields a value does what the force does, and leaves a closed heap. -/
theorem guarded_ok {ev : Evaluator} (hforce : ev.guarded.force v w = .ok x w') :
    ev.force v w = .ok x w' ∧ w'.heap.closed = true := by
  obtain ⟨y, w₁, hy, hrest⟩ := of_bind_ok hforce
  obtain ⟨h, w₂, hheap, hrest⟩ := of_bind_ok hrest
  cases hheap
  split at hrest
  · next hclosed =>
    cases hrest
    exact ⟨hy, hclosed⟩
  · cases hrest

/-- The guard makes no moves. -/
theorem guarded_evolves (level : Nat) (v : Value) :
    ((forcesOf level).guarded.force v).Preserves Evolves := by
  have hforce : (force (engine level) level v).Preserves Evolves :=
    .bind (.of_eq fun w => (leads_ensureLive w).imp fun _ _ h => congrArg World.heap h) fun _ =>
      forceFrom_evolves level level v
  refine .bind hforce fun x => .bind .heap fun h => ?_
  split
  · exact .pure _
  · exact .throw _

/-- What is composed of guarded forces yields the same without the guard. -/
theorem Parallel.ok_of_guarded {wide : Prop} {ev : Evaluator} {x y : Eval α}
    (hxy : Parallel (.crashing wide) ev.guarded ev x y) {a : α} (hx : x w = .ok a w') :
    y w = .ok a w' := by
  induction hxy generalizing w w' with
  | cut => cases hx
  | pure | fail | crash | live | heap | add => exact hx
  | answer h => exact h.elim
  | force v => exact (guarded_ok hx).1
  | report e _ ih =>
    obtain ⟨o, w₁, -, hfail⟩ := of_bind_ok hx
    cases hfail
  | bind _ _ ihx ihf =>
    obtain ⟨b, w₁, hb, hrest⟩ := of_bind_ok hx
    rw [bind_ok (ihx hb)]
    exact ihf b hrest

/-- After a guarded force its value is the one that the memos lead to. -/
theorem guarded_force (hforce : (forcesOf level).guarded.force v w = .ok x w')
    (hv : w.heap.has v = true) :
    w'.heap.closed = true ∧ w.heap.Evolves w'.heap ∧ w'.heap.Evaluated v ∧
      w'.heap.resolve v = x := by
  have hevolves := (guarded_evolves level v w).of_ok hforce trivial
  obtain ⟨hforce, hclosed⟩ := guarded_ok hforce
  obtain ⟨_, w₁, hlive, hfrom⟩ := of_bind_ok hforce
  obtain rfl : w₁ = w := (leads_ensureLive w).of_ok hlive
  exact ⟨hclosed, hevolves, evaluated_of_forceFrom hfrom hclosed (hevolves.has hv)⟩

end Guarded

/-! ### Heaps that show the same -/

namespace Heap

variable {h k : Heap} {v : Value}

/-- The objects of `h` are in `k` with parts that resolve to the same values. -/
structure Reflects (h k : Heap) : Prop where
  cell : ∀ c, h.has (.list (some c)) = true →
    k.resolve (k.cell c).head = h.resolve (h.cell c).head ∧
      k.resolve (k.cell c).tail = h.resolve (h.cell c).tail
  record : ∀ r, h.has (.record r) = true →
    List.Forall₂ (fun x y => y.1 = x.1 ∧ k.resolve y.2 = h.resolve x.2) (h.record r).fields
      (k.record r).fields
  variant : ∀ c, h.has (.variant c) = true → (k.variant c).tag = (h.variant c).tag ∧
    k.resolve (k.variant c).payload = h.resolve (h.variant c).payload
  function : ∀ f, k.function f = h.function f
  module : ∀ m, k.module m = h.module m

theorem Reflects.refl (h : Heap) : h.Reflects h where
  cell _ _ := ⟨rfl, rfl⟩
  record _ _ := List.forall₂_same.mpr fun _ _ => ⟨rfl, rfl⟩
  variant _ _ := ⟨rfl, rfl⟩
  function _ := rfl
  module _ := rfl

/-- The value behind forced thunks, if there is one. -/
def inline (h : Heap) (v : Value) : Value :=
  if (h.resolve v).isLazy then v else h.resolve v

/-- The heap in which the parts of data that have been evaluated stand for themselves, without the
thunks in between. -/
def inlined (h : Heap) : Heap :=
  { h with
    cells := h.cells.map fun c => ⟨h.inline c.head, h.inline c.tail⟩
    records := h.records.map fun r => ⟨r.fields.map fun x => (x.1, h.inline x.2)⟩
    variants := h.variants.map fun v => ⟨v.tag, h.inline v.payload⟩ }

/-- Where links lead depends on the thunks only. -/
theorem resolve_inlined (h : Heap) (v : Value) : h.inlined.resolve v = h.resolve v := by
  have hfollow (steps : Nat) (v : Value) : h.inlined.follow steps v = h.follow steps v := by
    induction steps generalizing v with
    | zero => rfl
    | succ steps ih =>
      cases v with
      | lazy t =>
        rw [follow, follow]
        have hmemo : h.inlined.memo? t = h.memo? t := rfl
        rw [hmemo]
        cases h.memo? t with
        | none => rfl
        | some u => exact ih u
      | _ => rfl
  exact hfollow _ v

/-- A value that is replaced by what it resolves to resolves to the same. -/
theorem resolve_inline (h : Heap) (v : Value) : h.inlined.resolve (h.inline v) = h.resolve v := by
  rw [resolve_inlined, inline]
  split
  · rfl
  · next hv => exact resolve_of_not_lazy (by simpa using hv)

/-- Replacing all evaluated thunks by their values leaves what the parts resolve to. -/
theorem reflects_inlined (h : Heap) : h.Reflects h.inlined where
  cell c hc := by
    have hlt : c.index < h.cells.size := by simpa [has] using hc
    have hcell : h.inlined.cell c = ⟨h.inline (h.cell c).head, h.inline (h.cell c).tail⟩ := by
      simp [cell, inlined, Array.getD, hlt]
    rw [hcell]
    exact ⟨h.resolve_inline _, h.resolve_inline _⟩
  record r hr := by
    have hlt : r.index < h.records.size := by simpa [has] using hr
    have hrecord : h.inlined.record r =
        ⟨(h.record r).fields.map fun x => (x.1, h.inline x.2)⟩ := by
      simp [record, inlined, Array.getD, hlt]
    rw [hrecord, List.forall₂_map_right_iff]
    exact List.forall₂_same.mpr fun x _ => ⟨rfl, h.resolve_inline _⟩
  variant c hc := by
    have hlt : c.index < h.variants.size := by simpa [has] using hc
    have hvariant : h.inlined.variant c =
        ⟨(h.variant c).tag, h.inline (h.variant c).payload⟩ := by
      simp [variant, inlined, Array.getD, hlt]
    rw [hvariant]
    exact ⟨rfl, h.resolve_inline _⟩
  function _ := rfl
  module _ := rfl

end Heap

/-! ### The same path again -/

/-- An evaluation `x` that starts on a closed heap later than `h` and comes to the heap `last`, or
to one before it, is repeated by `y` on the world `u`, which stays as it is. -/
structure Repeats (last : Heap) (u : World) (h : Heap) (R : Heap → α → β → Prop) (x : Eval α)
    (y : Eval β) : Prop where
  evolves : x.Preserves Evolves
  again : ∀ w a w', x w = .ok a w' → h.Evolves w.heap → w.heap.closed = true →
    w'.heap.Evolves last → w'.heap.closed = true ∧ ∃ b, y u = .ok b u ∧ R w'.heap a b

namespace Repeats

variable {γ δ : Type} {last h : Heap} {u : World} {R : Heap → α → β → Prop}

theorem pure {a : α} {b : β} (hab : ∀ h', h.Evolves h' → R h' a b) :
    Repeats last u h R (Pure.pure a) (Pure.pure b) where
  evolves := .pure a
  again w _ _ hx e hclosed _ := by
    cases hx
    exact ⟨hclosed, b, rfl, hab _ e⟩

/-- What yields nothing needs no repetition. -/
theorem of_stop {x : Eval α} {y : Eval β} (hx : x.Preserves Evolves)
    (hstop : ∀ w a w', x w ≠ .ok a w') : Repeats last u h R x y where
  evolves := hx
  again w a w' h _ _ _ := absurd h (hstop w a w')

theorem fail {e : RuntimeError} {y : Eval β} : Repeats last u h R (Eval.fail e : Eval α) y :=
  .of_stop (.of_eq fun _ => rfl) (by intro w a w' hx; cases hx)

theorem throw (i : Interrupt) {y : Eval β} : Repeats last u h R (MonadExcept.throw i : Eval α) y :=
  .of_stop (.throw _) (by intro w a w' hx; cases hx)

/-- Evaluations are repeated one after the other, on the same world. -/
theorem bind {x : Eval α} {y : Eval β} {f : α → Eval γ} {g : β → Eval δ}
    {S : Heap → γ → δ → Prop} (hxy : Repeats last u h R x y)
    (hf : ∀ a, (f a).Preserves Evolves)
    (hfg : ∀ h' a b, h.Evolves h' → h'.closed = true → h'.Evolves last → R h' a b →
      Repeats last u h' S (f a) (g b)) :
    Repeats last u h S (x >>= f) (y >>= g) where
  evolves := hxy.evolves.bind hf
  again w c w' hx e hclosed hlast := by
    -- the heap in between is later than `h` and comes to `last` by way of the second part
    obtain ⟨a, w₁, ha, hc⟩ := of_bind_ok hx
    have e₁ := (hxy.evolves w).of_ok ha trivial
    have hlast₁ := ((hf a w₁).of_ok hc trivial).trans hlast
    obtain ⟨hclosed₁, b, hb, hab⟩ := hxy.again w a w₁ ha e hclosed hlast₁
    obtain ⟨hclosed', d, hd, hcd⟩ :=
      (hfg w₁.heap a b (e.trans e₁) hclosed₁ hlast₁ hab).again w₁ c w' hc .refl hclosed₁ hlast
    exact ⟨hclosed', d, (bind_ok hb).trans hd, hcd⟩

/-- The heap is looked at; the two sides see different ones. -/
theorem heap {f : Heap → Eval γ} {g : Heap → Eval δ} {S : Heap → γ → δ → Prop}
    (hf : ∀ a, (f a).Preserves Evolves)
    (hfg : ∀ h', h.Evolves h' → h'.closed = true → h'.Evolves last →
      Repeats last u h' S (f h') (g u.heap)) :
    Repeats last u h S (Eval.heap >>= f) (Eval.heap >>= g) := by
  have hlook : Repeats last u h (fun h' a b => a = h' ∧ b = u.heap) Eval.heap Eval.heap := by
    refine ⟨.heap, fun w a w' hx _ hclosed _ => ?_⟩
    cases hx
    exact ⟨hclosed, _, rfl, rfl, rfl⟩
  refine hlook.bind hf fun h' a b e hclosed hlast hab => ?_
  obtain ⟨rfl, rfl⟩ := hab
  exact hfg a e hclosed hlast

/-- Something is looked for in the heap. If the first side goes on to the end with what it finds,
the second side has to find the same. -/
theorem find {f : Heap → Option γ} {x : γ → Eval α} {y : γ → Eval β}
    (hx : ∀ c, (x c).Preserves Evolves)
    (hsame : ∀ w c a w', h.Evolves w.heap → w.heap.closed = true → f w.heap = some c →
      x c w = .ok a w' → w'.heap.Evolves last → f u.heap = some c)
    (hxy : ∀ h' c, h.Evolves h' → Repeats last u h' R (x c) (y c)) :
    Repeats last u h R (Eval.find f >>= x) (Eval.find f >>= y) where
  evolves := Eval.Preserves.bind .find hx
  again w a w' hok e hclosed hlast := by
    obtain ⟨c, w₁, hc, hok⟩ := of_bind_ok hok
    cases hfound : f w.heap with
    | none => cases (Eval.find_error hfound).symm.trans hc
    | some c' =>
      rw [Eval.find_ok hfound] at hc
      cases hc
      rw [bind_ok (Eval.find_ok (hsame w c a w' e hclosed hfound hok hlast))]
      exact (hxy w.heap c e).again w a w' hok .refl hclosed hlast

end Repeats

/-- A value `v` that the first rendering of `root` meets on the heap `h`, and what the second one
meets in its place. -/
structure Met (last k : Heap) (root : Value) (h : Heap) (v v' : Value) : Prop where
  has : h.has v = true
  reached : last.Reaches root v
  same : k.resolve v' = last.resolve v

/-- No thunk that is evaluated between the two heaps turns out to be unit where it stands as the
payload of a variant inside another one. -/
def Tidy (h last : Heap) (root : Value) : Prop :=
  ∀ a b, last.Reaches root (.variant a) → last.resolve (last.variant a).payload = .variant b →
    (last.resolve (last.variant b).payload).isUnit = true → h.Evaluated (last.variant b).payload

/-- The payloads of the variants in `seen` are evaluated on the heap `h`. -/
def Opened (last h : Heap) (seen : List Address) : Prop :=
  ∀ c : Ref .variant, .node .variant c.index ∈ seen → h.Evaluated (last.variant c).payload

namespace Opened

variable {last h : Heap} {seen : List Address}

theorem nil : Opened last h [] := by
  simp [Opened]

/-- What is evaluated stays so. -/
theorem later {h' : Heap} (hseen : Opened last h seen) (e : h.Evolves h') : Opened last h' seen :=
  fun c hc => e.evaluated (hseen c hc)

/-- Around a payload there is one more variant. -/
theorem variant {c : Ref .variant} (hseen : Opened last h seen)
    (hc : h.Evaluated (last.variant c).payload) :
    Opened last h (.node .variant c.index :: seen) := by
  intro b hb
  rcases List.mem_cons.mp hb with heq | hb
  · obtain rfl : b = c := by
      cases b
      cases c
      cases heq
      rfl
    exact hc
  · exact hseen b hb

/-- A list that is opened is no variant. -/
theorem cell (hseen : Opened last h seen) (i : Nat) : Opened last h (.node .cell i :: seen) :=
  fun c hc => hseen c (by simpa using hc)

/-- A record that is opened is no variant. -/
theorem record (hseen : Opened last h seen) (i : Nat) : Opened last h (.node .record i :: seen) :=
  fun c hc => hseen c (by simpa using hc)

end Opened

section Again

variable {last : Heap} {u : World} {h start : Heap} {root v v' x : Value} {level : Nat}
  {ev : Evaluator}

namespace Met

/-- What is met remains to be met on later heaps. -/
theorem later {h' : Heap} (hv : Met last u.heap root h v v') (e : h.Evolves h') :
    Met last u.heap root h' v v' :=
  ⟨e.has hv.has, hv.reached, hv.same⟩

/-- The two renderings see the same element and go on with the same list. -/
theorem cell {c : Ref .cell} (hk : last.Reflects u.heap)
    (hc : Met last u.heap root h (.list (some c)) v') (hclosed : h.closed = true)
    (e : h.Evolves last) :
    Met last u.heap root h (h.cell c).head (u.heap.cell c).head ∧
      Met last u.heap root h (h.cell c).tail (u.heap.cell c).tail := by
  have hcell : last.cell c = h.cell c :=
    e.retains.cells.getD_eq (by simpa [Heap.has] using hc.has) _
  obtain ⟨hhead, htail⟩ := hk.cell c (e.has hc.has)
  rw [hcell] at hhead htail
  exact ⟨⟨Heap.has_part hclosed hc.has (.head c), hc.reached.tail (hcell ▸ .head c), hhead⟩,
    ⟨Heap.has_part hclosed hc.has (.tail c), hc.reached.tail (hcell ▸ .tail c), htail⟩⟩

/-- With a record its fields are met, in the same order. -/
theorem record {r : Ref .record} (hk : last.Reflects u.heap)
    (hr : Met last u.heap root h (.record r) v') (hclosed : h.closed = true)
    (e : h.Evolves last) :
    List.Forall₂ (fun x y => y.1 = x.1 ∧ Met last u.heap root h x.2 y.2) (h.record r).fields
      (u.heap.record r).fields := by
  have hrecord : last.record r = h.record r :=
    e.retains.records.getD_eq (by simpa [Heap.has] using hr.has) _
  have hfields := hk.record r (e.has hr.has)
  rw [hrecord] at hfields
  refine (List.forall₂_and_left _ _).mpr ⟨fun x hx => hx, hfields⟩ |>.imp ?_
  rintro x y ⟨hx, hname, hsame⟩
  exact ⟨hname, Heap.has_part hclosed hr.has (.field hx), hr.reached.tail (.field (hrecord ▸ hx)),
    hsame⟩

/-- With a variant its payload is met. -/
theorem variant {c : Ref .variant} (hk : last.Reflects u.heap)
    (hc : Met last u.heap root h (.variant c) v') (hclosed : h.closed = true)
    (e : h.Evolves last) :
    last.variant c = h.variant c ∧ (u.heap.variant c).tag = (h.variant c).tag ∧
      Met last u.heap root h (h.variant c).payload (u.heap.variant c).payload := by
  have hvariant : last.variant c = h.variant c :=
    e.retains.variants.getD_eq (by simpa [Heap.has] using hc.has) _
  obtain ⟨htag, hsame⟩ := hk.variant c (e.has hc.has)
  rw [hvariant] at htag hsame
  exact ⟨hvariant, htag, Heap.has_part hclosed hc.has (.payload c),
    hc.reached.tail (hvariant ▸ .payload c), hsame⟩

end Met

/-- Forcing gives the same value the second time, at once. -/
theorem Repeats.force (hread : ev.Reads u) (hv : Met last u.heap root h v v') :
    Repeats last u h (fun h' x x' => x' = x ∧ h'.Evaluated v ∧ x.isLazy = false ∧
      last.resolve v = x ∧ Met last u.heap root h' x x)
      ((forcesOf level).guarded.force v) (ev.force v') where
  evolves := guarded_evolves level v
  again w x w' hx e hclosed hlast := by
    obtain ⟨hclosed', -, hevaluated, hresolve⟩ := guarded_force hx (e.has hv.has)
    obtain ⟨hlater, hlazy⟩ := hevaluated.resolve_eq hlast
    rw [hresolve] at hlater hlazy
    have hsame : u.heap.resolve v' = x := by rw [hv.same, hlater]
    refine ⟨hclosed', x, Leads.eq_ok ?_, rfl, hevaluated, hlazy, hlater, ?_, ?_, ?_⟩
    · -- on `u` the value is only read
      refine hread v' (by rw [hsame, hlazy]) _ ?_
      exact ⟨by rw [hsame], rfl⟩
    · rw [← hresolve]
      have e' := (guarded_evolves level v w).of_ok hx trivial
      exact Heap.has_of_reaches hclosed' (e'.has (e.has hv.has)) (w'.heap.reaches_resolve v)
    · rw [← hlater]
      exact hv.reached.trans (last.reaches_resolve v)
    · rw [Heap.resolve_of_not_lazy hlazy, Heap.resolve_of_not_lazy hlazy]

/-- Whether a value needs parentheses is seen alike, if its payload comes to be evaluated and is not
unit, or was evaluated before. -/
theorem needsParentheses?_eq (hk : last.Reflects u.heap) (htidy : Tidy start last root)
    {a : Ref .variant} (ha : last.Reaches root (.variant a))
    (hx : last.resolve (last.variant a).payload = x) (hmet : Met last u.heap root h x x)
    (hstart : start.Evolves h) (hclosed : h.closed = true) (e : h.Evolves last)
    (hshown : ∀ b, x = .variant b → last.Evaluated (last.variant b).payload) {wrap : Bool}
    (hwrap : Render.needsParentheses? h x = some wrap) :
    Render.needsParentheses? u.heap x = some wrap := by
  cases x with
  | variant b =>
    obtain ⟨hvariant, -, hpayload⟩ := hmet.variant hk hclosed e
    obtain ⟨now, hnow, rfl⟩ := Option.map_eq_some_iff.mp hwrap
    obtain rfl := (Heap.resolve_of_resolve? hnow).1
    have hend : (last.resolve (h.variant b).payload).isLazy = false := by
      rw [← hvariant]
      exact ((hshown b rfl).resolve_eq .refl).2
    rw [← hpayload.same] at hend
    simp only [Render.needsParentheses?, Heap.hasPayload?, Heap.resolve?_of_evaluated hend,
      hpayload.same, Option.map_some]
    congr 2
    by_cases hevaluated : h.Evaluated (h.variant b).payload
    · rw [(hevaluated.resolve_eq e).1]
    · -- neither now nor at the end does the payload resolve to unit
      have hunit : (h.resolve (h.variant b).payload).isUnit = false := by
        by_contra hunit
        refine hevaluated (Heap.evaluated_of_resolve hclosed hpayload.has ?_)
        revert hunit
        cases h.resolve (h.variant b).payload <;> simp [Value.isUnit, Value.isLazy]
      have hlast : (last.resolve (h.variant b).payload).isUnit = false := by
        by_contra hunit
        have := htidy a b ha hx (by rw [hvariant]; simpa using hunit)
        rw [hvariant] at this
        exact hevaluated (hstart.evaluated this)
      rw [hunit, hlast]
  | _ => exact hwrap

/-- What is composed of forces that are sequences of moves is one. -/
theorem Parallel.evolves {wide : Prop} {ev ev' : Evaluator}
    (hev : ∀ v, (ev.force v).Preserves Evolves) {x y : Eval α}
    (hx : Parallel (.crashing wide) ev ev' x y) : x.Preserves Evolves :=
  Eval.keepsTo_ofHeaps.mp (hx.keepsTo (fun v => Eval.keepsTo_ofHeaps.mpr (hev v)) False.elim)

/-- What is composed of guarded forces is a sequence of moves. -/
theorem Parallel.evolves_guarded {wide : Prop} {x y : Eval α} {ev : Evaluator}
    (hx : Parallel (.crashing wide) (forcesOf level).guarded ev x y) : x.Preserves Evolves :=
  hx.evolves (guarded_evolves level)

/-- The walks of the first rendering are sequences of moves. -/
theorem renderAll_evolves (level : Nat) (format : Format) (fuel : Nat) :
    (∀ nested seen v,
      (Render.value (forcesOf level).guarded format fuel nested seen v).Preserves Evolves) ∧
    (∀ seen fields,
      (Render.fields (forcesOf level).guarded format fuel seen fields).Preserves Evolves) ∧
    ∀ shown seen first,
      (Render.items (forcesOf level).guarded format fuel shown seen first).Preserves Evolves := by
  have hall := @Parallel.renderAll (.crashing format.Wide) (forcesOf level).guarded
    (forcesOf level).guarded _ _ format id (Nat.le_refl _) fuel fuel (Nat.le_refl fuel)
  exact ⟨fun _ _ _ => (hall.1 _ _ _).evolves_guarded, fun _ _ => (hall.2.1 _ _).evolves_guarded,
    fun _ _ _ => (hall.2.2 _ _ _).evolves_guarded⟩

theorem next_evolves (level : Nat) (c : Ref .cell) :
    (Spine.next (forcesOf level).guarded c).Preserves Evolves :=
  (@Parallel.next .none (forcesOf level).guarded (forcesOf level).guarded c).evolves_guarded

/-- What the second rendering does with an amount of fuel, from each heap later than the first. -/
structure RepeatsWith (last : Heap) (u : World) (start : Heap) (root : Value) (level : Nat)
    (ev : Evaluator) (format : Format) (fuel fuel' : Nat) : Prop where
  value : ∀ h nested seen v v', start.Evolves h → Opened last h seen →
    Met last u.heap root h v v' →
    Repeats last u h (fun _ => Eq)
      (Render.value (forcesOf level).guarded format fuel nested seen v)
      (Render.value ev format fuel' nested seen v')
  fields : ∀ h seen fields fields', start.Evolves h → Opened last h seen →
    List.Forall₂ (fun x y => y.1 = x.1 ∧ Met last u.heap root h x.2 y.2) fields fields' →
    Repeats last u h (fun _ => Eq)
      (Render.fields (forcesOf level).guarded format fuel seen fields)
      (Render.fields ev format fuel' seen fields')
  items : ∀ h shown seen first, start.Evolves h → Opened last h seen →
    Met last u.heap root h (.list first) (.list first) →
    Repeats last u h (fun _ => Eq)
      (Render.items (forcesOf level).guarded format fuel shown seen first)
      (Render.items ev format fuel' shown seen first)

section Steps

variable {format : Format} {fuel fuel' : Nat} {seen : List Address}

/-- The fields are shown again, one by one. -/
theorem fields_again (ih : RepeatsWith last u start root level ev format fuel fuel')
    {fields fields' : List (String × Value)} (hstart : start.Evolves h)
    (hseen : Opened last h seen)
    (hfields : List.Forall₂ (fun x y => y.1 = x.1 ∧ Met last u.heap root h x.2 y.2) fields
      fields') :
    Repeats last u h (fun _ => Eq)
      (Render.fields (forcesOf level).guarded format (fuel + 1) seen fields)
      (Render.fields ev format (fuel' + 1) seen fields') := by
  cases hfields with
  | nil => exact .pure fun _ _ => rfl
  | @cons x y xs ys hxy hrest =>
    obtain ⟨name, v⟩ := x
    obtain ⟨name', v'⟩ := y
    obtain ⟨rfl, hv⟩ := hxy
    obtain ⟨hvalue, hfields, hitems⟩ := renderAll_evolves level format fuel
    rw [Render.fields, Render.fields]
    refine (ih.value h true seen v v' hstart hseen hv).bind
      (fun _ => .bind (hfields _ _) fun _ => .pure _)
      fun h₁ text text' e _ _ htext => ?_
    subst htext
    -- the fields behind are met on the heap that the first one leaves
    have hrest₁ := hrest.imp fun x y hxy => And.intro hxy.1 (hxy.2.later e)
    refine (ih.fields h₁ seen xs ys (hstart.trans e) (hseen.later e) hrest₁).bind (fun _ => .pure _)
      fun h₂ texts texts' _ _ _ htexts => .pure fun _ _ => ?_
    rw [htexts]

/-- Going on along a list is a sequence of moves, also where no list goes on. -/
theorem rest_evolves (y : Value) : (match y with
    | .list rest => Pure.pure rest
    | other => Eval.invalidUnary "Tail" other : Eval (Option (Ref .cell))).Preserves Evolves := by
  split
  · exact .pure _
  · exact .of_eq fun _ => rfl

/-- The spine goes on to the same cell. -/
theorem next_again (hread : ev.Reads u) (hk : last.Reflects u.heap) {c : Ref .cell}
    (hc : Met last u.heap root h (.list (some c)) (.list (some c))) :
    Repeats last u h (fun h' rest rest' => rest' = rest ∧
        Met last u.heap root h' (.list rest) (.list rest))
      (Spine.next (forcesOf level).guarded c) (Spine.next ev c) := by
  rw [Spine.next, Spine.next]
  refine .heap (fun _ => .bind (guarded_evolves level _) rest_evolves) fun h₁ e hclosed hlast => ?_
  have htail := ((hc.later e).cell hk hclosed hlast).2
  refine (Repeats.force hread htail).bind rest_evolves fun h₂ y y' _ _ _ hy => ?_
  obtain ⟨rfl, -, -, -, hmet⟩ := hy
  cases y' with
  | list rest => exact .pure fun h₃ e₃ => ⟨rfl, hmet.later e₃⟩
  | _ => exact .fail

/-- The elements are shown again, one by one. -/
theorem items_again (hread : ev.Reads u) (hk : last.Reflects u.heap)
    (ih : RepeatsWith last u start root level ev format fuel fuel') {shown : Nat}
    {first : Option (Ref .cell)} (hstart : start.Evolves h) (hseen : Opened last h seen)
    (hfirst : Met last u.heap root h (.list first) (.list first)) :
    Repeats last u h (fun _ => Eq)
      (Render.items (forcesOf level).guarded format (fuel + 1) shown seen first)
      (Render.items ev format (fuel' + 1) shown seen first) := by
  cases first with
  | none => exact .pure fun _ _ => rfl
  | some c =>
    obtain ⟨hvalue, hfields, hitems⟩ := renderAll_evolves level format fuel
    rw [Render.items, Render.items]
    -- the list is cut alike: by the number of elements and by the objects around it
    split
    · exact .pure fun _ _ => rfl
    · refine .heap (fun _ => .bind (hvalue _ _ _) fun _ => .bind (next_evolves level c) fun _ =>
        .bind (hitems _ _ _) fun _ => .pure _) fun h₁ e₁ hclosed₁ hlast₁ => ?_
      have hhead := ((hfirst.later e₁).cell hk hclosed₁ hlast₁).1
      have hseen₁ := (hseen.later e₁).cell c.index
      refine (ih.value h₁ true _ _ _ (hstart.trans e₁) hseen₁ hhead).bind (fun _ =>
        .bind (next_evolves level c) fun _ => .bind (hitems _ _ _) fun _ => .pure _)
        fun h₂ text text' e₂ _ _ htext => ?_
      subst htext
      refine (next_again hread hk ((hfirst.later e₁).later e₂)).bind
        (fun _ => .bind (hitems _ _ _) fun _ => .pure _) fun h₃ rest rest' e₃ _ _ hrest => ?_
      obtain ⟨rfl, hmet⟩ := hrest
      refine (ih.items h₃ (shown + 1) _ rest' (((hstart.trans e₁).trans e₂).trans e₃)
        (hseen₁.later (e₂.trans e₃)) hmet).bind (fun _ => .pure _)
        fun h₄ texts texts' _ _ _ htexts => .pure fun _ _ => ?_
      rw [htexts]

/-- A record is shown again, unless it is shown already further out. -/
theorem records_again (hk : last.Reflects u.heap)
    (ih : RepeatsWith last u start root level ev format fuel fuel') {r : Ref .record}
    (hstart : start.Evolves h) (hseen : Opened last h seen)
    (hr : Met last u.heap root h (.record r) (.record r)) :
    Repeats last u h (fun _ => Eq)
      (do
        let address := Address.node .record r.index
        if seen.contains address then return "..."
        let record := (← Eval.heap).record r
        return Text.braced (← Render.fields (forcesOf level).guarded format fuel (address :: seen)
          record.fields))
      (do
        let address := Address.node .record r.index
        if seen.contains address then return "..."
        let record := (← Eval.heap).record r
        return Text.braced (← Render.fields ev format fuel' (address :: seen) record.fields)) := by
  obtain ⟨-, hfields, -⟩ := renderAll_evolves level format fuel
  dsimp only
  split
  · exact .pure fun _ _ => rfl
  · refine .heap (fun _ => .bind (hfields _ _) fun _ => .pure _) fun h₁ e₁ hclosed₁ hlast₁ => ?_
    have hrecord := (hr.later e₁).record hk hclosed₁ hlast₁
    refine (ih.fields h₁ _ _ _ (hstart.trans e₁) ((hseen.later e₁).record _) hrecord).bind
      (fun _ => .pure _) fun h₂ texts texts' _ _ _ htexts => .pure fun _ _ => ?_
    rw [htexts]

/-- What follows the payload of a variant is a sequence of moves, whatever the payload is. -/
theorem payload_evolves (level : Nat) (format : Format) (fuel : Nat) (seen : List Address)
    (tag : String) (payload : Value) : (do
      if payload.isUnit then return tag
      let wrap ← Eval.find (Render.needsParentheses? · payload)
      let text ← Render.value (forcesOf level).guarded format fuel true seen payload
      return tag ++ " " ++ if wrap then "(" ++ text ++ ")" else text : Eval String).Preserves
        Evolves := by
  obtain ⟨hvalue, -, -⟩ := renderAll_evolves level format fuel
  split
  · exact .pure _
  · exact .bind .find fun _ => .bind (hvalue _ _ _) fun _ => .pure _

/-- The payload of a variant that has been rendered is evaluated, also if the variant stands inside
itself. -/
theorem evaluated_of_value {nested : Bool} {b : Ref .variant} {w w' : World} {text : String}
    (hvalue : Render.value (forcesOf level).guarded format fuel nested seen (.variant b) w =
      .ok text w')
    (hseen : Opened last w.heap seen) (hb : w.heap.has (.variant b) = true)
    (e : w'.heap.Evolves last) : w'.heap.Evaluated (last.variant b).payload := by
  have e' := ((renderAll_evolves level format fuel).1 nested seen (.variant b) w).of_ok hvalue
    trivial
  cases fuel with
  | zero => cases hvalue
  | succ fuel =>
    rw [Render.value] at hvalue
    obtain ⟨y, w₁, hforce, hvalue⟩ := of_bind_ok hvalue
    obtain ⟨hclosed, e₁, -, hy⟩ := guarded_force hforce hb
    obtain rfl : .variant b = y := by rw [← hy, Heap.resolve_of_not_lazy rfl]
    dsimp only at hvalue
    split at hvalue
    -- a variant that stands inside itself has been opened on the way
    · next hmem => exact e'.evaluated (hseen b (by simpa using hmem))
    · obtain ⟨h₁, w₂, hheap, hvalue⟩ := of_bind_ok hvalue
      cases hheap
      obtain ⟨payload, w₂, hforce, hvalue⟩ := of_bind_ok hvalue
      -- any other is opened now, and what follows evaluates only more
      have hpart := Heap.has_part hclosed (e₁.has hb) (.payload b)
      obtain ⟨-, e₂, hevaluated, -⟩ := guarded_force hforce hpart
      have e₃ := (payload_evolves level format fuel _ _ payload w₂).of_ok hvalue trivial
      have hlast : w₁.heap.Evolves last := (e₂.trans e₃).trans e
      have hsame : last.variant b = w₁.heap.variant b :=
        hlast.retains.variants.getD_eq (by simpa [Heap.has] using e₁.has hb) _
      rw [hsame]
      exact e₃.evaluated hevaluated

/-- A variant is shown again; that it is tidy decides about the parentheses. -/
theorem variants_again (hread : ev.Reads u) (hk : last.Reflects u.heap)
    (htidy : Tidy start last root)
    (ih : RepeatsWith last u start root level ev format fuel fuel') {c : Ref .variant}
    (hstart : start.Evolves h) (hseen : Opened last h seen)
    (hc : Met last u.heap root h (.variant c) (.variant c)) :
    Repeats last u h (fun _ => Eq)
      (do
        let address := Address.node .variant c.index
        if seen.contains address then return "..."
        let variant := (← Eval.heap).variant c
        let payload ← (forcesOf level).guarded.force variant.payload
        if payload.isUnit then return variant.tag.text
        let wrap ← Eval.find (Render.needsParentheses? · payload)
        let text ← Render.value (forcesOf level).guarded format fuel true (address :: seen) payload
        return variant.tag.text ++ " " ++ if wrap then "(" ++ text ++ ")" else text)
      (do
        let address := Address.node .variant c.index
        if seen.contains address then return "..."
        let variant := (← Eval.heap).variant c
        let payload ← ev.force variant.payload
        if payload.isUnit then return variant.tag.text
        let wrap ← Eval.find (Render.needsParentheses? · payload)
        let text ← Render.value ev format fuel' true (address :: seen) payload
        return variant.tag.text ++ " " ++ if wrap then "(" ++ text ++ ")" else text) := by
  obtain ⟨hvalue, -, -⟩ := renderAll_evolves level format fuel
  have hrest := payload_evolves level format fuel (.node .variant c.index :: seen)
  dsimp only
  split
  · exact .pure fun _ _ => rfl
  · refine .heap (fun _ => .bind (guarded_evolves level _) fun _ => hrest _ _)
      fun h₁ e₁ hclosed₁ hlast₁ => ?_
    obtain ⟨hvariant, htag, hpayload⟩ := (hc.later e₁).variant hk hclosed₁ hlast₁
    refine (Repeats.force hread hpayload).bind (fun _ => hrest _ _)
      fun h₂ payload payload' e₂ _ _ hforced => ?_
    obtain ⟨rfl, hevaluated, -, hresolve, hmet⟩ := hforced
    rw [← hvariant] at hevaluated
    have hstart₂ := (hstart.trans e₁).trans e₂
    have hseen₂ := (hseen.later (e₁.trans e₂)).variant hevaluated
    rw [htag]
    split
    · exact .pure fun _ _ => rfl
    · -- parentheses are decided on the heap at hand, the one thing that tidiness is for
      refine .find (fun _ => .bind (hvalue _ _ _) fun _ => .pure _) ?_ fun h₃ wrap e₃ => ?_
      · intro w wrap _ w' e₃ hclosed₃ hwrap hok hlast₃
        obtain ⟨text, w₁, hvalue₃, hpure⟩ := of_bind_ok hok
        cases hpure
        have e₄ := (hvalue _ _ _ w).of_ok hvalue₃ trivial
        refine needsParentheses?_eq hk htidy hc.reached (by rw [hvariant, hresolve])
          (hmet.later e₃) (hstart₂.trans e₃) hclosed₃ (e₄.trans hlast₃) (fun b hb => ?_) hwrap
        subst hb
        exact hlast₃.evaluated
          (evaluated_of_value hvalue₃ (hseen₂.later e₃) (hmet.later e₃).has hlast₃)
      · refine (ih.value h₃ true _ _ _ (hstart₂.trans e₃) (hseen₂.later e₃) (hmet.later e₃)).bind
          (fun _ => .pure _) fun h₄ text text' _ _ _ htext => .pure fun _ _ => ?_
        rw [htext]

/-- Showing a number adds nothing to the heap. -/
theorem float_evolves (format : Format) (v : Value) (shortest : String) (number : Decimal.Number) :
    (Render.floatValue format v shortest number).Preserves Evolves := by
  unfold Render.floatValue
  split
  · split
    · exact .throw _
    · exact .pure _
  · exact .of_eq fun _ => rfl

/-- A number has one text. -/
theorem floatValue_again (format : Format) (x : Value) (shortest : String)
    (number : Decimal.Number) :
    Repeats last u h (fun _ => Eq) (Render.floatValue format x shortest number)
      (Render.floatValue format x shortest number) := by
  unfold Render.floatValue
  split
  · split
    · exact .throw _
    · exact .pure fun _ _ => rfl
  · exact .fail

/-- A value that is met is shown again. -/
theorem value_again (hread : ev.Reads u) (hk : last.Reflects u.heap) (htidy : Tidy start last root)
    (ih : RepeatsWith last u start root level ev format fuel fuel') {nested : Bool}
    (hstart : start.Evolves h) (hseen : Opened last h seen) (hv : Met last u.heap root h v v') :
    Repeats last u h (fun _ => Eq)
      (Render.value (forcesOf level).guarded format (fuel + 1) nested seen v)
      (Render.value ev format (fuel' + 1) nested seen v') := by
  obtain ⟨hvalue, hfields, hitems⟩ := renderAll_evolves level format fuel
  rw [Render.value, Render.value]
  refine (Repeats.force hread hv).bind (fun y => ?_) fun h₁ y y' e₁ _ _ hy => ?_
  · -- whatever the value is, what follows is a sequence of moves
    cases y with
    | single x => exact float_evolves _ _ _ _
    | double x => exact float_evolves _ _ _ _
    | list first => exact .bind (hitems _ _ _) fun _ => .pure _
    | record r =>
      dsimp only
      split
      · exact .pure _
      · exact .bind .heap fun _ => .bind (hfields _ _) fun _ => .pure _
    | variant c =>
      dsimp only
      split
      · exact .pure _
      · refine .bind .heap fun _ => .bind (guarded_evolves level _) fun payload => ?_
        split
        · exact .pure _
        · exact .bind .find fun _ => .bind (hvalue _ _ _) fun _ => .pure _
    | function f => exact .bind .heap fun _ => .pure _
    | module m => exact .bind .heap fun _ => .pure _
    | _ => exact .pure _
  · -- the value is the same, so the same is done with it
    obtain ⟨rfl, -, hlazy, -, hmet⟩ := hy
    have hstart₁ := hstart.trans e₁
    have hseen₁ := hseen.later e₁
    cases y' with
    | single x => exact floatValue_again _ _ _ _
    | double x => exact floatValue_again _ _ _ _
    | list first =>
      refine (ih.items h₁ 0 seen first hstart₁ hseen₁ hmet).bind (fun _ => .pure _)
        fun h₂ texts texts' _ _ _ htexts => .pure fun _ _ => ?_
      rw [htexts]
    | record r => exact records_again hk ih hstart₁ hseen₁ hmet
    | variant c => exact variants_again hread hk htidy ih hstart₁ hseen₁ hmet
    | lazy t => cases hlazy
    | function f =>
      refine .heap (fun _ => .pure _) fun h₂ e₂ _ hlast₂ => .pure fun _ _ => ?_
      have hsame : last.function f = h₂.function f :=
        hlast₂.retains.functions.getD_eq (by simpa [Heap.has] using (hmet.later e₂).has) _
      rw [hk.function, hsame]
    | module m =>
      refine .heap (fun _ => .pure _) fun h₂ e₂ _ hlast₂ => .pure fun _ _ => ?_
      have hsame : last.module m = h₂.module m :=
        hlast₂.retains.modules.getD_eq (by simpa [Heap.has] using (hmet.later e₂).has) _
      rw [hk.module, hsame]
    | _ => exact .pure fun _ _ => rfl

/-- The second rendering repeats the first with at least its fuel. -/
theorem repeatsWith (hread : ev.Reads u) (hk : last.Reflects u.heap) (htidy : Tidy start last root)
    (level : Nat) (format : Format) (fuel : Nat) {fuel' : Nat} (hle : fuel ≤ fuel') :
    RepeatsWith last u start root level ev format fuel fuel' := by
  induction fuel generalizing fuel' with
  | zero =>
    exact ⟨fun _ _ _ _ _ _ _ _ => .throw _, fun _ _ _ _ _ _ _ => .throw _,
      fun _ _ _ _ _ _ _ => .throw _⟩
  | succ fuel ih =>
    obtain ⟨k, rfl⟩ := Nat.exists_eq_add_of_lt hle
    have ih := ih (Nat.le_add_right fuel k)
    exact ⟨fun _ _ _ _ _ hstart hseen hv => value_again hread hk htidy ih hstart hseen hv,
      fun _ _ _ _ hstart hseen hfields => fields_again ih hstart hseen hfields,
      fun _ _ _ _ hstart hseen hfirst => items_again hread hk ih hstart hseen hfirst⟩

end Steps

end Again

/-- What has been rendered has the same text on a heap that reflects the one after it. -/
theorem render_again {level fuel : Nat} {format : Format} {w w' u : World} {v v' : Value}
    {text : String} (hclosed : w.heap.closed = true) (hv : w.heap.has v = true)
    (hrender : render (forcesOf level).guarded format v w = .ok text w')
    (htidy : Tidy w.heap w'.heap v) (hk : w'.heap.Reflects u.heap)
    (hv' : u.heap.resolve v' = w'.heap.resolve v) (hlive : u.context.interrupt? = none)
    (E : Engine) (hlevel : level ≤ fuel) (hfuel : u.heap.thunks.size + 1 < fuel) :
    render ⟨fuel, force E fuel, E⟩ format v' u = .ok text u := by
  obtain ⟨_, w₁, hensure, hvalue⟩ := of_bind_ok hrender
  obtain rfl : w₁ = w := (leads_ensureLive w).of_ok hensure
  have hread := force_reads E hlive fuel hfuel
  have hmet : Met w'.heap u.heap v w₁.heap v v' := ⟨hv, .refl, hv'⟩
  have hrepeats := (repeatsWith hread hk htidy level format level hlevel).value w₁.heap false [] v
    v' .refl .nil hmet
  obtain ⟨-, text', htext', rfl⟩ := hrepeats.again w₁ text w' hvalue .refl hclosed .refl
  exact (bind_ok (Eval.ensureLive_ok hlive)).trans htext'

/-- Rendering again gives the same text. Let a value be rendered on a heap without references to
objects that have not been made, and let none come up on the way. If no thunk that is evaluated
meanwhile turns out to be unit where it stands inside two variants, then rendering the value again,
on the heap as it is now and in any live context, gives the same text and changes nothing else; and
so does rendering the value in which all thunks that have been evaluated are replaced by their
values. -/
theorem render_repeats {level : Nat} {format : Format} {w w' : World} {v : Value} {text : String}
    (hclosed : w.heap.closed = true) (hv : w.heap.has v = true)
    (hrender : render (forcesOf level).guarded format v w = .ok text w')
    (htidy : Tidy w.heap w'.heap v) :
    engine (level + 1) (.render v format) w = Eval.makeStr text w' ∧
      ∃ enough, ∀ level', enough ≤ level' → ∀ u : World, u.context.interrupt? = none →
        (u.heap = w'.heap →
          engine level' (.render v format) u = Eval.makeStr text u) ∧
        (u.heap = w'.heap.inlined →
          engine level' (.render (w'.heap.inline v) format) u = Eval.makeStr text u) := by
  -- the guard only adds a way to stop: as it has not, the engine renders the same
  have hunguarded : Parallel (.crashing format.Wide) (forcesOf level).guarded (forcesOf level)
      (render (forcesOf level).guarded format v) (render (forcesOf level) format v) :=
    .render id (Nat.le_refl level) v
  refine ⟨bind_ok (hunguarded.ok_of_guarded hrender),
    level + w'.heap.thunks.size + 3, fun level' hlevel u hlive => ?_⟩
  obtain ⟨fuel, rfl⟩ : ∃ fuel, level' = fuel + 1 := ⟨level' - 1, by omega⟩
  constructor
  · intro hu
    refine bind_ok (render_again hclosed hv hrender htidy ?_ ?_ hlive (engine fuel) ?_ ?_)
    · rw [hu]
      exact .refl _
    · rw [hu]
    · omega
    · rw [hu]
      omega
  · intro hu
    refine bind_ok (render_again hclosed hv hrender htidy ?_ ?_ hlive (engine fuel) ?_ ?_)
    · rw [hu]
      exact w'.heap.reflects_inlined
    · rw [hu, Heap.resolve_inline]
    · omega
    · rw [hu]
      have hsize : w'.heap.inlined.thunks.size = w'.heap.thunks.size := rfl
      omega

/-- A variant inside a variant, with a thunk of the host as its payload. -/
def World.wrapping (payload : Value) : World where
  heap :=
    { variants := #[⟨⟨0, "A"⟩, .variant ⟨1⟩⟩, ⟨⟨1, "B"⟩, .lazy ⟨0⟩⟩]
      thunks := #[.waiting (.native (.done payload))] }

/-- A payload that turns out to be a boolean is shown alike, before and after it is evaluated. -/
theorem render_repeats_wrapping :
    ∃ w', w'.heap.memo? ⟨0⟩ = some (.bool true) ∧
      engine 7 (.render (.variant ⟨0⟩) {}) (World.wrapping (.bool true)) =
        Eval.makeStr "A (B true)" w' ∧
      ∃ enough, engine enough (.render (.variant ⟨0⟩) {}) w' = Eval.makeStr "A (B true)" w' := by
  let evaluated : World :=
    { World.wrapping (.bool true) with
      heap := { (World.wrapping (.bool true)).heap with thunks := #[.forced (.bool true)] } }
  have hrender : render (forcesOf 6).guarded {} (.variant ⟨0⟩) (World.wrapping (.bool true)) =
      .ok "A (B true)" evaluated := rfl
  have htidy : Tidy (World.wrapping (.bool true)).heap evaluated.heap (.variant ⟨0⟩) := by
    -- of the two payloads one is a variant and the other is true
    intro a b _ hpayload hunit
    have hpayloads (c : Ref .variant) : evaluated.heap.resolve (evaluated.heap.variant c).payload =
        match c.index with
        | 0 => .variant ⟨1⟩
        | 1 => .bool true
        | _ => .unit := by
      obtain ⟨i⟩ := c
      match i with
      | 0 => rfl
      | 1 => rfl
      | _ + 2 => rfl
    rw [hpayloads] at hpayload hunit
    split at hpayload
    · cases hpayload
      cases hunit
    · cases hpayload
    · cases hpayload
  obtain ⟨hfirst, enough, hagain⟩ := render_repeats rfl rfl hrender htidy
  exact ⟨evaluated, rfl, hfirst, enough, (hagain enough (Nat.le_refl _) evaluated rfl).1 rfl⟩

/-- A payload that turns out to be unit is shown with parentheses around its variant the first time
and without them from then on. -/
theorem render_changes :
    ∃ first second w₁ w₂,
      engine 7 (.render (.variant ⟨0⟩) {}) (World.wrapping .unit) =
        .ok (.str ⟨first, "A (B)"⟩) w₁ ∧
      engine 7 (.render (.variant ⟨0⟩) {}) w₁ = .ok (.str ⟨second, "A B"⟩) w₂ :=
  ⟨_, _, _, _, rfl, rfl⟩

end LazyMachine
