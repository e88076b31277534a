import LazyMachine.Proofs.Anonymity
import LazyMachine.Proofs.Level
import LazyMachine.Proofs.Repetition
import LazyMachine.Proofs.ShortCircuit

/-!
# Spines of lists

`Spine.Walks ev w first xs w' rest` says that the tails of the first cells of a list evaluate one
after the other: the walk starts in the world `w`, passes the heads `xs`, and comes to the list
`rest` in the world `w'`. Nothing but those tails is evaluated. `Spine.Yields` is a walk to the end.

A walk can be taken again, and nothing is evaluated then (`Walks.again`); in a world that differs in
places only, a walk can be taken as well (`Walks.mirrors`). Together they tell what a list yields
when cells have been made after a part of it was walked (`Yields.resumed`).

The walks of `Spine` along data are read off such a walk, and what they make is a `Heap.Chain`:
cells of which each has the next one as its tail.
-/

namespace LazyMachine

variable {α β : Type}

/-! ### Heaps that remember -/

/-- The objects of `h` are in `k` as they are, and the thunks that have a value in `h` have it in
`k`. -/
structure Heap.Remembers (h k : Heap) : Prop extends h.Retains k where
  memo {i : Nat} {v : Value} : h.memoAt? i = some v → k.memoAt? i = some v

section Remembers

variable {h k l : Heap}

theorem Heap.Remembers.refl (h : Heap) : h.Remembers h :=
  { Heap.Retains.refl h with memo := id }

theorem Heap.Remembers.trans (hk : h.Remembers k) (hl : k.Remembers l) : h.Remembers l where
  toRetains := hk.toRetains.trans hl.toRetains
  memo hi := hl.memo (hk.memo hi)

/-- A heap that evolves remembers its past. -/
theorem Heap.Evolves.remembers (e : h.Evolves k) : h.Remembers k where
  toRetains := e.retains
  memo hi := e.memoAt? hi

theorem Heap.Pads.remembers (hk : h.Pads k) : h.Remembers k where
  toRetains := hk.toRetains
  memo hi := by rwa [Heap.memoAt?, hk.thunks]

end Remembers

/-! ### Forcing again -/

section Again

variable {level fuel : Nat} {w w' u : World} {v x : Value}

/-- Forcing a value again, whatever has been evaluated since, gives what the first force gave. Only
a reference to a thunk that was never made, which is taken for unit, may come to mean another. -/
theorem forceFrom_again (hforce : forceFrom (engine level) fuel v w = .ok x w') (hx : x ≠ .unit)
    (hu : w'.heap.Remembers u.heap) : forceFrom (engine level) fuel v u = .ok x u := by
  induction fuel generalizing v w with
  | zero => cases hforce
  | succ fuel ih =>
    cases v with
    | lazy t =>
      obtain ⟨y, w₁, hthunk, hrest⟩ := of_bind_ok hforce
      -- the first force has left a link, which is still there
      rcases passed_of_forceFrom hthunk hrest with hmemo | ⟨-, -, hunit⟩
      · rw [forceFrom_lazy _ _ (u.heap.memo?_of_memoAt? t (hu.memo hmemo))]
        exact ih hrest
      · exact absurd hunit hx
    | _ =>
      cases hforce
      rfl

/-- A force that has given a value gives it again, without a change. -/
theorem force_again (hforce : (evaluator level).force v w = .ok x w') (hx : x ≠ .unit)
    (hu : w'.heap.Remembers u.heap) (hlive : u.context.interrupt? = none) :
    (evaluator level).force v u = .ok x u := by
  cases level with
  | zero => cases hforce
  | succ n =>
    obtain ⟨_, w₁, hensured, hfrom⟩ := of_bind_ok hforce
    exact (bind_ok (Eval.ensureLive_ok hlive)).trans (forceFrom_again hfrom hx hu)

/-- What is not lazy is left as it is. -/
theorem evaluator_force (hlevel : 1 < level) (hlive : w.context.interrupt? = none)
    (hv : v.isLazy = false) : (evaluator level).force v w = .ok v w := by
  obtain ⟨n, rfl⟩ := Nat.exists_eq_add_of_lt hlevel
  refine (bind_ok (Eval.ensureLive_ok hlive)).trans ?_
  rw [Nat.add_comm 1 n]
  exact congrFun (forceFrom_of_not_lazy _ _ hv) w

/-- Whoever has forced a value was live. -/
theorem live_of_force (hforce : (evaluator level).force v w = .ok x w') :
    w.context.interrupt? = none := by
  cases level with
  | zero => cases hforce
  | succ n =>
    cases hlive : w.context.interrupt? with
    | none => rfl
    | some i =>
      have hstop : (evaluator (n + 1)).force v w = .error i w := force_interrupted hlive _
      rw [hstop] at hforce
      cases hforce

end Again

/-! ### Values of alike evaluations -/

namespace Mirrors

variable {V : Renaming → α → β → Prop} {ρ : Renaming} {w w' u : World}

/-- What yields a value on one world does so on one that is alike. -/
theorem of_ok {x : Eval α} {y : Eval β} (hxy : Mirrors V ρ x y) (hw : w.Alike ρ u) {a : α}
    (hx : x w = .ok a w') :
    ∃ σ b u', ρ ≤ σ ∧ y u = .ok b u' ∧ V σ a b ∧ w'.Alike σ u' := by
  have houtcomes := hxy w u hw
  rw [hx] at houtcomes
  generalize y u = r at houtcomes ⊢
  cases houtcomes with
  | ok hρσ hv hw' => exact ⟨_, _, _, hρσ, rfl, hv, hw'⟩

/-- What an evaluation yields on a world that is alike itself is alike itself. -/
theorem self {V : Renaming → α → α → Prop} {x : Eval α} (hxx : Mirrors V ρ x x)
    (hw : w.Alike ρ w) {a : α} (hx : x w = .ok a w') :
    ∃ σ, ρ ≤ σ ∧ V σ a a ∧ w'.Alike σ w' := by
  obtain ⟨σ, b, u', hρσ, hb, hv, hw'⟩ := hxx.of_ok hw hx
  rw [hx] at hb
  cases hb
  exact ⟨σ, hρσ, hv, hw'⟩

end Mirrors

namespace Spine

variable {ev : Evaluator} {level : Nat} {w w₁ w' u : World} {c : Ref .cell}
  {first mid rest : Option (Ref .cell)} {xs ys : List Value} {ρ : Renaming}

/-! ### Walks -/

/-- The tails of the first cells of a list evaluate one after the other, from the world `w` and the
list `first`, past the heads `xs`, to the world `w'` and the list `rest`. -/
inductive Walks (ev : Evaluator) :
    World → Option (Ref .cell) → List Value → World → Option (Ref .cell) → Prop
  | refl (w : World) (first : Option (Ref .cell)) : Walks ev w first [] w first
  | step {w w₁ w' : World} {c : Ref .cell} {x : Value} {mid rest : Option (Ref .cell)}
      {xs : List Value} (hx : (w.heap.cell c).head = x) (hnext : next ev c w = .ok mid w₁)
      (hrest : Walks ev w₁ mid xs w' rest) : Walks ev w (some c) (x :: xs) w' rest

/-- The spine of a list evaluates to its end without failure, and the heads are `xs`. -/
structure Yields (ev : Evaluator) (w : World) (first : Option (Ref .cell)) (xs : List Value)
    (w' : World) : Prop where
  walks : Walks ev w first xs w' none
  live : w'.context.interrupt? = none

/-- The rest of a cell is what its tail is forced to. -/
theorem next_ok (hforce : ev.force (w.heap.cell c).tail w = .ok (.list rest) w') :
    next ev c w = .ok rest w' :=
  bind_ok hforce

/-- And only that. -/
theorem of_next_ok (hnext : next ev c w = .ok rest w') :
    ev.force (w.heap.cell c).tail w = .ok (.list rest) w' := by
  have hnext : (ev.force (w.heap.cell c).tail >>= _) w = .ok rest w' := hnext
  obtain ⟨v, w₁, hforce, hrest⟩ := of_bind_ok hnext
  cases v with
  | list r =>
    cases hrest
    exact hforce
  | _ => cases hrest

namespace Walks

theorem trans (h : Walks ev w first xs w₁ mid) (h' : Walks ev w₁ mid ys w' rest) :
    Walks ev w first (xs ++ ys) w' rest := by
  induction h with
  | refl => exact h'
  | step hx hnext _ ih => exact .step hx hnext (ih h')

/-- A walk passes every position before its end. -/
theorem split (h : Walks ev w first xs w' rest) (i : Nat) (hi : i ≤ xs.length) :
    ∃ w₁ mid, Walks ev w first (xs.take i) w₁ mid ∧ Walks ev w₁ mid (xs.drop i) w' rest := by
  induction h generalizing i with
  | refl w first =>
    obtain rfl := Nat.le_zero.mp hi
    exact ⟨w, first, .refl _ _, .refl _ _⟩
  | step hx hnext hrest ih =>
    cases i with
    | zero => exact ⟨_, _, .refl _ _, .step hx hnext hrest⟩
    | succ i =>
      obtain ⟨w₁, mid, hbefore, hafter⟩ := ih i (Nat.le_of_succ_le_succ hi)
      exact ⟨w₁, mid, .step hx hnext hbefore, hafter⟩

/-- A walk to the end passes every element. -/
theorem at_position (h : Walks ev w first xs w' none) {i : Nat} (hi : i < xs.length) :
    ∃ w₁ c, Walks ev w first (xs.take i) w₁ (some c) ∧ (w₁.heap.cell c).head = xs[i] ∧
      Walks ev w₁ (some c) (xs.drop i) w' none := by
  obtain ⟨w₁, mid, hbefore, hafter⟩ := h.split i hi.le
  have hdrop := List.drop_eq_getElem_cons hi
  rw [hdrop] at hafter ⊢
  cases hafter with
  | step hx hnext hrest => exact ⟨w₁, _, hbefore, hx, .step hx hnext hrest⟩

theorem congr {ev' : Evaluator} (h : Walks ev w first xs w' rest)
    (hforce : ∀ v, ev.force v = ev'.force v) : Walks ev' w first xs w' rest := by
  induction h with
  | refl w first => exact .refl w first
  | step hx hnext _ ih => exact .step hx (next_ok (hforce _ ▸ of_next_ok hnext)) ih

theorem mono {level' : Nat} (h : Walks (evaluator level) w first xs w' rest)
    (hle : level ≤ level') : Walks (evaluator level') w first xs w' rest := by
  induction h with
  | refl w first => exact .refl w first
  | step hx hnext _ ih =>
    exact .step hx (next_ok ((engine_approximates hle _).eq_ok (of_next_ok hnext))) ih

/-- A walk that ends live has been live from its start. -/
theorem live (h : Walks (evaluator level) w first xs w' rest)
    (hlive : w'.context.interrupt? = none) : w.context.interrupt? = none := by
  cases h with
  | refl => exact hlive
  | step hx hnext _ => exact live_of_force (of_next_ok hnext)

/-- Along a walk the heap remembers. -/
theorem remembers (h : Walks (evaluator level) w first xs w' rest) :
    w.heap.Remembers w'.heap := by
  induction h with
  | refl => exact .refl _
  | step hx hnext _ ih =>
    have hevolves := (engine_evolves level (.force _) _).of_ok (of_next_ok hnext) trivial
    exact hevolves.remembers.trans ih

/-- A walk can be taken in a world that differs in places only. -/
theorem mirrors (hev : ev.Impartial) (h : Walks ev w first xs w' rest)
    {first' : Option (Ref .cell)} (hw : w.Alike ρ u) (hfirst : ρ.Lists first first') :
    ∃ σ zs u' rest', ρ ≤ σ ∧ Walks ev u first' zs u' rest' ∧ Values σ xs zs ∧ w'.Alike σ u' ∧
      σ.Lists rest rest' := by
  induction h generalizing ρ u first' with
  | refl w first => exact ⟨ρ, [], u, first', le_rfl, .refl _ _, .nil, hw, hfirst⟩
  | step hx hnext _ ih =>
    cases hfirst with
    | some hc =>
      have hhead := (hw.heap.cell hc).head
      obtain ⟨σ, mid', u₁, hρσ, hnext', hmid, hw₁⟩ := (next_mirrors hev hc).of_ok hw hnext
      obtain ⟨τ, zs, u', rest', hστ, hwalks, hzs, hw', hrest⟩ := ih hw₁ hmid
      refine ⟨τ, _, u', rest', hρσ.trans hστ, .step rfl hnext' hwalks, .cons ?_ hzs, hw', hrest⟩
      exact hx ▸ hhead.mono (hρσ.trans hστ)

/-- What a walk comes to in a world that is alike itself is alike itself. -/
theorem self (hev : ev.Impartial) (h : Walks ev w first xs w' rest) (hw : w.Alike ρ w)
    (hfirst : ρ.Lists first first) :
    ∃ σ, ρ ≤ σ ∧ Values σ xs xs ∧ w'.Alike σ w' ∧ σ.Lists rest rest := by
  induction h generalizing ρ with
  | refl => exact ⟨ρ, le_rfl, .nil, hw, hfirst⟩
  | step hx hnext _ ih =>
    cases hfirst with
    | some hc =>
      have hhead := (hw.heap.cell hc).head
      obtain ⟨σ, hρσ, hmid, hw₁⟩ := (next_mirrors hev hc).self hw hnext
      obtain ⟨τ, hστ, hxs, hw', hrest⟩ := ih hw₁ hmid
      exact ⟨τ, hρσ.trans hστ, .cons (hx ▸ hhead.mono (hρσ.trans hστ)) hxs, hw', hrest⟩

/-- What a walk comes to is on the heap. -/
theorem cell_lt (hev : ev.Impartial) (h : Walks ev w first xs w' (some c)) (hw : w.Alike ρ w)
    (hfirst : ρ.Lists first first) : c.index < w'.heap.cells.size := by
  obtain ⟨σ, -, -, hw', hrest⟩ := h.self hev hw hfirst
  cases hrest with
  | some hc => exact (hw'.heap.cell_lt hc).1

/-- A walk can be taken again in every later world, and nothing is evaluated then. -/
theorem again (h : Walks (evaluator level) w first xs w' rest) (hw : w.Alike ρ w)
    (hfirst : ρ.Lists first first) (hu : w'.heap.Remembers u.heap)
    (hlive : u.context.interrupt? = none) : Walks (evaluator level) u first xs u rest := by
  induction h generalizing ρ with
  | refl w first => exact .refl u first
  | @step w w₁ w' c x mid rest xs hx hnext hrest ih =>
    cases hfirst with
    | some hc =>
      -- the cell is as it was, and its tail forces to what the first walk has left
      have hremembers := ((Walks.step hx hnext hrest).remembers).trans hu
      have hcell := hremembers.cell_eq (hw.heap.cell_lt hc).1
      obtain ⟨σ, -, hmid, hw₁⟩ := (next_mirrors (evaluator_mirrors level) hc).self hw hnext
      refine .step (hcell ▸ hx) (next_ok ?_) (ih hw₁ hmid hu)
      rw [hcell]
      exact force_again (of_next_ok hnext) (by simp) (hrest.remembers.trans hu) hlive

end Walks

/-- Cells made before make no difference to what a list yields, but in places. -/
theorem Yields.padded (h : Yields (evaluator level) w first xs w') (hw : w.Alike ρ w)
    (hfirst : ρ.Lists first first) {k : Heap} (hk : w.heap.Pads k) :
    ∃ σ zs u, ρ ≤ σ ∧ Values σ xs zs ∧ w'.Alike σ u ∧
      Yields (evaluator level) (w.withHeap k) first zs u := by
  have hle := ρ.le_padded w.heap w.heap w.heap k
  have hpadded := hw.withHeap hle (hw.heap.pad (.refl _) hk)
  -- the walk without the cells is followed by one beside them
  obtain ⟨σ, zs, u, rest', hρσ, hwalks, hzs, hu, hrest⟩ :=
    h.walks.mirrors (evaluator_mirrors level) hpadded (hfirst.mono hle)
  cases hrest
  exact ⟨σ, zs, u, hle.trans hρσ, hzs, hu, hwalks, by rw [← hu.context, h.live]⟩

/-- Cells may be made after a part of a list has been walked. The list yields what it would have
yielded, but in places: the heads before as they were, and those after alike. -/
theorem Yields.resumed (hbefore : Walks (evaluator level) w first xs w₁ mid)
    (hafter : Yields (evaluator level) w₁ mid ys w') (hw : w.Alike ρ w)
    (hfirst : ρ.Lists first first) {k : Heap} (hk : w₁.heap.Pads k) :
    ∃ σ zs u, ρ ≤ σ ∧ Values σ (xs ++ ys) (xs ++ zs) ∧ w'.Alike σ u ∧
      Yields (evaluator level) (w₁.withHeap k) mid zs u ∧
      Yields (evaluator level) (w₁.withHeap k) first (xs ++ zs) u := by
  obtain ⟨σ, hρσ, hxs, hw₁, hmid⟩ := hbefore.self (evaluator_mirrors level) hw hfirst
  obtain ⟨τ, zs, u, hστ, hzs, hu, hyields⟩ := hafter.padded hw₁ hmid hk
  have hagain := hbefore.again (u := w₁.withHeap k) hw hfirst hk.remembers
    (hafter.walks.live hafter.live)
  exact ⟨τ, zs, u, hρσ.trans hστ, List.rel_append (Values.mono hστ hxs) hzs, hu, hyields,
    hagain.trans hyields.walks, hyields.live⟩

namespace Walks

/-! ### What is read on a walk -/

/-- Gathering elements goes along the walk. -/
theorem collectFrom_eq (h : Walks ev w first xs w' rest) (fuel : Nat) (gathered : List Value) :
    collectFrom ev (fuel + xs.length) first gathered w =
      collectFrom ev fuel rest (xs.reverse ++ gathered) w' := by
  induction h generalizing gathered with
  | refl => rfl
  | step hx hnext _ ih =>
    rw [List.reverse_cons, List.append_assoc]
    refine Eq.trans ?_ (ih _)
    exact hx ▸ bind_ok hnext

/-- So does counting them. -/
theorem lengthFrom_eq (h : Walks ev w first xs w' rest) (fuel counted : Nat) :
    lengthFrom ev (fuel + xs.length) first counted w =
      lengthFrom ev fuel rest (counted + xs.length) w' := by
  induction h generalizing counted with
  | refl => rfl
  | step hx hnext _ ih =>
    rw [List.length_cons, Nat.add_comm _ 1, ← Nat.add_assoc counted, ← ih, Nat.add_comm 1,
      ← Nat.add_assoc]
    exact bind_ok hnext

/-- The elements of a list that is walked to its end are gathered. -/
theorem collect_ok (h : Walks ev w first xs w' none) (hfuel : xs.length < ev.fuel) :
    collect ev first w = .ok xs w' := by
  obtain ⟨d, hd⟩ := Nat.exists_eq_add_of_lt hfuel
  rw [collect, hd, Nat.add_assoc, Nat.add_comm, h.collectFrom_eq]
  simp only [collectFrom, List.append_nil, List.reverse_reverse]
  rfl

theorem length_ok (h : Walks ev w first xs w' none) (hfuel : xs.length < ev.fuel) :
    length ev first w = .ok xs.length w' := by
  obtain ⟨d, hd⟩ := Nat.exists_eq_add_of_lt hfuel
  rw [length, hd, Nat.add_assoc, Nat.add_comm, h.lengthFrom_eq, Nat.zero_add]
  rfl

/-- An element behind the walk is found from where the walk ends. -/
theorem nth_eq (h : Walks ev w first xs w' rest) (i : Nat) :
    nth ev (i + xs.length) first w = nth ev i rest w' := by
  induction h with
  | refl => rfl
  | step hx hnext _ ih => exact (bind_ok hnext).trans ih

/-- Beyond the end there is nothing to replace. -/
theorem setNth_none (h : Walks ev w first xs w' none) (item : Value) (i : Nat) :
    setNth ev item (i + xs.length) first w = .ok none w' := by
  -- the induction needs walks to any end
  generalize hrest : (none : Option (Ref .cell)) = rest at h
  induction h with
  | refl =>
    subst hrest
    cases i <;> rfl
  | step hx hnext _ ih =>
    subst hrest
    exact (bind_ok hnext).trans (bind_ok (ih rfl))

end Walks

end Spine

/-! ### Cells in a row -/

/-- Cells from `first` on with the heads `xs`, each the tail of the one before, and `rest` the tail
of the last. -/
inductive Heap.Chain (h : Heap) :
    Option (Ref .cell) → List Value → Option (Ref .cell) → Prop
  | nil (first : Option (Ref .cell)) : Chain h first [] first
  | cons {c : Ref .cell} {x : Value} {mid rest : Option (Ref .cell)} {xs : List Value}
      (hlt : c.index < h.cells.size) (hcell : h.cell c = ⟨x, .list mid⟩)
      (hrest : Chain h mid xs rest) : Chain h (some c) (x :: xs) rest

namespace Heap.Chain

variable {h k : Heap} {first mid rest : Option (Ref .cell)} {xs ys : List Value}

theorem append (hxs : h.Chain first xs mid) (hys : h.Chain mid ys rest) :
    h.Chain first (xs ++ ys) rest := by
  induction hxs with
  | nil => exact hys
  | cons hlt hcell _ ih => exact .cons hlt hcell (ih hys)

/-- A chain stays one as long as its cells stay. -/
theorem retains (hxs : h.Chain first xs rest) (hk : h.Retains k) : k.Chain first xs rest := by
  induction hxs with
  | nil first => exact .nil first
  | cons hlt hcell _ ih =>
    exact .cons (hk.cells.size_le hlt) ((hk.cell_eq hlt).trans hcell) ih

/-- A new cell before the others. -/
theorem addCell (hxs : h.Chain first xs rest) (x : Value) :
    (h.addCell ⟨x, .list first⟩).2.Chain (some ⟨h.cells.size⟩) (x :: xs) rest :=
  .cons (h.lt_addCell _) (h.cell_addCell _) (hxs.retains (h.extends_addCell _).toRetains)

/-- Nothing has to be evaluated on the way along cells in a row. -/
theorem walks {level : Nat} {w : World} (hxs : w.heap.Chain first xs rest) (hlevel : 1 < level)
    (hlive : w.context.interrupt? = none) : Spine.Walks (evaluator level) w first xs w rest := by
  induction hxs with
  | nil first => exact .refl w first
  | cons hlt hcell _ ih =>
    refine .step (congrArg Cell.head hcell) (Spine.next_ok ?_) ih
    rw [hcell]
    exact evaluator_force hlevel hlive rfl

end Heap.Chain

/-! ### What is made of lists -/

section Making

variable {ev : Evaluator} {w w₁ : World} {first rest onto : Option (Ref .cell)} {xs : List Value}
  {c : Ref .cell}

/-- Values put in front of a list are a chain down to it. -/
theorem prepend_ok (xs : List Value) (rest : Option (Ref .cell)) (w : World) :
    ∃ r h, Eval.prepend xs rest w = .ok r { w with heap := h } ∧ w.heap.Pads h ∧
      h.Chain r xs rest := by
  induction xs with
  | nil => exact ⟨rest, w.heap, rfl, .refl _, .nil rest⟩
  | cons x xs ih =>
    obtain ⟨r, h, heq, hpads, hchain⟩ := ih
    exact ⟨_, (h.addCell ⟨x, .list r⟩).2, bind_ok heq, hpads.trans (.addCell _ _),
      hchain.addCell x⟩

/-- Replacing the element at the end of a walk makes new cells up to there. What follows it is what
followed the old one. -/
theorem Spine.Walks.setNth_ok (h : Spine.Walks ev w first xs w₁ (some c)) (item : Value) :
    ∃ r c' k, Spine.setNth ev item xs.length first w = .ok (some r) { w₁ with heap := k } ∧
      w₁.heap.Pads k ∧ k.Chain (some r) xs (some c') ∧ c'.index < k.cells.size ∧
      k.cell c' = ⟨item, (w₁.heap.cell c).tail⟩ := by
  generalize hrest : some c = rest at h
  induction h with
  | refl w first =>
    subst hrest
    exact ⟨_, _, _, rfl, .addCell _ _, .nil _, by simp, Heap.cell_addCell _ _⟩
  | @step w w₁ w' d x mid rest xs hx hnext _ ih =>
    obtain ⟨r, c', k, heq, hpads, hchain, hlt, hcell⟩ := ih hrest
    have hkept := (k.extends_addCell ⟨x, .list (some r)⟩).toRetains
    refine ⟨_, c', _, (bind_ok hnext).trans ((bind_ok heq).trans (hx ▸ rfl)),
      hpads.trans (.addCell _ _), hchain.addCell x, hkept.cells.size_le hlt, ?_⟩
    exact (hkept.cell_eq hlt).trans hcell

/-- Cells in a row are reversed by new cells. -/
theorem Heap.Chain.reverseOnto_ok {level : Nat} (hxs : w.heap.Chain first xs none)
    (hforce : ∀ v, (evaluator level).force v = ev.force v) (hlevel : 1 < level)
    (hlive : w.context.interrupt? = none) {fuel : Nat} (hfuel : xs.length < fuel)
    (onto : Option (Ref .cell)) :
    ∃ r h, Spine.reverseOnto ev fuel first onto w = .ok r { w with heap := h } ∧
      w.heap.Pads h ∧ h.Chain r xs.reverse onto := by
  induction xs generalizing w first fuel onto with
  | nil =>
    obtain ⟨fuel, rfl⟩ := Nat.exists_eq_succ_of_ne_zero (Nat.ne_zero_of_lt hfuel)
    cases hxs
    exact ⟨onto, w.heap, rfl, .refl _, .nil onto⟩
  | cons x xs ih =>
    obtain ⟨fuel, rfl⟩ := Nat.exists_eq_succ_of_ne_zero (Nat.ne_zero_of_lt hfuel)
    cases hxs with
    | @cons c x mid rest xs hlt hcell hrest =>
      obtain rfl : (w.heap.cell c).head = x := congrArg Cell.head hcell
      -- the new cell stands before `onto`, and the others are reversed onto it
      have hmake : Eval.makeCell (w.heap.cell c).head (.list onto) w =
          .ok ⟨w.heap.cells.size⟩
            (w.withHeap (w.heap.addCell ⟨(w.heap.cell c).head, .list onto⟩).2) := rfl
      have hpad := Heap.Pads.addCell w.heap ⟨(w.heap.cell c).head, .list onto⟩
      have hnew := (Heap.Chain.nil (h := w.heap) onto).addCell (w.heap.cell c).head
      generalize (w.heap.addCell ⟨(w.heap.cell c).head, .list onto⟩).2 = k at hmake hpad hnew
      have hnext : Spine.next ev c (w.withHeap k) = .ok mid (w.withHeap k) := by
        have hcell : (w.withHeap k).heap.cell c = w.heap.cell c := hpad.cell_eq hlt
        refine Spine.next_ok ?_
        rw [hcell, ‹w.heap.cell c = _›, ← hforce]
        exact evaluator_force hlevel hlive rfl
      obtain ⟨r, h, heq, hpads, hchain⟩ := ih (w := w.withHeap k) (hrest.retains hpad.toRetains)
        hlive (Nat.lt_of_succ_lt_succ hfuel) (some ⟨w.heap.cells.size⟩)
      have hheap : Eval.heap w = .ok w.heap w := rfl
      refine ⟨r, h, ?_, hpad.trans hpads, ?_⟩
      · rw [Spine.reverseOnto, bind_ok hheap, bind_ok hmake, bind_ok hnext]
        exact heq
      · rw [List.reverse_cons]
        exact hchain.append (hnew.retains hpads.toRetains)

end Making

end LazyMachine
