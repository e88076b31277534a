import LazyMachine.Proofs.Sequences

/-!
# Cells in front of a thunk

Making a cell forces neither its head nor its tail, but it looks whether the tail has been
evaluated. A cell made in front of a pending thunk keeps the thunk as its tail; one made when the
thunk has come to a list has that list. From then on no operation tells the two cells apart, as long
as nothing else refers to them: walks go on with the same list after one step (`next_twins`), and
where data are cut at objects that were met before, neither cell is met again (`render_twins`).

## Main definitions

* `AtOnce`: what looks behind the head of the first cell evaluates the thunk and goes on from there;
* `Twins`: no operation tells two cells apart;
* `ConsForced`: making a cell in front of a thunk that has come to something else than a list.

## Main results

* `cons_agrees`: the two cells are twins if the thunk comes to a list, and otherwise the second cell
  is not made;
* `cons_reveals`: a thunk that comes to an integer.
-/

namespace LazyMachine

/-! ### The way that a force has taken -/

section Paths

variable {level fuel : Nat} {w w' u : World} {v x : Value} {passed : List (Ref .thunk)}

/-- Forcing follows links, and those stay. -/
theorem path_of_forceFrom (hforce : forceFrom (engine level) fuel v w = .ok x w') :
    x.isLazy = false ∧ ∃ passed, w'.heap.Path v passed x ∧ passed.length < fuel := by
  induction fuel generalizing v w with
  | zero => cases hforce
  | succ fuel ih =>
    cases v with
    | lazy t =>
      obtain ⟨y, w₁, hthunk, hrest⟩ := of_bind_ok hforce
      obtain ⟨hx, passed, hpath, hlt⟩ := ih hrest
      refine ⟨hx, t :: passed, .link ?_ hpath, Nat.succ_lt_succ hlt⟩
      rcases passed_of_forceFrom hthunk hrest with hmemo | ⟨hle, rfl, -⟩
      · exact w'.heap.memo?_of_memoAt? t hmemo
      · exact Heap.memo?_of_size_le _ _ hle
    | _ =>
      cases hforce
      exact ⟨rfl, [], .stop (by simp), Nat.succ_pos fuel⟩

/-- Forcing follows a path of memo links to its end. -/
theorem forceFrom_of_path (E : Engine) (hpath : u.heap.Path v passed x) (hx : x.isLazy = false)
    (hlt : passed.length < fuel) : forceFrom E fuel v u = .ok x u := by
  obtain ⟨n, rfl⟩ : ∃ n, fuel = n + 1 + passed.length := ⟨fuel - 1 - passed.length, by omega⟩
  rw [hpath.forceFrom_eq]
  exact congrFun (forceFrom_of_not_lazy _ _ hx) u

end Paths

/-! ### Cells with the same list behind them -/

/-- The tail of a sequence, forced. -/
def forcedTail (E : Engine) (v : Value) : Eval Value := do
  E (.force (← E (.tail v)))

/-- From the heap `h` on, the cell has the head `x`, and what is behind it forces to the list
`first`. -/
structure Heap.Begins (n : Nat) (h : Heap) (c : Ref .cell) (x : Value)
    (first : Option (Ref .cell)) : Prop where
  made : c.index < h.cells.size
  head : (h.cell c).head = x
  tail : ∀ u : World, h.Remembers u.heap → u.context.interrupt? = none →
    (forcesOf n).force (h.cell c).tail u = .ok (.list first) u

section Observing

variable {n : Nat} {u : World} {h : Heap} {c c₁ c₂ : Ref .cell} {x : Value}
  {first : Option (Ref .cell)}

/-- A step from the cell comes to the list, in every later world. -/
theorem Heap.Begins.next_eq (hc : h.Begins n c x first) (hu : h.Remembers u.heap) :
    Spine.next (forcesOf n) c u = (Eval.ensureLive >>= fun _ => pure first) u := by
  have hcell := hu.cell_eq hc.made
  cases hlive : u.context.interrupt? with
  | none =>
    rw [bind_ok (Eval.ensureLive_ok hlive)]
    exact Spine.next_ok (hcell ▸ hc.tail u hu hlive)
  | some i =>
    rw [bind_error (ensureLive_interrupted hlive)]
    exact (bind_ok rfl).trans (bind_error (force_interrupted hlive _))

section One

variable (hn : 0 < n) (hc : h.Begins n c x first) (hu : h.Remembers u.heap)
  (hlive : u.context.interrupt? = none)

include hn hc hu hlive

/-- The head of the list is `x`. -/
theorem Heap.Begins.head_ok : engine (n + 1) (.head (.list (some c))) u = .ok x u := by
  have hcell := hu.cell_eq hc.made
  rw [engine_head (forcesOf_leaves hn u _ hlive rfl) rfl, hcell, hc.head]

/-- The tail of the list, once forced, is the list behind the head. -/
theorem Heap.Begins.forcedTail_ok :
    forcedTail (engine (n + 1)) (.list (some c)) u = .ok (.list first) u := by
  refine (bind_ok (engine_tail (forcesOf_leaves hn u _ hlive rfl) rfl)).trans ?_
  rw [hu.cell_eq hc.made]
  exact hc.tail u hu hlive

end One

section Two

variable (hc₁ : h.Begins n c₁ x first) (hc₂ : h.Begins n c₂ x first) (hu : h.Remembers u.heap)

include hc₁ hc₂ hu

/-- The cells lead on to the same list. -/
theorem next_twins : Spine.next (forcesOf n) c₁ u = Spine.next (forcesOf n) c₂ u := by
  rw [hc₁.next_eq hu, hc₂.next_eq hu]

/-- The lists have the same elements. -/
theorem nth_twins (i : Nat) :
    Spine.nth (forcesOf n) i (some c₁) u = Spine.nth (forcesOf n) i (some c₂) u := by
  cases i with
  | zero =>
    have hhead : (u.heap.cell c₁).head = (u.heap.cell c₂).head := by
      rw [hu.cell_eq hc₁.made, hu.cell_eq hc₂.made, hc₁.head, hc₂.head]
    exact congrArg (fun y => EStateM.Result.ok (some y) u) hhead
  | succ i => exact bind_eq_bind (next_twins hc₁ hc₂ hu)

variable (hn : 0 < n) (hlive : u.context.interrupt? = none)

include hn hlive

/-- The lists have the same length. -/
theorem length_twins : engine (n + 1) (.length (.list (some c₁))) u =
    engine (n + 1) (.length (.list (some c₂))) u := by
  have hlength : Spine.length (forcesOf n) (some c₁) u = Spine.length (forcesOf n) (some c₂) u := by
    obtain ⟨m, rfl⟩ := Nat.exists_eq_succ_of_ne_zero (Nat.ne_of_gt hn)
    exact bind_eq_bind (next_twins hc₁ hc₂ hu)
  have hstart (c : Ref .cell) : engine (n + 1) (.length (.list (some c))) u =
      (Spine.length (forcesOf n) (some c) >>= fun k => pure (countValue k)) u :=
    bind_ok (forcesOf_leaves hn u _ hlive rfl)
  rw [hstart, hstart]
  exact bind_eq_bind hlength

/-- Whatever the key is, it is forced before the list is walked. -/
theorem get_twins (key : Value) : engine (n + 1) (.get (.list (some c₁)) key) u =
    engine (n + 1) (.get (.list (some c₂)) key) u := by
  have hforce (c : Ref .cell) := forcesOf_leaves hn u (.list (some c)) hlive rfl
  refine (bind_ok (hforce c₁)).trans (Eq.trans ?_ (bind_ok (hforce c₂)).symm)
  cases hkey : (forcesOf n).force key u with
  | error i u' => exact (bind_error hkey).trans (bind_error hkey).symm
  | ok k u' =>
    refine (bind_ok hkey).trans (Eq.trans ?_ (bind_ok hkey).symm)
    have hevolves : u.heap.Evolves u'.heap :=
      (engine_evolves (n + 1) (.force key) u).of_ok hkey trivial
    have hnth (i : Nat) := nth_twins hc₁ hc₂ (hu.trans hevolves.remembers) i
    dsimp only
    cases ordinal? k with
    | none => rfl
    | some i =>
      dsimp only
      cases position? i with
      | none => rfl
      | some i =>
        refine (bind_eq_bind (hnth i)).trans (congrFun (bind_congr fun found => ?_) u')
        cases found <;> rfl

end Two

end Observing

/-! ### The texts of the two cells -/

section Rendering

variable {n : Nat} {u : World} {h : Heap} {c c₁ c₂ : Ref .cell} {x : Value}
  {first : Option (Ref .cell)} {format : Format} {ρ : Renaming}

/-- The texts of the head `x` and of the elements of the list `first` behind it. -/
def itemsFrom (n : Nat) (format : Format) (x : Value) (first : Option (Ref .cell))
    (seen : List Address) : (fuel : Nat) → Eval (List String)
  | 0 => throw .exhausted
  | fuel + 1 => do
    if format.maxItems.any (· ≤ 0) then return ["..."]
    let text ← Render.value (forcesOf n) format fuel true seen x
    Eval.ensureLive
    return text :: (← Render.items (forcesOf n) format fuel 1 seen first)

/-- A cell that was met before is not met among what is in it. -/
theorem itemsFrom_mirrors (hx : x.Alike ρ x) (hfirst : ρ.Lists first first)
    {seen seen' : List Address} (hseen : Seen ρ seen seen') (fuel : Nat) :
    Mirrors Same ρ (itemsFrom n format x first seen fuel)
      (itemsFrom n format x first seen' fuel) := by
  have hev : (forcesOf n).Impartial := evaluator_mirrors (n + 1)
  cases fuel with
  | zero => exact .throw _
  | succ fuel =>
    have hall := RendersAlike.all hev format fuel
    rw [itemsFrom, itemsFrom]
    split
    · exact .pure rfl
    · refine (hall.value true hseen hx).bind_same fun σ hρσ text => ?_
      refine Mirrors.ensureLive.bind_same fun τ hστ _ => ?_
      have hρτ := hρσ.trans hστ
      exact (hall.items 1 (hseen.mono hρτ) (hfirst.mono hρτ)).bind_same fun _ _ _ => .pure rfl

/-- What is shown of the list is shown from its first cell. -/
theorem Heap.Begins.items_eq (hc : h.Begins n c x first) (hu : h.Remembers u.heap) (fuel : Nat) :
    Render.items (forcesOf n) format fuel 0 [] (some c) u =
      itemsFrom n format x first [.node .cell c.index] fuel u := by
  cases fuel with
  | zero => rfl
  | succ fuel =>
    rw [Render.items, itemsFrom]
    simp only [List.contains_nil, Bool.or_false]
    split
    · rfl
    · refine (bind_ok rfl).trans ?_
      rw [hu.cell_eq hc.made, hc.head]
      cases htext : Render.value (forcesOf n) format fuel true [.node .cell c.index] x u with
      | error i u' => exact (bind_error htext).trans (bind_error htext).symm
      | ok text u' =>
        refine (bind_ok htext).trans (Eq.trans ?_ (bind_ok htext).symm)
        -- the tail is forced after the text of the head has been made
        have hwalk := (@Parallel.renderAll (.crashing format.Wide) (forcesOf n) (forcesOf n) _ _
          format id (Nat.le_refl _) fuel fuel (Nat.le_refl fuel)).1 true [.node .cell c.index] x
        have hmoves := hwalk.evolves fun v => engine_evolves (n + 1) (.force v)
        have hlater := hu.trans ((hmoves u).of_ok htext trivial).remembers
        refine (bind_eq_bind (hc.next_eq hlater)).trans ?_
        rw [bind_assoc]
        simp only [pure_bind]

/-- Neither of two cells that nothing else refers to is met again, so both have the same text. -/
theorem render_twins (hn : 0 < n) (hc₁ : h.Begins n c₁ x first) (hc₂ : h.Begins n c₂ x first)
    (hu : h.Remembers u.heap) (hlive : u.context.interrupt? = none) (hw : u.Alike ρ u)
    (hx : x.Alike ρ x) (hfirst : ρ.Lists first first)
    (hseen : Seen ρ [.node .cell c₁.index] [.node .cell c₂.index]) (format : Format) :
    Outcomes Value.Alike ρ (engine (n + 1) (.render (.list (some c₁)) format) u)
      (engine (n + 1) (.render (.list (some c₂)) format) u) := by
  obtain ⟨m, rfl⟩ := Nat.exists_eq_succ_of_ne_zero (Nat.ne_of_gt hn)
  have hrender {c : Ref .cell} (hc : h.Begins (m + 1) c x first) :
      engine (m + 2) (.render (.list (some c)) format) u =
        (itemsFrom (m + 1) format x first [.node .cell c.index] m >>= fun texts =>
          Eval.makeStr (Text.listed texts)) u := by
    -- the list is no thunk, so what is shown first is its own cell
    have hforced := forcesOf_leaves hn u (.list (some c)) hlive rfl
    have htext : render (forcesOf (m + 1)) format (.list (some c)) u =
        (itemsFrom (m + 1) format x first [.node .cell c.index] m >>= fun texts =>
          pure (Text.listed texts)) u := by
      refine (bind_ok (Eval.ensureLive_ok hlive)).trans ((bind_ok hforced).trans ?_)
      exact bind_eq_bind (hc.items_eq hu m)
    refine (bind_eq_bind htext).trans ?_
    rw [bind_assoc]
    simp only [pure_bind]
  rw [hrender hc₁, hrender hc₂]
  have hitems : Mirrors Same ρ (itemsFrom (m + 1) format x first [.node .cell c₁.index] m)
      (itemsFrom (m + 1) format x first [.node .cell c₂.index] m) :=
    itemsFrom_mirrors hx hfirst hseen m
  exact (hitems.bind_same fun σ _ texts => Mirrors.makeStr (Text.listed texts)) u u hw

end Rendering

/-! ### Cells without a partner -/

/-- The cell is there on both sides and corresponds to none. -/
structure Renaming.Unpaired (ρ : Renaming) (c : Ref .cell) : Prop where
  left : c.index < ρ.cells.left
  right : c.index < ρ.cells.right
  none_right : ∀ b, ¬ ρ.Cells c b
  none_left : ∀ b, ¬ ρ.Cells b c

namespace Renaming.Unpaired

variable {ρ σ : Renaming} {a b : Ref .cell}

theorem mono (ha : ρ.Unpaired a) (hρσ : ρ ≤ σ) : σ.Unpaired a where
  left := ha.left.trans_le hρσ.1.left
  right := ha.right.trans_le hρσ.1.right
  none_right b hab := ha.none_right b (hρσ.1.old hab (.inl ha.left))
  none_left b hba := ha.none_left b (hρσ.1.old hba (.inr ha.right))

/-- Walks that have only seen a cell without a partner have seen alike objects. -/
theorem seen (ha : ρ.Unpaired a) (hb : ρ.Unpaired b) :
    Seen ρ [.node .cell a.index] [.node .cell b.index] where
  left i hi := by
    rw [List.mem_singleton, Address.node.injEq] at hi
    rw [hi.2]
    exact ha.left
  right i hi := by
    rw [List.mem_singleton, Address.node.injEq] at hi
    rw [hi.2]
    exact hb.right
  mem_iff hplaces := by
    -- what corresponds to something else is neither of the two cells
    simp only [List.mem_singleton]
    cases hplaces with
    | other hne => exact iff_of_false (hne _) (hne _)
    | @cell a' b' hcells =>
      have hpair : ρ.cells.pairs a'.index b'.index := hcells
      refine iff_of_false (fun heq => ?_) fun heq => ?_
      · rw [Address.node.injEq] at heq
        rw [heq.2] at hpair
        exact ha.none_right b' hpair
      · rw [Address.node.injEq] at heq
        rw [heq.2] at hpair
        exact hb.none_left a' hpair

/-- A cell added to a heap that is alike itself can be left without a partner. -/
theorem addCell {h : Heap} (hh : h.Alike ρ h) (c : Cell) :
    (ρ.padded h h (h.addCell c).2 (h.addCell c).2).Unpaired ⟨h.cells.size⟩ ∧
      (h.addCell c).2.Alike (ρ.padded h h (h.addCell c).2 (h.addCell c).2) (h.addCell c).2 := by
  have hpads := Heap.Pads.addCell h c
  refine ⟨⟨?_, ?_, fun b hb => ?_, fun b hb => ?_⟩, hh.pad hpads hpads⟩
  · have hleft := (hh.pad hpads hpads).left.1
    rw [← hleft]
    exact h.lt_addCell c
  · have hright := (hh.pad hpads hpads).right.1
    rw [← hright]
    exact h.lt_addCell c
  · exact (hh.cell_lt (a := ⟨h.cells.size⟩) (b := b) hb).1.false
  · exact (hh.cell_lt (a := b) (b := ⟨h.cells.size⟩) hb).2.false

end Renaming.Unpaired

/-! ### Before and after the thunk is evaluated -/

/-- In the world `u` the operations find the head `x` in both cells, and behind it the list
`first`. -/
structure Agree (level : Nat) (u : World) (x : Value) (first : Option (Ref .cell))
    (c₁ c₂ : Ref .cell) : Prop where
  head : engine level (.head (.list (some c₁))) u = .ok x u ∧
    engine level (.head (.list (some c₂))) u = .ok x u
  tail : forcedTail (engine level) (.list (some c₁)) u = .ok (.list first) u ∧
    forcedTail (engine level) (.list (some c₂)) u = .ok (.list first) u
  isNil : engine level (.isNil (.list (some c₁))) u = .ok (.bool false) u ∧
    engine level (.isNil (.list (some c₂))) u = .ok (.bool false) u
  length : engine level (.length (.list (some c₁))) u =
    engine level (.length (.list (some c₂))) u
  get : ∀ key, engine level (.get (.list (some c₁)) key) u =
    engine level (.get (.list (some c₂)) key) u

/-- The two cells, which nothing else refers to in the world `w`, agree from then on and have the
same text, or are not shown for the same reason. -/
structure Twins (level : Nat) (w : World) (x : Value) (first : Option (Ref .cell))
    (c₁ c₂ : Ref .cell) : Prop where
  agree : ∀ u : World, w.heap.Remembers u.heap → u.context.interrupt? = none →
    Agree level u x first c₁ c₂
  render : ∃ ρ, w.Alike ρ w ∧ ∀ format,
    Outcomes Value.Alike ρ (engine level (.render (.list (some c₁)) format) w)
      (engine level (.render (.list (some c₂)) format) w)

/-- The cell in the world `w₁`, where the thunk behind the head `x` is pending: what looks behind
the head evaluates the thunk, which leads to the world `w₂`, and goes on from there. -/
structure AtOnce (level : Nat) (w₁ w₂ : World) (x : Value) (c : Ref .cell) (v : Value) : Prop where
  head : engine level (.head (.list (some c))) w₁ = .ok x w₁
  isNil : engine level (.isNil (.list (some c))) w₁ = .ok (.bool false) w₁
  tail : forcedTail (engine level) (.list (some c)) w₁ = .ok v w₂
  length : engine level (.length (.list (some c))) w₁ = engine level (.length (.list (some c))) w₂
  get : ∀ key i, ordinal? key = some i → 0 < i →
    engine level (.get (.list (some c)) key) w₁ = engine level (.get (.list (some c)) key) w₂

/-- A cell is not made in front of a thunk that has come to `v`, unless `v` is a list: a string
takes a character in front, foreign values do what they do, and all else is reported. Looking for
the character in front of a string does not end where forced thunks go round in a circle. -/
structure ConsForced (level : Nat) (w : World) (x : Value) (t : Ref .thunk) (v : Value) : Prop where
  char : ∀ s c, v = .str s → w.heap.resolve? x = some (.char c) →
    engine level (.binary .cons x (.lazy t)) w = Eval.makeStr (String.singleton c ++ s.text) w
  notChar : ∀ s y, v = .str s → w.heap.resolve? x = some y → (∀ c, y ≠ .char c) →
    engine level (.binary .cons x (.lazy t)) w = .error .failed
      (w.failing (.invalidOperand "Cons" y.typeName "Lazy"))
  endless : ∀ s, v = .str s → w.heap.resolve? x = none →
    engine level (.binary .cons x (.lazy t)) w = .error .exhausted w
  foreign : ∀ f, v = .foreign f →
    engine level (.binary .cons x (.lazy t)) w = f.binary .cons x (.lazy t) w
  other : (∀ first, v ≠ .list first) → (∀ s, v ≠ .str s) → (∀ f, v ≠ .foreign f) →
    engine level (.binary .cons x (.lazy t)) w = .error .failed
      (w.failing (.invalidOperand "Cons" x.typeName v.typeName))

section Consing

variable {n : Nat} {w w₁ w₂ : World} {x v : Value} {t : Ref .thunk} {c c₁ c₂ : Ref .cell}
  {first : Option (Ref .cell)}

/-- The value at the end of a path of memo links is found. -/
theorem resolve_of_path {passed : List (Ref .thunk)} (hpath : w.heap.Path x passed v) :
    Eval.resolve x w = .ok v w :=
  Eval.resolve_ok hpath.resolve?_eq

/-- A pending thunk becomes the tail as it is. -/
theorem cons_pending (hlive : w.context.interrupt? = none) (ht : w.heap.memo? t = none) :
    engine (n + 1) (.binary .cons x (.lazy t)) w = .ok (.list (some ⟨w.heap.cells.size⟩))
      (w.withHeap (w.heap.addCell ⟨x, .lazy t⟩).2) := by
  have hl := Eval.ensureLive_ok hlive
  have hpath : w.heap.Path (.lazy t) [] (.lazy t) := .stop (by rintro _ ⟨⟩; exact ht)
  have hresolve := resolve_of_path hpath
  exact (bind_ok hl).trans ((bind_ok hl).trans (bind_ok hresolve))

/-- A thunk whose value is a list is replaced by the list. -/
theorem cons_list (hlive : w.context.interrupt? = none)
    (hresolve : Eval.resolve (.lazy t) w = .ok (.list first) w) :
    engine (n + 1) (.binary .cons x (.lazy t)) w = .ok (.list (some ⟨w.heap.cells.size⟩))
      (w.withHeap (w.heap.addCell ⟨x, .list first⟩).2) := by
  have hl := Eval.ensureLive_ok hlive
  exact (bind_ok hl).trans ((bind_ok hl).trans (bind_ok hresolve))

/-- With any other value in the thunk, the operation does what it does with the value. -/
theorem consForced (hlive : w.context.interrupt? = none) (hv : v.isLazy = false)
    (hresolve : Eval.resolve (.lazy t) w = .ok v w) : ConsForced (n + 1) w x t v := by
  have hl := Eval.ensureLive_ok hlive
  constructor
  · rintro s c rfl hx
    exact (bind_ok hl).trans ((bind_ok hl).trans ((bind_ok hresolve).trans
      (bind_ok (Eval.resolve_ok hx))))
  · rintro s y rfl hx hchar
    refine (bind_ok hl).trans ((bind_ok hl).trans ((bind_ok hresolve).trans
      ((bind_ok (Eval.resolve_ok hx)).trans ?_)))
    cases y with
    | char c => exact absurd rfl (hchar c)
    | _ => rfl
  · rintro s rfl hx
    exact (bind_ok hl).trans ((bind_ok hl).trans ((bind_ok hresolve).trans
      (bind_error (Eval.find_error hx))))
  · rintro f rfl
    exact (bind_ok hl).trans ((bind_ok hl).trans (bind_ok hresolve))
  · intro hlist hstr hforeign
    refine (bind_ok hl).trans ((bind_ok hl).trans ((bind_ok hresolve).trans ?_))
    cases v with
    | list first => exact absurd rfl (hlist first)
    | str s => exact absurd rfl (hstr s)
    | foreign f => exact absurd rfl (hforeign f)
    | lazy t => cases hv
    | _ => rfl

/-- What looks behind the head of a cell starts with forcing what is there. -/
theorem atOnce (hn : 0 < n) (hlive : w₁.context.interrupt? = none)
    (hlive' : w₂.context.interrupt? = none) (hcell : w₁.heap.cell c = ⟨x, .lazy t⟩)
    (hlater : w₂.heap.cell c = ⟨x, .lazy t⟩)
    (hforce : (forcesOf n).force (.lazy t) w₁ = .ok v w₂)
    (hagain : (forcesOf n).force (.lazy t) w₂ = .ok v w₂) : AtOnce (n + 1) w₁ w₂ x c v := by
  have hlist := forcesOf_leaves hn w₁ (.list (some c)) hlive rfl
  have hlist' := forcesOf_leaves hn w₂ (.list (some c)) hlive' rfl
  -- a step from the cell forces the thunk first, from either world
  have hnext : Spine.next (forcesOf n) c w₁ = Spine.next (forcesOf n) c w₂ := by
    refine (bind_ok rfl).trans (Eq.trans ?_ (bind_ok rfl).symm)
    rw [hcell, hlater]
    exact bind_eq_bind (hforce.trans hagain.symm)
  constructor
  case head => rw [engine_head hlist rfl, hcell]
  case isNil => exact engine_isNil hlist
  case tail =>
    refine (bind_ok (engine_tail hlist rfl)).trans ?_
    rw [hcell]
    exact hforce
  case length =>
    obtain ⟨m, rfl⟩ := Nat.exists_eq_succ_of_ne_zero (Nat.ne_of_gt hn)
    have hlength : Spine.length (forcesOf (m + 1)) (some c) w₁ =
        Spine.length (forcesOf (m + 1)) (some c) w₂ := bind_eq_bind hnext
    refine (bind_ok hlist).trans (Eq.trans ?_ (bind_ok hlist').symm)
    exact bind_eq_bind hlength
  case get =>
    intro key i hkey hi
    have hlazy := not_lazy_of_ordinal? hkey
    have hforced := forcesOf_leaves hn w₁ key hlive hlazy
    have hforced' := forcesOf_leaves hn w₂ key hlive' hlazy
    refine (bind_ok hlist).trans (Eq.trans ?_ (bind_ok hlist').symm)
    refine (bind_ok hforced).trans (Eq.trans ?_ (bind_ok hforced').symm)
    obtain ⟨j, hj⟩ : ∃ j, position? i = some (j + 1) :=
      ⟨i.toNat - 1, by rw [position?, if_pos (Int.le_of_lt hi)]; congr 1; omega⟩
    have hnth : Spine.nth (forcesOf n) (j + 1) (some c) w₁ =
        Spine.nth (forcesOf n) (j + 1) (some c) w₂ := bind_eq_bind hnext
    simp only [hkey, hj]
    exact bind_eq_bind hnth

/-- The cell in front of a thunk that has come to a list. -/
theorem begins_kept (hcell : w₂.heap.cell c = ⟨x, .lazy t⟩) (hmade : c.index < w₂.heap.cells.size)
    (hforce : (forcesOf n).force (.lazy t) w₁ = .ok (.list first) w₂) {h : Heap}
    (hh : w₂.heap.Pads h) : h.Begins n c x first where
  made := hh.cells.size_le hmade
  head := by rw [hh.cell_eq hmade, hcell]
  tail u hu hlive := by
    rw [hh.cell_eq hmade, hcell]
    have hevaluated : (evaluator (n + 1)).force (.lazy t) w₁ = .ok (.list first) w₂ := hforce
    exact force_again hevaluated (by simp) (hh.remembers.trans hu) hlive

/-- A new cell in front of the list itself. -/
theorem begins_added (hn : 0 < n) (h : Heap) (x : Value) (first : Option (Ref .cell)) :
    (h.addCell ⟨x, .list first⟩).2.Begins n ⟨h.cells.size⟩ x first where
  made := h.lt_addCell _
  head := by rw [Heap.cell_addCell]
  tail u _ hlive := by
    rw [Heap.cell_addCell]
    exact forcesOf_leaves hn u _ hlive rfl

/-- Two cells that begin with the same, and that nothing else refers to, are twins. -/
theorem twins {ρ : Renaming} (hn : 0 < n) (hc₁ : w.heap.Begins n c₁ x first)
    (hc₂ : w.heap.Begins n c₂ x first) (hlive : w.context.interrupt? = none) (hw : w.Alike ρ w)
    (hx : x.Alike ρ x) (hfirst : ρ.Lists first first) (h₁ : ρ.Unpaired c₁) (h₂ : ρ.Unpaired c₂) :
    Twins (n + 1) w x first c₁ c₂ where
  agree u hu hlive := {
    head := ⟨hc₁.head_ok hn hu hlive, hc₂.head_ok hn hu hlive⟩
    tail := ⟨hc₁.forcedTail_ok hn hu hlive, hc₂.forcedTail_ok hn hu hlive⟩
    isNil := ⟨engine_isNil (forcesOf_leaves hn u _ hlive rfl),
      engine_isNil (forcesOf_leaves hn u _ hlive rfl)⟩
    length := length_twins hc₁ hc₂ hu hn hlive
    get := get_twins hc₁ hc₂ hu hn hlive }
  render := ⟨ρ, hw, fun format =>
    render_twins hn hc₁ hc₂ (.refl _) hlive hw hx hfirst (h₁.seen h₂) format⟩

/-- A value on the heap stands for itself. -/
theorem alike_id {h : Heap} (hx : h.has x = true) : x.Alike (.id h) x := by
  cases x with
  | list first => exact .list (lists_id hx)
  | function f => exact .function ⟨rfl, by simpa [Heap.has] using hx⟩
  | _ => exact .same rfl

end Consing

/-- What comes of making a cell with the head `x` in front of the thunk `t` in the world `w`, where
the thunk has come to `v`, and how that compares with the cell `c` made when the thunk was pending.
-/
structure ConsAgain (level : Nat) (w : World) (x : Value) (t : Ref .thunk) (v : Value)
    (c : Ref .cell) : Prop where
  list : ∀ first, v = .list first → ∃ c' w',
    engine level (.binary .cons x (.lazy t)) w = .ok (.list (some c')) w' ∧
      Twins level w' x first c c'
  other : ConsForced level w x t v

section Main

variable {n : Nat} {w w₁ w₂ : World} {x v : Value} {t : Ref .thunk} {c : Ref .cell}

/-- The cell made before is kept while the thunk is evaluated, and gets a twin if that comes to a
list. -/
theorem consAgain {ρ : Renaming} (hn : 0 < n) (hw : w₁.Alike ρ w₁) (hx : x.Alike ρ x)
    (hcell : w₁.heap.cell c = ⟨x, .lazy t⟩) (hmade : c.index < w₁.heap.cells.size)
    (hc : ρ.Unpaired c) (hforce : (forcesOf n).force (.lazy t) w₁ = .ok v w₂)
    (hlive : w₂.context.interrupt? = none) :
    AtOnce (n + 1) w₁ w₂ x c v ∧ ConsAgain (n + 1) w₂ x t v c := by
  -- the way that the force has taken is there afterwards, for forcing again and for looking
  obtain ⟨_, w₀, hensured, hfrom⟩ := of_bind_ok hforce
  obtain ⟨hv, passed, hpath, hlt⟩ := path_of_forceFrom hfrom
  have hagain : (forcesOf n).force (.lazy t) w₂ = .ok v w₂ :=
    (bind_ok (Eval.ensureLive_ok hlive)).trans (forceFrom_of_path _ hpath hv hlt)
  have hremembers : w₁.heap.Remembers w₂.heap :=
    ((engine_evolves (n + 1) (.force (.lazy t)) w₁).of_ok hforce trivial).remembers
  have hlater : w₂.heap.cell c = ⟨x, .lazy t⟩ := (hremembers.cell_eq hmade).trans hcell
  have hevaluated : (evaluator (n + 1)).force (.lazy t) w₁ = .ok v w₂ := hforce
  refine ⟨atOnce hn (live_of_force hevaluated) hlive hcell hlater hforce hagain, ?_, ?_⟩
  · rintro first rfl
    let h := (w₂.heap.addCell ⟨x, .list first⟩).2
    have hc₁ : h.Begins n c x first :=
      begins_kept hlater (hremembers.cells.size_le hmade) hforce (.addCell _ _)
    have hc₂ := begins_added hn w₂.heap x first
    -- the new cell is left without a partner, as the old one was
    obtain ⟨σ, hρσ, hfirst, hw₂⟩ := (evaluator_mirrors (n + 1) ρ _ _ (.same rfl)).self hw hforce
    obtain ⟨hunpaired, hh⟩ := Renaming.Unpaired.addCell hw₂.heap ⟨x, .list first⟩
    have hle := σ.le_padded w₂.heap w₂.heap h h
    cases hfirst with
    | list hlists =>
      exact ⟨_, _, cons_list hlive (resolve_of_path hpath),
        twins hn hc₁ hc₂ hlive (hw₂.withHeap hle hh) (hx.mono (hρσ.trans hle)) (hlists.mono hle)
          (hc.mono (hρσ.trans hle)) hunpaired⟩
    | same h => cases h
  · exact consForced hlive hv (resolve_of_path hpath)

end Main

/-- A cell made in front of a pending thunk, and one made when the thunk has been evaluated. Both
are made if the thunk comes to a list, and no operation tells them apart from then on. If it comes
to something else, the first is made all the same; then the second operation is that on the
value. -/
theorem cons_agrees {level : Nat} (hlevel : 1 < level) {w w' : World} (hw : w.Impartial)
    {x : Value} (hx : w.heap.has x = true) {t : Ref .thunk} (ht : w.heap.memo? t = none) {v : Value}
    (hforce : engine level (.force (.lazy t)) w = .ok v w') :
    ∃ c w₁ v₁ w₂,
      engine level (.binary .cons x (.lazy t)) w = .ok (.list (some c)) w₁ ∧
      w₁.heap.cell c = ⟨x, .lazy t⟩ ∧
      engine level (.force (.lazy t)) w₁ = .ok v₁ w₂ ∧
      (∃ ρ, .id w.heap ≤ ρ ∧ v.Alike ρ v₁ ∧ w'.Alike ρ w₂) ∧
      (∀ i, w₂.context.interrupt? = some i →
        engine level (.binary .cons x (.lazy t)) w₂ = .error i w₂) ∧
      (w₂.context.interrupt? = none →
        AtOnce level w₁ w₂ x c v₁ ∧ ConsAgain level w₂ x t v₁ c) := by
  obtain ⟨n, rfl⟩ : ∃ n, level = n + 1 := ⟨level - 1, by omega⟩
  have hn : 0 < n := by omega
  let cell : Cell := ⟨x, .lazy t⟩
  let h := (w.heap.addCell cell).2
  have hpads : w.heap.Pads h := .addCell _ _
  have hevaluated : (evaluator (n + 1)).force (.lazy t) w = .ok v w' := hforce
  have hcons := cons_pending (n := n) (x := x) (live_of_force hevaluated) ht
  -- the thunk evaluates as it would without the cell
  have hle := (Renaming.id w.heap).le_padded w.heap w.heap w.heap h
  have hbeside := hw.withHeap hle (hw.heap.pad (.refl _) hpads)
  obtain ⟨σ, v₁, w₂, hσ, hforce₁, hv, hw₂⟩ :=
    (evaluator_mirrors (n + 1) _ _ _ (.same rfl)).of_ok hbeside hforce
  refine ⟨⟨w.heap.cells.size⟩, w.withHeap h, v₁, w₂, hcons, Heap.cell_addCell _ _, hforce₁,
    ⟨σ, hle.trans hσ, hv, hw₂⟩, fun i hi => bind_error (ensureLive_interrupted hi), fun hlive => ?_⟩
  obtain ⟨hunpaired, hh⟩ := Renaming.Unpaired.addCell hw.heap cell
  have hle' := (Renaming.id w.heap).le_padded w.heap w.heap h h
  exact consAgain hn (hw.withHeap hle' hh) ((alike_id hx).mono hle') (Heap.cell_addCell _ _)
    (Heap.lt_addCell _ _) hunpaired hforce₁ hlive

/-- In front of the pending end of a list, with a head whose evaluation would fail. -/
theorem cons_agrees_mixed :
    mixedList.heap.memo? ⟨2⟩ = none ∧
    ∃ c w₁ first w₂ c' w₃,
      engine 8 (.binary .cons (.lazy ⟨0⟩) (.lazy ⟨2⟩)) mixedList = .ok (.list (some c)) w₁ ∧
      engine 8 (.force (.lazy ⟨2⟩)) w₁ = .ok (.list first) w₂ ∧
      engine 8 (.binary .cons (.lazy ⟨0⟩) (.lazy ⟨2⟩)) w₂ = .ok (.list (some c')) w₃ ∧
      AtOnce 8 w₁ w₂ (.lazy ⟨0⟩) c (.list first) ∧
      Twins 8 w₃ (.lazy ⟨0⟩) first c c' := by
  obtain ⟨w', hforce, hlive⟩ : ∃ w',
      engine 8 (.force (.lazy ⟨2⟩)) mixedList = .ok (.list (some ⟨3⟩)) w' ∧
        w'.context.interrupt? = none := ⟨_, rfl, rfl⟩
  obtain ⟨c, w₁, v₁, w₂, hcons, -, hforce₁, ⟨ρ, -, hv, hw₂⟩, -, hlater⟩ :=
    cons_agrees (x := .lazy ⟨0⟩) (by decide) mixedList_impartial (by decide) rfl hforce
  obtain ⟨hatOnce, hagain⟩ := hlater (hw₂.context ▸ hlive)
  cases hv with
  | list hlists =>
    obtain ⟨c', w₃, hcons', htwins⟩ := hagain.list _ rfl
    exact ⟨rfl, c, w₁, _, w₂, c', w₃, hcons, hforce₁, hcons', hatOnce, htwins⟩
  | same h => cases h

/-- A pending thunk that comes to an integer. -/
def pendingInteger : World where
  heap := { thunks := #[.waiting (.native (.done (.int 5)))] }

/-- Whether the thunk has been evaluated shows: a cell is made in front of it before, and none is
made after. -/
theorem cons_reveals : ∃ c w₁ w₂,
    engine 4 (.binary .cons (.int 1) (.lazy ⟨0⟩)) pendingInteger = .ok (.list (some c)) w₁ ∧
    engine 4 (.force (.lazy ⟨0⟩)) w₁ = .ok (.int 5) w₂ ∧
    w₂.context.interrupt? = none ∧
    engine 4 (.binary .cons (.int 1) (.lazy ⟨0⟩)) w₂ =
      .error .failed (w₂.failing (.invalidOperand "Cons" "Int" "Int")) :=
  ⟨_, _, _, rfl, rfl, rfl, rfl⟩

end LazyMachine
