import LazyMachine.Proofs.Equality
import LazyMachine.Proofs.Store

/-!
# Operations in stages

On a store an operation works in two stages. First it walks: it looks at objects and forces values,
which changes nothing in cooperative mode. Once it has what it needs, it makes its result, forcing
nothing any more. `Regime.Staged` states what follows:

* in cooperative mode the operation yields a value on a later store, fails, crashes or is suspended
  on a thunk without a value, and in the last two cases nothing has changed;
* in eager mode it does the same, except that where it would be suspended it evaluates the thunk and
  goes on as if it had started anew.

The second half needs a walk to come to the same value on later stores (`Regime.Knows`). This holds
of all operations but rendering, which looks at thunks without forcing them, and so it is claimed
only under `strict`. Fuel runs out only if it is less than what the heap asks for.
-/

namespace LazyMachine

variable {p : Program} {α β : Type}

/-- A world on a heap with a live context, in cooperative mode or, if `strict`, in either mode. -/
structure World.At (w : World) (h : Heap) (format : Format) (strict : Prop) : Prop where
  heap : w.heap = h
  context : w.context = { mode := w.context.mode, format }
  covered : w.context.mode = .cooperative ∨ strict

/-- The context is live. -/
theorem World.At.live {w : World} {h : Heap} {format : Format} {strict : Prop}
    (hw : w.At h format strict) : w.context.interrupt? = none := by
  rw [hw.context]
  rfl

/-- The check of the context goes through. -/
theorem World.At.ensureLive_eq {w : World} {h : Heap} {format : Format} {strict : Prop}
    (hw : w.At h format strict) : Eval.ensureLive w = .ok () w :=
  Eval.ensureLive_ok hw.live

theorem World.At.onHeap {w : World} {h : Heap} {format : Format} {strict : Prop}
    (hw : w.At h format strict) (h' : Heap) :
    World.At { w with heap := h' } h' format strict :=
  ⟨rfl, hw.context, hw.covered⟩

/-- The fuel for walking through the objects of a heap and the fields of its records. -/
def Heap.extent (h : Heap) : Nat :=
  (h.objects.card + 1) * (h.widest + 3)

/-- The fuel for walking through everything that a value refers to. -/
def Store.demand (s : Store p) (v : Value) : Nat :=
  (s.height v + 1) * (s.heap.widest + 3)

/-- No value demands more than the whole heap. -/
theorem Store.demand_le (s : Store p) (v : Value) : s.demand v ≤ s.heap.extent :=
  Nat.mul_le_mul_right _ (Nat.succ_le_succ (s.height_le v))

/-- Every value demands something. -/
theorem Store.demand_pos (s : Store p) (v : Value) : 0 < s.demand v :=
  Nat.mul_pos (Nat.succ_pos _) (Nat.succ_pos _)

/-- The demand covers the fields of any record. -/
theorem Store.widest_le_demand (s : Store p) (v : Value) : s.heap.widest + 3 ≤ s.demand v :=
  Nat.le_mul_of_pos_left _ (Nat.succ_pos _)

/-- A record has no more fields than the widest one. -/
theorem Store.length_fields_le (s : Store p) {bounds : List ℚ} {r : Ref .record}
    (hr : s.Fits bounds (.record r)) : (s.heap.record r).fields.length ≤ s.heap.widest :=
  Heap.length_fields_le (hr.held (.record, r.index) rfl)

/-- What is under a value demands less. -/
theorem Store.Under.demand_le {s : Store p} {bounds : List ℚ} {u v : Value} (hu : s.Under u v)
    (hv : s.Fits bounds v) : s.demand u + s.heap.widest + 3 ≤ s.demand v := by
  have hlt := hu.height_lt hv
  calc s.demand u + s.heap.widest + 3 = (s.height u + 1 + 1) * (s.heap.widest + 3) := by
        rw [demand, Nat.succ_mul (s.height u + 1), Nat.add_assoc]
    _ ≤ s.demand v := Nat.mul_le_mul_right _ (Nat.succ_le_succ hlt)

/-- The circumstances under which operations are performed. -/
structure Regime (p : Program) where
  /-- What evaluates thunks. -/
  engine : Engine
  /-- The fuel of the operations. -/
  fuel : Nat
  /-- How values are shown. -/
  format : Format
  /-- Whether there is fuel for the steps between the operations. -/
  spare : Prop
  /-- Whether the eager mode is considered, too. -/
  strict : Prop
  /-- What the operands have to fit below. -/
  bounds : List ℚ
  /-- A thunk that is evaluated in eager mode has its value afterwards, on a later store. -/
  resumes : ∀ (s : Store p) (w : World) (t : Ref .thunk) (v : Value) (w₁ : World),
    w.At s.heap format strict → w.context.mode = .eager → t.index < s.heap.thunks.size →
    forceNow engine (fuel - 1) [] t w = .ok v w₁ →
    ∃ s₁ : Store p, s.Later s₁ ∧ w₁.At s₁.heap format strict ∧ w₁.context.mode = .eager ∧
      s₁.heap.memo? t = some v

namespace Regime

variable (c : Regime p)

/-- The evaluator of the operations. -/
def evaluator : Evaluator :=
  ⟨c.fuel, force c.engine c.fuel, c.engine⟩

/-- The worlds on a store. -/
abbrev At (s : Store p) (w : World) : Prop :=
  w.At s.heap c.format c.strict

/-- The value fits the store below the bounds. -/
abbrev Fits (s : Store p) (v : Value) : Prop :=
  s.Fits c.bounds v

/-- There is enough fuel for a heap. -/
def Enough (h : Heap) : Prop :=
  h.extent ≤ c.fuel ∧ c.spare

/-- From the store on, fuel of amount `n` meets a need, unless there is too little fuel anyway. -/
def Allows (s : Store p) (need : Store p → Nat) (n : Nat) : Prop :=
  ∀ s', s.Later s' → c.Enough s'.heap → need s' ≤ n

/-- What `x` does on a store, if it does not do what it is meant to. -/
inductive Turn (s : Store p) (x : Eval α) (Done : Prop) : Prop
  /-- It does what it is meant to do. -/
  | done (h : Done)
  /-- It fails. -/
  | fails (e : RuntimeError) (s₁ : Store p) (hlater : s.Later s₁)
      (h : ∀ w, c.At s w → x w = Eval.fail e { w with heap := s₁.heap })
  /-- It needs the value of a thunk. -/
  | waits (t : Ref .thunk) (ht : c.Fits s (.lazy t)) (hmemo : s.heap.memo? t = none)
      (hc : ∀ w, c.At s w → w.context.mode = .cooperative → x w = Eval.suspend t w)
      (he : ∀ w, c.At s w → w.context.mode = .eager →
        x w = (forceNow c.engine (c.fuel - 1) [] t >>= fun _ => x) w)
  /-- It runs out of fuel. -/
  | cut (hshort : ¬ c.Enough s.heap) (h : ∀ w, c.At s w → x w = .error .exhausted w)
  /-- It crashes. -/
  | crashes (h : ∀ w, c.At s w → x w = .error .crashed w)

/-- On the store `x` yields a value with `Q` on a later store. -/
def Makes (s : Store p) (x : Eval α) (Q : Store p → α → Prop) : Prop :=
  ∃ a s₁, s.Later s₁ ∧ Q s₁ a ∧ ∀ w, c.At s w → x w = .ok a { w with heap := s₁.heap }

/-- On the store `x` yields `a` and changes nothing. If `strict`, this is so on later stores too. -/
def Knows (s : Store p) (x : Eval α) (a : α) : Prop :=
  ∀ s₁, s.Later s₁ → s₁.heap = s.heap ∨ c.strict → ∀ w, c.At s₁ w → x w = .ok a w

/-- From the store `s` on, `x` only walks, to a value with `Q`. -/
def Walk (s : Store p) (x : Eval α) (Q : Store p → α → Prop) : Prop :=
  ∀ s', s.Later s' → c.Turn s' x (∃ a, Q s' a ∧ c.Knows s' x a)

/-- From the store `s` on, `x` works in stages and yields a value with `Q`. -/
def Staged (s : Store p) (x : Eval α) (Q : Store p → α → Prop) : Prop :=
  ∀ s', s.Later s' → c.Turn s' x (c.Makes s' x Q)

/-- On the store `x` yields a value with `Q` or fails, without a walk. -/
def Prompt (s : Store p) (x : Eval α) (Q : Store p → α → Prop) : Prop :=
  c.Makes s x Q ∨ ∃ e s₁, s.Later s₁ ∧ ∀ w, c.At s w → x w = Eval.fail e { w with heap := s₁.heap }

variable {c} {s s' : Store p} {x : Eval α} {f : α → Eval β}
  {P P' : Store p → α → Prop} {Q : Store p → β → Prop}

/-- What is allowed from a store on is allowed from later ones on. -/
theorem Allows.later {need : Store p → Nat} {n : Nat} (h : c.Allows s need n) (hs : s.Later s') :
    c.Allows s' need n :=
  fun s'' hs'' => h s'' (hs.trans hs'')

/-! ### Composition -/

/-- What is known of a store is so on its worlds. -/
theorem Knows.now {a : α} (hk : c.Knows s x a) {w : World} (hw : c.At s w) : x w = .ok a w :=
  hk s (.refl s) (.inl rfl) w hw

/-- Whatever keeps `x` from its value keeps `x >>= f` from its own. -/
theorem Turn.bind {Done Done' : Prop} (hx : c.Turn s x Done)
    (hdone : Done → c.Turn s (x >>= f) Done') : c.Turn s (x >>= f) Done' := by
  cases hx with
  | done h => exact hdone h
  | fails e s₁ hlater h => exact .fails e s₁ hlater fun w hw => bind_error (h w hw)
  | cut hshort h => exact .cut hshort fun w hw => bind_error (h w hw)
  | crashes h => exact .crashes fun w hw => bind_error (h w hw)
  | waits t ht hmemo hc he =>
    refine .waits t ht hmemo (fun w hw hmode => bind_error (hc w hw hmode)) fun w hw hmode => ?_
    have hassoc : (forceNow c.engine (c.fuel - 1) [] t >>= fun _ => x >>= f) =
        (forceNow c.engine (c.fuel - 1) [] t >>= fun _ => x) >>= f := by rw [bind_assoc]
    rw [hassoc]
    simp only [Bind.bind, EStateM.bind, he w hw hmode]

/-- A walk to a value leaves the turn to what follows it. -/
theorem Turn.of_knows {a : α} {Done Done' : Prop} (hk : c.Knows s x a) (hf : c.Turn s (f a) Done)
    (hdone : Done → c.Turn s (x >>= f) Done') : c.Turn s (x >>= f) Done' := by
  cases hf with
  | done h => exact hdone h
  | fails e s₁ hlater h =>
    exact .fails e s₁ hlater fun w hw => by rw [bind_ok (hk.now hw), h w hw]
  | cut hshort h => exact .cut hshort fun w hw => by rw [bind_ok (hk.now hw), h w hw]
  | crashes h => exact .crashes fun w hw => by rw [bind_ok (hk.now hw), h w hw]
  | waits t ht hmemo hc he =>
    refine .waits t ht hmemo (fun w hw hmode => ?_) fun w hw hmode => ?_
    · rw [bind_ok (hk.now hw), hc w hw hmode]
    · rw [bind_ok (hk.now hw), he w hw hmode]
      cases hforce : forceNow c.engine (c.fuel - 1) [] t w with
      | error i w₁ => rw [bind_error hforce, bind_error hforce]
      | ok v w₁ =>
        -- the walk comes to the same value once the thunk is evaluated
        obtain ⟨s₁, hlater, hw₁, -, -⟩ := c.resumes s w t v w₁ hw hmode
          (ht.held (.thunk, t.index) rfl) hforce
        have hstrict : c.strict := hw.covered.resolve_left (by rw [hmode]; decide)
        rw [bind_ok hforce, bind_ok hforce, bind_ok (hk s₁ hlater (.inr hstrict) w₁ hw₁)]

/-- A walk followed by something in stages is in stages. -/
theorem Walk.bind (hx : c.Walk s x P)
    (hf : ∀ s' a, s.Later s' → P s' a → c.Staged s' (f a) Q) : c.Staged s (x >>= f) Q := by
  intro s' hs'
  refine (hx s' hs').bind fun ⟨a, ha, hk⟩ => ?_
  refine .of_knows hk (hf s' a hs' ha s' (.refl s')) fun ⟨b, s₁, hlater, hb, h⟩ => ?_
  exact .done ⟨b, s₁, hlater, hb, fun w hw => by rw [bind_ok (hk.now hw), h w hw]⟩

/-- A walk followed by a walk is a walk. -/
theorem Walk.andThen (hx : c.Walk s x P)
    (hf : ∀ s' a, s.Later s' → P s' a → c.Walk s' (f a) Q) : c.Walk s (x >>= f) Q := by
  intro s' hs'
  refine (hx s' hs').bind fun ⟨a, ha, hk⟩ => ?_
  refine .of_knows hk (hf s' a hs' ha s' (.refl s')) fun ⟨b, hb, hk'⟩ => ?_
  refine .done ⟨b, hb, fun s₁ hs₁ hsame w hw => ?_⟩
  rw [bind_ok (hk s₁ hs₁ hsame w hw), hk' s₁ hs₁ hsame w hw]

/-- What is in stages may go on without a walk. -/
theorem Staged.bind (hx : c.Staged s x P)
    (hf : ∀ s' a, s.Later s' → P s' a → c.Prompt s' (f a) Q) : c.Staged s (x >>= f) Q := by
  intro s' hs'
  refine (hx s' hs').bind fun ⟨a, s₁, hlater, ha, h⟩ => ?_
  rcases hf s₁ a (hs'.trans hlater) ha with ⟨b, s₂, hlater₂, hb, h₂⟩ | ⟨e, s₂, hlater₂, h₂⟩
  · refine .done ⟨b, s₂, hlater.trans hlater₂, hb, fun w hw => ?_⟩
    rw [bind_ok (h w hw), h₂ _ (hw.onHeap s₁.heap)]
  · refine .fails e s₂ (hlater.trans hlater₂) fun w hw => ?_
    rw [bind_ok (h w hw), h₂ _ (hw.onHeap s₁.heap)]

/-- One prompt evaluation after the other is prompt. -/
theorem Prompt.bind (hx : c.Prompt s x P)
    (hf : ∀ s' a, s.Later s' → P s' a → c.Prompt s' (f a) Q) : c.Prompt s (x >>= f) Q := by
  rcases hx with ⟨a, s₁, hlater, ha, h⟩ | ⟨e, s₁, hlater, h⟩
  · rcases hf s₁ a hlater ha with ⟨b, s₂, hlater₂, hb, h₂⟩ | ⟨e, s₂, hlater₂, h₂⟩
    · refine .inl ⟨b, s₂, hlater.trans hlater₂, hb, fun w hw => ?_⟩
      rw [bind_ok (h w hw), h₂ _ (hw.onHeap s₁.heap)]
    · refine .inr ⟨e, s₂, hlater.trans hlater₂, fun w hw => ?_⟩
      rw [bind_ok (h w hw), h₂ _ (hw.onHeap s₁.heap)]
  · exact .inr ⟨e, s₁, hlater, fun w hw => bind_error (h w hw)⟩

/-- What does without a walk is in stages. -/
theorem Prompt.staged (hx : ∀ s', s.Later s' → c.Prompt s' x P) : c.Staged s x P := by
  intro s' hs'
  rcases hx s' hs' with hmakes | ⟨e, s₁, hlater, h⟩
  · exact .done hmakes
  · exact .fails e s₁ hlater h

/-- A walk is in stages. -/
theorem Walk.staged (hx : c.Walk s x P) : c.Staged s x P := by
  intro s' hs'
  cases hx s' hs' with
  | done h =>
    obtain ⟨a, ha, hk⟩ := h
    refine .done ⟨a, s', .refl s', ha, fun w hw => ?_⟩
    rw [hk.now hw, ← hw.heap]
  | fails e s₁ hlater h => exact .fails e s₁ hlater h
  | waits t ht hmemo hc he => exact .waits t ht hmemo hc he
  | cut hshort h => exact .cut hshort h
  | crashes h => exact .crashes h

/-! ### Steps of a walk -/

/-- A walk comes to what it is shown to come to, and to what follows from that. -/
theorem Walk.imp (hx : c.Walk s x P) (h : ∀ s' a, s.Later s' → P s' a → P' s' a) :
    c.Walk s x P' := by
  intro s' hs'
  cases hx s' hs' with
  | done hd =>
    obtain ⟨a, ha, hk⟩ := hd
    exact .done ⟨a, h s' a hs' ha, hk⟩
  | fails e s₁ hlater hf => exact .fails e s₁ hlater hf
  | waits t ht hmemo hc he => exact .waits t ht hmemo hc he
  | cut hshort hf => exact .cut hshort hf
  | crashes hf => exact .crashes hf

theorem Walk.pure {a : α} (ha : ∀ s', s.Later s' → P s' a) : c.Walk s (Pure.pure a) P :=
  fun s' hs' => .done ⟨a, ha s' hs', fun _ _ _ _ _ => rfl⟩

/-- The context is live all the way. -/
theorem Walk.live : c.Walk s Eval.ensureLive fun _ _ => True :=
  fun _ _ => .done ⟨(), trivial, fun _ _ _ _ hw => hw.ensureLive_eq⟩

theorem Walk.fail (e : RuntimeError) : c.Walk s (Eval.fail e : Eval α) P :=
  fun s' _ => .fails e s' (.refl s') fun w hw => by rw [← hw.heap]

theorem Walk.cut {need : Store p → Nat} (hneed : ∀ s', 0 < need s') (hn : c.Allows s need 0) :
    c.Walk s (throw .exhausted : Eval α) P :=
  fun s' hs' => .cut (fun h => Nat.not_le.mpr (hneed s') (hn s' hs' h)) fun _ _ => rfl

theorem Walk.crash : c.Walk s (throw .crashed : Eval α) P :=
  fun _ _ => .crashes fun _ _ => rfl

/-- Evaluations that agree on the worlds of later stores do the same. -/
theorem Turn.congr {y : Eval α} {Done Done' : Prop}
    (hxy : ∀ s', s.Later s' → ∀ w, c.At s' w → x w = y w) (hy : c.Turn s y Done)
    (hdone : Done → Done') : c.Turn s x Done' := by
  have heq := hxy s (.refl s)
  cases hy with
  | done h => exact .done (hdone h)
  | fails e s₁ hlater h => exact .fails e s₁ hlater fun w hw => by rw [heq w hw, h w hw]
  | cut hshort h => exact .cut hshort fun w hw => by rw [heq w hw, h w hw]
  | crashes h => exact .crashes fun w hw => by rw [heq w hw, h w hw]
  | waits t ht hmemo hc he =>
    refine .waits t ht hmemo (fun w hw hmode => by rw [heq w hw, hc w hw hmode])
      fun w hw hmode => ?_
    rw [heq w hw, he w hw hmode]
    cases hforce : forceNow c.engine (c.fuel - 1) [] t w with
    | error i w₁ => rw [bind_error hforce, bind_error hforce]
    | ok v w₁ =>
      obtain ⟨s₁, hlater, hw₁, -, -⟩ := c.resumes s w t v w₁ hw hmode
        (ht.held (.thunk, t.index) rfl) hforce
      rw [bind_ok hforce, bind_ok hforce, hxy s₁ hlater w₁ hw₁]

theorem Walk.congr {y : Eval α} (hxy : ∀ s', s.Later s' → ∀ w, c.At s' w → x w = y w)
    (hy : c.Walk s y P) : c.Walk s x P := by
  refine fun s' hs' => (hy s' hs').congr (fun s₁ hs₁ => hxy s₁ (hs'.trans hs₁)) ?_
  rintro ⟨a, ha, hk⟩
  refine ⟨a, ha, fun s₁ hs₁ hsame w hw => ?_⟩
  rw [hxy s₁ (hs'.trans hs₁) w hw, hk s₁ hs₁ hsame w hw]

theorem Staged.congr {y : Eval α} (hxy : ∀ s', s.Later s' → ∀ w, c.At s' w → x w = y w)
    (hy : c.Staged s y P) : c.Staged s x P := by
  refine fun s' hs' => (hy s' hs').congr (fun s₁ hs₁ => hxy s₁ (hs'.trans hs₁)) ?_
  rintro ⟨a, s₁, hlater, ha, h⟩
  exact ⟨a, s₁, hlater, ha, fun w hw => by rw [hxy s' hs' w hw, h w hw]⟩

/-- Objects that do not change look the same on later stores. -/
theorem heap_bind_eq {g : Heap → Eval α} (hg : ∀ s', s.Later s' → g s'.heap = g s.heap)
    (hs : s.Later s') {w : World} (hw : c.At s' w) : (Eval.heap >>= g) w = g s.heap w := by
  rw [← hg s' hs, ← hw.heap]
  rfl

/-- Looking at objects that do not change. -/
theorem Walk.look {g : Heap → Eval α} (hg : ∀ s', s.Later s' → g s'.heap = g s.heap)
    (hx : c.Walk s (g s.heap) P) : c.Walk s (Eval.heap >>= g) P :=
  hx.congr fun _ hs' _ hw => heap_bind_eq hg hs' hw

/-- A look at the heap that is the same on all later stores. -/
theorem Staged.look {g : Heap → Eval α} (hg : ∀ s', s.Later s' → g s'.heap = g s.heap)
    (hx : c.Staged s (g s.heap) P) : c.Staged s (Eval.heap >>= g) P :=
  hx.congr fun _ hs' _ hw => heap_bind_eq hg hs' hw

/-- If only the cooperative mode is considered, looking at anything is fine. -/
theorem Walk.peek (hlax : ¬ c.strict) {g : Heap → Eval α}
    (hx : ∀ s', s.Later s' → c.Walk s' (g s'.heap) P) : c.Walk s (Eval.heap >>= g) P := by
  intro s' hs'
  have heq (s₁ : Store p) (hs₁ : s₁.heap = s'.heap) (w : World) (hw : c.At s₁ w) :
      (Eval.heap >>= g) w = g s'.heap w := by
    rw [← hs₁, ← hw.heap]
    rfl
  cases hx s' hs' s' (.refl s') with
  | done hd =>
    obtain ⟨a, ha, hk⟩ := hd
    refine .done ⟨a, ha, fun s₁ hs₁ hsame w hw => ?_⟩
    rw [heq s₁ (hsame.resolve_right hlax) w hw, hk s₁ hs₁ hsame w hw]
  | fails e s₁ hlater h => exact .fails e s₁ hlater fun w hw => by rw [heq s' rfl w hw, h w hw]
  | cut hshort h => exact .cut hshort fun w hw => by rw [heq s' rfl w hw, h w hw]
  | crashes h => exact .crashes fun w hw => by rw [heq s' rfl w hw, h w hw]
  | waits t ht hmemo hc he =>
    refine .waits t ht hmemo (fun w hw hmode => by rw [heq s' rfl w hw, hc w hw hmode]) ?_
    intro w hw hmode
    exact absurd (hw.covered.resolve_left (by rw [hmode]; decide)) hlax

/-- There, so is looking for what is always found. -/
theorem Walk.find (hlax : ¬ c.strict) {f : Heap → Option β} {g : β → Eval α}
    (hx : ∀ s', s.Later s' → ∃ b, f s'.heap = some b ∧ c.Walk s' (g b) P) :
    c.Walk s (Eval.find f >>= g) P := by
  rw [Eval.find, bind_assoc]
  refine .peek hlax fun s' hs' => ?_
  obtain ⟨b, hb, hwalk⟩ := hx s' hs'
  simpa only [hb, pure_bind] using hwalk

/-- What forcing `v` gives on a store. -/
structure Forced (c : Regime p) (s : Store p) (v u : Value) : Prop where
  notLazy : u.isLazy = false
  fits : c.Fits s u
  under : u = v ∨ s.Under u v
  fueled : 0 < c.fuel

/-- What is under a value stays so when it is forced. -/
theorem Forced.of_under {v u top : Value} (hu : c.Forced s v u) (hv : s.Under v top) :
    s.Under u top := by
  rcases hu.under with rfl | hunder
  · exact hv
  · exact hunder.trans hv

/-- What is forced demands no more fuel than before. -/
theorem Forced.allows {v u : Value} {n : Nat} (hu : c.Forced s' v u) (hs : s.Later s')
    (hv : c.Fits s v) (hn : c.Allows s (·.demand v) n) : c.Allows s' (·.demand u) n := by
  intro s'' hs'' henough
  have hle : s''.demand v ≤ n := hn s'' (hs.trans hs'') henough
  show s''.demand u ≤ n
  rcases hu.under with rfl | hunder
  · exact hle
  · have hlt := (hs''.under (hs.fits hv) hunder).demand_le (hs''.fits (hs.fits hv))
    omega

/-- There is fuel for two steps at least. -/
theorem two_le_extent (h : Heap) : 2 ≤ h.extent := by
  calc 2 ≤ 1 * 3 := by decide
    _ ≤ h.extent := Nat.mul_le_mul (Nat.le_add_left _ _) (Nat.le_add_left _ _)

/-- Forcing the value of a thunk that has none. -/
theorem forceFrom_pending (E : Engine) (fuel : Nat) {t : Ref .thunk} {w : World}
    (hmemo : w.heap.memo? t = none) :
    forceFrom E (fuel + 1) (.lazy t) w =
      ((match w.context.mode with
        | .eager => forceNow E fuel [] t
        | .cooperative => Eval.suspend t) >>= forceFrom E fuel) w := by
  have hthunk : forceThunk E fuel t w = (match w.context.mode with
      | .eager => forceNow E fuel [] t
      | .cooperative => Eval.suspend t) w := by
    rw [forceThunk, bind_ok (show Eval.heap w = .ok w.heap w from rfl), hmemo]
    rfl
  show (forceThunk E fuel t >>= forceFrom E fuel) w = _
  simp only [Bind.bind, EStateM.bind, hthunk]

/-- Forcing a value that fits. -/
theorem Walk.force {v : Value} (hv : c.Fits s v) :
    c.Walk s (c.evaluator.force v) fun s' u => c.Forced s' v u := by
  refine Walk.live.andThen fun s' _ hs' _ s'' hs'' => ?_
  have hv : c.Fits s'' v := (hs'.trans hs'').fits hv
  have hshort (hfuel : c.fuel < 2) : ¬ c.Enough s''.heap :=
    fun h => Nat.not_lt.mpr ((two_le_extent _).trans h.1) hfuel
  obtain hfuel | ⟨fuel, hfuel⟩ : c.fuel = 0 ∨ ∃ fuel, c.fuel = fuel + 1 := by
    cases c.fuel with
    | zero => exact .inl rfl
    | succ fuel => exact .inr ⟨fuel, rfl⟩
  · exact .cut (hshort (by omega)) fun w _ => by rw [hfuel]; rfl
  · have hfueled : 0 < c.fuel := by omega
    by_cases hlazy : v.isLazy = false
    · refine .done ⟨v, ⟨hlazy, hv, .inl rfl, hfueled⟩, fun _ _ _ w _ => ?_⟩
      rw [hfuel, forceFrom_of_not_lazy _ _ hlazy]
      rfl
    · obtain ⟨t, rfl⟩ : ∃ t, v = .lazy t := by cases v <;> simp_all [Value.isLazy]
      -- a thunk without a value is what is waited for; one with a value gives it, if any fuel is
      -- left
      cases hmemo : s''.heap.memo? t with
      | none =>
        refine .waits t hv hmemo (fun w hw hmode => ?_) fun w hw hmode => ?_
        · rw [hfuel, forceFrom_pending _ _ (by rw [hw.heap, hmemo]), hmode]
          rfl
        · rw [hfuel, Nat.add_sub_cancel, forceFrom_pending _ _ (by rw [hw.heap, hmemo]), hmode]
          cases hforce : forceNow c.engine fuel [] t w with
          | error i w₁ => rw [bind_error hforce, bind_error hforce]
          | ok u w₁ =>
            obtain ⟨s₁, -, hw₁, -, hmemo₁⟩ := c.resumes s'' w t u w₁ hw hmode
              (hv.held (.thunk, t.index) rfl) (by rwa [hfuel])
            rw [bind_ok hforce, bind_ok hforce, forceFrom_lazy _ _ (by rw [hw₁.heap, hmemo₁])]
      | some u =>
        obtain ⟨hforced, hu, hunder⟩ := s''.under_memo hv hmemo
        have hknown (s₁ : Store p) (hs₁ : s''.Later s₁) (w : World) (hw : c.At s₁ w) :
            forceFrom c.engine c.fuel (.lazy t) w = forceFrom c.engine fuel u w := by
          have hmemo₁ : w.heap.memo? t = some u := by
            rw [hw.heap, Heap.memo?, Heap.thunk_of_getElem? _ _ (hs₁.forced _ _ hforced)]
          rw [hfuel, forceFrom_lazy _ _ hmemo₁]
        cases fuel with
        | zero => exact .cut (hshort (by omega)) fun w hw => hknown s'' (.refl s'') w hw
        | succ fuel =>
          refine .done ⟨u, ⟨hu, hunder.fits hv, .inr hunder, hfueled⟩, fun s₁ hs₁ _ w hw => ?_⟩
          rw [hknown s₁ hs₁ w hw, forceFrom_of_not_lazy _ _ hu]
          rfl

/-! ### Making objects -/

theorem Prompt.pure {a : α} (ha : P s a) : c.Prompt s (Pure.pure a) P :=
  .inl ⟨a, s, .refl s, ha, fun w hw => by rw [← hw.heap]; rfl⟩

theorem Prompt.fail (e : RuntimeError) : c.Prompt s (Eval.fail e : Eval α) P :=
  .inr ⟨e, s, .refl s, fun w hw => by rw [← hw.heap]⟩

theorem Prompt.congr {y : Eval α} (hxy : ∀ w, c.At s w → x w = y w) (hy : c.Prompt s y P) :
    c.Prompt s x P := by
  rcases hy with ⟨a, s₁, hlater, ha, h⟩ | ⟨e, s₁, hlater, h⟩
  · exact .inl ⟨a, s₁, hlater, ha, fun w hw => by rw [hxy w hw, h w hw]⟩
  · exact .inr ⟨e, s₁, hlater, fun w hw => by rw [hxy w hw, h w hw]⟩

/-- Without a walk, looking at anything is fine. -/
theorem Prompt.look {g : Heap → Eval α} (hx : c.Prompt s (g s.heap) P) :
    c.Prompt s (Eval.heap >>= g) P := by
  refine hx.congr fun w hw => ?_
  rw [← hw.heap]
  rfl

/-- The context is live. -/
theorem Prompt.live : c.Prompt s Eval.ensureLive fun _ _ => True :=
  .inl ⟨(), s, .refl s, trivial, fun w hw => by rw [hw.ensureLive_eq, ← hw.heap]⟩

/-- A change of the heap that leads to a later store. -/
theorem Prompt.onHeap {g : Heap → α × Heap}
    (hg : ∃ s₁ : Store p, s₁.heap = (g s.heap).2 ∧ s.Later s₁ ∧ P s₁ (g s.heap).1) :
    c.Prompt s (Eval.onHeap g) P := by
  obtain ⟨s₁, hheap, hlater, ha⟩ := hg
  refine .inl ⟨_, s₁, hlater, ha, fun w hw => ?_⟩
  rw [hheap, ← hw.heap]
  rfl

/-- A new string refers to nothing. -/
theorem Prompt.makeStr (text : String) : c.Prompt s (Eval.makeStr text) c.Fits := by
  obtain ⟨s₁, hheap, hlater⟩ := s.exists_later_stamp (s.heap.nextStamp + 1)
  exact .onHeap ⟨s₁, hheap, hlater, .scalar rfl rfl⟩

/-- A new type descriptor refers to nothing. -/
theorem Prompt.typeInfo (v : Value) : c.Prompt s (Eval.typeInfo v) c.Fits := by
  obtain ⟨s₁, hheap, hlater⟩ := s.exists_later_stamp (s.heap.nextStamp + 1)
  unfold Eval.typeInfo Eval.makeTypeInfo
  exact .onHeap ⟨s₁, hheap, hlater, .scalar rfl rfl⟩

/-- A new cell fits if its parts do. -/
theorem Prompt.makeCell {head tail : Value} (hhead : c.Fits s head) (htail : c.Fits s tail) :
    c.Prompt s (Eval.makeCell head tail) fun s' r => c.Fits s' (.list (some r)) :=
  .onHeap (s.exists_later_cell hhead htail)

/-- A new record fits if its fields do. -/
theorem Prompt.makeRecord {r : Record} (hr : ∀ x ∈ r.fields, c.Fits s x.2) :
    c.Prompt s (Eval.makeRecord r) c.Fits :=
  .bind (.onHeap (P := fun s' r => c.Fits s' (.record r)) (s.exists_later_record hr))
    fun _ _ _ h => .pure h

/-- A new variant fits if its payload does. -/
theorem Prompt.makeVariant (tag : String) {payload : Value} (hv : c.Fits s payload) :
    c.Prompt s (Eval.makeVariant tag payload) c.Fits := by
  obtain ⟨s₁, hheap₁, hlater₁⟩ := s.exists_later_stamp (s.heap.nextStamp + 1)
  obtain ⟨s₂, hheap₂, hlater₂, hfits₂⟩ :=
    s₁.exists_later_variant (v := ⟨⟨s.heap.nextStamp, tag⟩, payload⟩) (hlater₁.fits hv)
  refine .onHeap ⟨s₂, ?_, hlater₁.trans hlater₂, ?_⟩
  · rw [hheap₂, hheap₁]
    rfl
  · rw [hheap₁] at hfits₂
    exact hfits₂

/-- A list with more elements in front fits if they do. -/
theorem Prompt.prepend {items : List Value} {rest : Option (Ref .cell)}
    (hitems : ∀ v ∈ items, c.Fits s v) (hrest : c.Fits s (.list rest)) :
    c.Prompt s (Eval.prepend items rest) fun s' list => c.Fits s' (.list list) := by
  induction items with
  | nil => exact .pure hrest
  | cons v vs ih =>
    refine (ih fun u hu => hitems u (List.mem_cons_of_mem v hu)).bind fun s' tail hs' htail => ?_
    exact (Prompt.makeCell (hs'.fits (hitems v List.mem_cons_self)) htail).bind
      fun _ _ _ h => .pure h

/-- A new list fits if its elements do. -/
theorem Prompt.makeList {items : List Value} (hitems : ∀ v ∈ items, c.Fits s v) :
    c.Prompt s (Eval.makeList items) c.Fits :=
  (Prompt.prepend hitems (.scalar rfl rfl)).bind fun _ _ _ h => .pure h

/-- A literal refers to nothing. -/
theorem Prompt.literal (l : Literal) : c.Prompt s (Eval.literal l) c.Fits := by
  cases l with
  | str text => exact .makeStr text
  | _ => exact .pure (.scalar rfl rfl)

end Regime

end LazyMachine
