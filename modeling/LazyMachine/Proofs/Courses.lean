import LazyMachine.Proofs.Anonymity
import LazyMachine.Proofs.Level

/-!
# What an application runs

An application binds its arguments, and by that runs bodies of functions one after the other, until
no arguments are left. `Traced.call` is the application of a callable value once more, on
evaluations that note what they run: every body that has all its arguments, and every foreign value
that is applied, each with its arguments and in order. What it evaluates to is what `call` evaluates
to (`Traced.call_outcome`).

Two relations pass from the parts of a noting evaluation to the whole:

* `Traced.Approximates x y`: `y` has the course of `x` unless that lacks fuel;
* `Traced.Follows V ρ x y`: on alike worlds `x` and `y` run alike bodies in the same order and have
  alike outcomes, unless both apply a foreign value. Foreign values take all arguments at once, so
  nothing more is said about evaluations that reach them.
-/

namespace LazyMachine

variable {α β γ δ : Type}

/-- What an application runs. -/
inductive Run where
  /-- The body of a function, with all its arguments. -/
  | body (b : Body) (args : List Value)
  /-- A foreign value that is applied. -/
  | foreign (f : Foreign) (args : List Value)

/-- A foreign value is applied. -/
def Run.isForeign : Run → Bool
  | .body _ _ => false
  | .foreign _ _ => true

/-- What is run, one after the other, and the outcome. -/
abbrev Course (α : Type) :=
  List Run × EStateM.Result Interrupt World α

/-- Fuel was lacking. -/
def Course.Exhausted (c : Course α) : Prop :=
  ∃ w, c.2 = .error .exhausted w

/-- Whether fuel was lacking can be read off the end. -/
instance (c : Course α) : Decidable c.Exhausted :=
  match c with
  | (_, .error .exhausted w) => isTrue ⟨w, rfl⟩
  | (_, .ok _ _) => isFalse fun ⟨_, h⟩ => nomatch h
  | (_, .error .failed _) => isFalse fun ⟨_, h⟩ => nomatch h
  | (_, .error .suspended _) => isFalse fun ⟨_, h⟩ => nomatch h
  | (_, .error .crashed _) => isFalse fun ⟨_, h⟩ => nomatch h

/-- A foreign value is applied. -/
def Course.ReachesForeign (c : Course α) : Prop :=
  ∃ r ∈ c.1, r.isForeign = true

/-- Whether a foreign value is applied can be read off the runs. -/
instance (c : Course α) : Decidable c.ReachesForeign :=
  inferInstanceAs (Decidable (∃ r ∈ c.1, r.isForeign = true))

/-- An evaluation that notes what it runs. -/
def Traced (α : Type) :=
  World → Course α

/-- An evaluation that runs no bodies of its own. -/
def Eval.traced (x : Eval α) : Traced α := fun w =>
  ([], x w)

namespace Traced

/-- Notes what is run. -/
def note (r : Run) : Traced Unit := fun w =>
  ([r], .ok () w)

/-- The runs of one evaluation are followed by those of the next. -/
instance : Monad Traced where
  pure a w := ([], .ok a w)
  bind x f w :=
    match x w with
    | (runs, .ok a w) => (runs ++ (f a w).1, (f a w).2)
    | (runs, .error i w) => (runs, .error i w)

/-- After a value the runs of the continuation follow in the world reached. -/
theorem bind_ok {x : Traced α} {f : α → Traced β} {w w' : World} {runs : List Run} {a : α}
    (h : x w = (runs, .ok a w')) : (x >>= f) w = (runs ++ (f a w').1, (f a w').2) := by
  simp only [Bind.bind, h]

/-- An interrupt ends the course. -/
theorem bind_error {x : Traced α} {f : α → Traced β} {w w' : World} {runs : List Run}
    {i : Interrupt} (h : x w = (runs, .error i w')) : (x >>= f) w = (runs, .error i w') := by
  simp only [Bind.bind, h]

/-- A sequence without runs is a sequence of courses without runs. -/
theorem traced_bind (x : Eval α) (f : α → Eval β) :
    (x >>= f).traced = x.traced >>= fun a => (f a).traced := by
  funext w
  simp only [Eval.traced, Bind.bind, EStateM.bind]
  rcases x w with _ | _ <;> rfl

/-- Looking at the heap runs nothing. -/
theorem heap_bind_apply (f : Heap → Traced α) (w : World) :
    (Eval.heap.traced >>= f) w = f w.heap w := rfl

/-- What is noted stays noted. -/
theorem reachesForeign_bind {x : Traced α} {w : World} (h : (x w).ReachesForeign)
    (f : α → Traced β) : ((x >>= f) w).ReachesForeign := by
  rcases hx : x w with ⟨runs, ⟨a, w₁⟩ | ⟨i, w₁⟩⟩
  · rw [hx] at h
    obtain ⟨r, hr, hforeign⟩ := h
    rw [bind_ok hx]
    exact ⟨r, List.mem_append_left _ hr, hforeign⟩
  · rw [hx] at h
    rw [bind_error hx]
    exact h

/-- Evaluations with the same course may be exchanged in front of a continuation. -/
theorem bind_eq_bind {x y : Traced α} {w : World} (h : x w = y w) (f : α → Traced β) :
    (x >>= f) w = (y >>= f) w := by
  simp only [Bind.bind, h]

/-- Runs are appended, which is associative. -/
instance : LawfulMonad Traced := by
  refine LawfulMonad.mk' Traced (fun x => ?_) (fun a f => ?_) fun x f g => ?_
  · funext w
    rcases hx : x w with ⟨runs, _ | _⟩
    · refine (bind_ok hx).trans ?_
      change (runs ++ [], _) = _
      rw [List.append_nil]
      rfl
    · exact bind_error hx
  · rfl
  · funext w
    rcases hx : x w with ⟨runs, ⟨a, w₁⟩ | ⟨i, w₁⟩⟩
    · rcases hf : f a w₁ with ⟨more, ⟨b, w₂⟩ | ⟨i, w₂⟩⟩
      · have hxf : (x >>= f) w = (runs ++ more, .ok b w₂) := by rw [bind_ok hx, hf]
        rw [bind_ok hxf, bind_ok hx, bind_ok hf, List.append_assoc]
      · have hxf : (x >>= f) w = (runs ++ more, .error i w₂) := by rw [bind_ok hx, hf]
        rw [bind_error hxf, bind_ok hx, bind_error hf]
    · rw [bind_error (bind_error hx), bind_error hx]

/-- Binds arguments to a function that was looked up; `next` binds those of a clause. -/
def bindFunction (E : Engine) (next : Ref .function → List Value → Traced Application)
    (f : Ref .function) (fn : Function) (args : List Value) : Traced Application :=
  if args.length < fn.remaining then
    if args.isEmpty then return .value (.function f) []
    else do
      let g ← (Eval.makeFunction { fn with applied := fn.applied ++ args }).traced
      return .value g []
  else
    let full := fn.applied ++ args.take fn.remaining
    let rest := args.drop fn.remaining
    match fn.body with
    | .native code => do
      note (.body (.native code) full)
      let v ← ((code full).run E).traced
      return .value v rest
    | .code program chunk captures => do
      note (.body (.code program chunk captures) full)
      return .enter program chunk (captures ++ full) rest
    | .overloaded table => do
      let selected ← (table.select E full).traced
      return (← next selected.1 selected.2).withRest rest

/-- Binds arguments to a function. -/
def bindArgs (E : Engine) : (fuel : Nat) → Ref .function → List Value → Traced Application
  | 0, _, _ => Eval.traced (throw .exhausted)
  | fuel + 1, f, args => do
    Eval.ensureLive.traced
    bindFunction E (bindArgs E fuel) f ((← Eval.heap.traced).function f) args

/-- Binds arguments to a forced value. -/
def bindValue (E : Engine) (fuel : Nat) (callee : Value) (args : List Value) :
    Traced Application :=
  match callee with
  | .function g => bindArgs E fuel g args
  | .foreign g => do
    note (.foreign g args)
    return .value (← (g.call args).traced) []
  | other => (Eval.invalidUnary "Call" other).traced

/-- Applies what binding gave to the arguments that are left. -/
def applyFrom (E : Engine) : (fuel : Nat) → Application → Traced Value
  | 0, _ => Eval.traced (throw .exhausted)
  | fuel + 1, application => do
    let (v, rest) ← (application.complete E fuel).traced
    if rest.isEmpty then return v
    let callee ← (E (.force v)).traced
    applyFrom E fuel (← bindValue E fuel callee rest)

/-- Applies a callable value. -/
def call (E : Engine) (fuel : Nat) (callee : Value) (args : List Value) : Traced Value := do
  match ← (force E fuel callee).traced with
  | .function f => applyFrom E fuel (← bindArgs E fuel f args)
  | .foreign f =>
    note (.foreign f args)
    (f.call args).traced
  | other => (Eval.invalidUnary "Call" other).traced

/-! ### Noting changes nothing -/

/-- The evaluation without its notes. -/
def outcome (x : Traced α) : Eval α := fun w =>
  (x w).2

/-- A note does not change the outcome. -/
theorem outcome_note_bind (r : Run) (f : Unit → Traced α) :
    (note r >>= f).outcome = (f ()).outcome := rfl

/-- The outcome of a sequence is the sequence of outcomes. -/
theorem outcome_bind (x : Traced α) (f : α → Traced β) :
    (x >>= f).outcome = x.outcome >>= fun a => (f a).outcome := by
  funext w
  simp only [outcome, Bind.bind, EStateM.bind]
  rcases x w with ⟨runs, _ | _⟩ <;> rfl

/-- What runs nothing leads to its own outcome. -/
theorem outcome_traced_bind (x : Eval α) (f : α → Traced β) :
    (x.traced >>= f).outcome = x >>= fun a => (f a).outcome :=
  outcome_bind _ f

/-- Noting the runs does not change what binding a function gives. -/
theorem bindArgs_outcome (E : Engine) (fuel : Nat) (f : Ref .function) (args : List Value) :
    (bindArgs E fuel f args).outcome = bind E fuel f args := by
  -- only an overload binds again, with less fuel; the rest differs by what it notes
  induction fuel generalizing f args with
  | zero => rfl
  | succ fuel ih =>
    unfold bindArgs bind
    rw [outcome_traced_bind]
    congr 1
    funext _
    rw [outcome_traced_bind]
    congr 1
    funext h
    unfold bindFunction
    dsimp only
    split
    · split
      · rfl
      · rw [outcome_traced_bind]
        rfl
    · generalize (h.function f).body = body
      cases body with
      | native code =>
        dsimp only
        rw [outcome_note_bind, outcome_traced_bind]
        rfl
      | code program chunk captures => rfl
      | overloaded table =>
        dsimp only
        rw [outcome_traced_bind]
        congr 1
        funext selected
        rw [outcome_bind, ih]
        rfl

/-- Noting the runs does not change what binding a callee gives. -/
theorem bindValue_outcome (E : Engine) (fuel : Nat) (callee : Value) (args : List Value) :
    (bindValue E fuel callee args).outcome = LazyMachine.bindValue E fuel callee args := by
  cases callee with
  | function g => exact bindArgs_outcome E fuel g args
  | foreign g =>
    rw [bindValue, outcome_note_bind, outcome_traced_bind]
    rfl
  | _ => rfl

/-- Noting the runs does not change what applying gives. -/
theorem applyFrom_outcome (E : Engine) (fuel : Nat) (a : Application) :
    (applyFrom E fuel a).outcome = LazyMachine.applyFrom E fuel a := by
  induction fuel generalizing a with
  | zero => rfl
  | succ fuel ih =>
    unfold applyFrom LazyMachine.applyFrom
    rw [outcome_traced_bind]
    congr 1
    funext ⟨v, rest⟩
    dsimp only
    split
    · rfl
    · rw [outcome_traced_bind]
      congr 1
      funext callee
      rw [outcome_bind, bindValue_outcome]
      congr 1
      funext a
      exact ih a

/-- Noting the runs does not change what calling gives. -/
theorem call_outcome (E : Engine) (fuel : Nat) (callee : Value) (args : List Value) :
    (call E fuel callee args).outcome = LazyMachine.call E fuel callee args := by
  unfold call LazyMachine.call
  rw [outcome_traced_bind]
  congr 1
  funext v
  cases v with
  | function f =>
    dsimp only
    rw [outcome_bind, bindArgs_outcome]
    unfold applyFunction
    congr 1
    funext a
    exact applyFrom_outcome E fuel a
  | foreign f => rfl
  | _ => rfl

/-! ### More fuel -/

/-- The course is the same, unless fuel is lacking. -/
def Approximates (x y : Traced α) : Prop :=
  ∀ w, x w = y w ∨ (x w).Exhausted

namespace Approximates

theorem refl (x : Traced α) : Approximates x x := fun _ => .inl rfl

theorem cut (y : Traced α) : Approximates (Eval.traced (throw .exhausted)) y :=
  fun w => .inr ⟨w, rfl⟩

/-- Approximations that run nothing approximate as courses. -/
theorem traced {x y : Eval α} (h : LazyMachine.Approximates x y) :
    Approximates x.traced y.traced := by
  intro w
  rcases h w with heq | ⟨w', heq⟩
  · exact .inl (congrArg (Prod.mk []) heq)
  · exact .inr ⟨w', heq⟩

/-- Sequences of approximations approximate sequences. -/
theorem bind {x y : Traced α} {f g : α → Traced β} (hx : Approximates x y)
    (hf : ∀ a, Approximates (f a) (g a)) : Approximates (x >>= f) (y >>= g) := by
  intro w
  rcases hx w with heq | ⟨w', hexhausted⟩
  · rcases hy : y w with ⟨runs, ⟨a, w₁⟩ | ⟨i, w₁⟩⟩
    · rw [bind_ok (heq.trans hy), bind_ok hy]
      rcases hf a w₁ with heq | ⟨w', hexhausted⟩
      · exact .inl (by rw [heq])
      · exact .inr ⟨w', hexhausted⟩
    · exact .inl (by rw [bind_error (heq.trans hy), bind_error hy])
  · rcases hx : x w with ⟨runs, r⟩
    rw [hx] at hexhausted
    cases hexhausted
    exact .inr ⟨w', by rw [bind_error hx]⟩

end Approximates

section Fuel

variable {E E' : Engine} (hE : ∀ o, LazyMachine.Approximates (E o) (E' o)) {fuel fuel' : Nat}

include hE

/-- Binding a function has the same course with more fuel. -/
theorem bindArgs_approximates (hle : fuel ≤ fuel') (f : Ref .function) (args : List Value) :
    Approximates (bindArgs E fuel f args) (bindArgs E' fuel' f args) := by
  induction fuel generalizing fuel' f args with
  | zero => exact .cut _
  | succ fuel ih =>
    obtain ⟨k, rfl⟩ := Nat.exists_eq_add_of_lt hle
    refine .bind (.refl _) fun _ => .bind (.refl _) fun h => ?_
    unfold bindFunction
    split
    · exact .refl _
    · split
      · exact .bind (.refl _) fun _ => .bind (.traced (hostCode_approximates hE _)) fun _ => .refl _
      · exact .refl _
      · refine .bind (.traced (select_approximates hE _ _)) fun selected => ?_
        exact .bind (ih (Nat.le_add_right fuel k) _ _) fun _ => .refl _

/-- Binding a callee has the same course with more fuel. -/
theorem bindValue_approximates (hle : fuel ≤ fuel') (callee : Value) (args : List Value) :
    Approximates (bindValue E fuel callee args) (bindValue E' fuel' callee args) := by
  unfold bindValue
  split
  · exact bindArgs_approximates hE hle _ _
  · exact .refl _
  · exact .refl _

/-- Applying what was bound has the same course with more fuel. -/
theorem applyFrom_approximates (hle : fuel ≤ fuel') (a : Application) :
    Approximates (applyFrom E fuel a) (applyFrom E' fuel' a) := by
  induction fuel generalizing fuel' a with
  | zero => exact .cut _
  | succ fuel ih =>
    obtain ⟨k, rfl⟩ := Nat.exists_eq_add_of_lt hle
    have hk := Nat.le_add_right fuel k
    refine .bind (.traced (complete_approximates hE hk a)) fun result => ?_
    dsimp only
    split
    · exact .refl _
    · exact .bind (.traced (hE _)) fun callee =>
        .bind (bindValue_approximates hE hk _ _) fun _ => ih hk _

end Fuel

end Traced

/-! ### Alike courses -/

/-- Runs of alike bodies with alike arguments. -/
inductive Run.Alike (ρ : Renaming) : Run → Run → Prop
  | body {b b' : Body} {args args' : List Value} (hb : b.Alike ρ b') (hargs : Values ρ args args') :
      Alike ρ (.body b args) (.body b' args')
  | foreign (f : Foreign) {args args' : List Value} (hargs : Values ρ args args') :
      Alike ρ (.foreign f args) (.foreign f args')

/-- Alike bodies are run, and the outcomes are alike. -/
structure Course.Alike (V : Renaming → α → β → Prop) (ρ : Renaming) (c : Course α) (c' : Course β) :
    Prop where
  runs : List.Forall₂ (Run.Alike ρ) c.1 c'.1
  outcome : Outcomes V ρ c.2 c'.2

/-- Courses are alike by a renaming that has grown from `ρ`, unless both reach a foreign value. -/
inductive Courses (V : Renaming → α → β → Prop) (ρ : Renaming) (c : Course α) (c' : Course β) : Prop
  | alike {σ : Renaming} (hρσ : ρ ≤ σ) (h : c.Alike V σ c')
  | foreign (h : c.ReachesForeign) (h' : c'.ReachesForeign)

/-- On alike worlds the two evaluations have alike courses. -/
def Traced.Follows (V : Renaming → α → β → Prop) (ρ : Renaming) (x : Traced α) (y : Traced β) :
    Prop :=
  ∀ w w', w.Alike ρ w' → Courses V ρ (x w) (y w')

section Alike

variable {V : Renaming → α → β → Prop} {W : Renaming → γ → δ → Prop} {ρ σ : Renaming}

theorem Run.Alike.mono (hρσ : ρ ≤ σ) {r r' : Run} (h : r.Alike ρ r') : r.Alike σ r' := by
  cases h with
  | body hb hargs => exact .body (hb.mono hρσ) (hargs.mono hρσ)
  | foreign f hargs => exact .foreign f (hargs.mono hρσ)

/-- Fuel lacks for both or for none. -/
theorem Course.Alike.exhausted_iff {c : Course α} {c' : Course β} (h : c.Alike V ρ c') :
    c.Exhausted ↔ c'.Exhausted := by
  obtain ⟨runs, r⟩ := c
  obtain ⟨runs', r'⟩ := c'
  cases h.outcome with
  | ok _ _ _ => exact iff_of_false (fun ⟨_, h⟩ => nomatch h) fun ⟨_, h⟩ => nomatch h
  | error _ _ =>
    constructor
    · rintro ⟨_, h⟩
      cases h
      exact ⟨_, rfl⟩
    · rintro ⟨_, h⟩
      cases h
      exact ⟨_, rfl⟩

theorem Courses.mono (hρσ : ρ ≤ σ) {c : Course α} {c' : Course β} (h : Courses V σ c c') :
    Courses V ρ c c' := by
  cases h with
  | alike hστ h => exact .alike (hρσ.trans hστ) h
  | foreign h h' => exact .foreign h h'

/-- More is run before. -/
theorem Courses.after (hρσ : ρ ≤ σ) {runs runs' : List Run}
    (hruns : List.Forall₂ (Run.Alike σ) runs runs') {c : Course α} {c' : Course β}
    (h : Courses V σ c c') : Courses V ρ (runs ++ c.1, c.2) (runs' ++ c'.1, c'.2) := by
  cases h with
  | alike hστ h =>
    exact .alike (hρσ.trans hστ)
      ⟨List.rel_append (hruns.imp fun _ _ h => h.mono hστ) h.runs, h.outcome⟩
  | foreign h h' =>
    obtain ⟨r, hr, hforeign⟩ := h
    obtain ⟨r', hr', hforeign'⟩ := h'
    exact .foreign ⟨r, List.mem_append_right _ hr, hforeign⟩
      ⟨r', List.mem_append_right _ hr', hforeign'⟩

namespace Traced.Follows

theorem pure {a : α} {b : β} (h : V ρ a b) :
    Follows V ρ (Pure.pure a : Traced α) (Pure.pure b) :=
  fun _ _ hw => .alike le_rfl ⟨.nil, .ok le_rfl h hw⟩

/-- Mirrored evaluations that run nothing have alike courses. -/
theorem traced {x : Eval α} {y : Eval β} (h : Mirrors V ρ x y) :
    Follows V ρ x.traced y.traced :=
  fun w w' hw => .alike le_rfl ⟨.nil, h w w' hw⟩

/-- The heaps that are looked at are alike. -/
theorem heap_bind {f : Heap → Traced α} {g : Heap → Traced β}
    (hf : ∀ h h', h.Alike ρ h' → Follows V ρ (f h) (g h')) :
    Follows V ρ (Eval.heap.traced >>= f) (Eval.heap.traced >>= g) :=
  fun w w' hw => hf _ _ hw.heap w w' hw

/-- Notes of alike runs are alike. -/
theorem note {r r' : Run} (h : r.Alike ρ r') : Follows Same ρ (note r) (note r') :=
  fun _ _ hw => .alike le_rfl ⟨.cons h .nil, .ok le_rfl rfl hw⟩

/-- Sequences of alike courses are alike; the second parts run under a grown renaming. -/
theorem bind {x : Traced α} {y : Traced β} {f : α → Traced γ} {g : β → Traced δ}
    (hx : Follows V ρ x y) (hf : ∀ σ, ρ ≤ σ → ∀ a b, V σ a b → Follows W σ (f a) (g b)) :
    Follows W ρ (x >>= f) (y >>= g) := by
  intro w w' hw
  rcases hxw : x w with ⟨runs, r⟩
  rcases hyw : y w' with ⟨runs', r'⟩
  have hcourses := hx w w' hw
  rw [hxw, hyw] at hcourses
  cases hcourses with
  | alike hρσ h =>
    obtain ⟨hruns, houtcome⟩ := h
    cases houtcome with
    -- the second parts start from worlds that are alike under the grown renaming
    | ok hστ hv hw₁ =>
      rw [bind_ok hxw, bind_ok hyw]
      exact .after (hρσ.trans hστ) (hruns.imp fun _ _ h => h.mono hστ)
        (hf _ (hρσ.trans hστ) _ _ hv _ _ hw₁)
    | error hστ hw₁ =>
      rw [bind_error hxw, bind_error hyw]
      exact .alike hρσ ⟨hruns, .error hστ hw₁⟩
  | foreign h h' =>
    rw [← hxw] at h
    rw [← hyw] at h'
    exact .foreign (reachesForeign_bind h f) (reachesForeign_bind h' g)

theorem map {x : Traced α} {y : Traced β} {f : α → γ} {g : β → δ} (hx : Follows V ρ x y)
    (hf : ∀ σ, ρ ≤ σ → ∀ a b, V σ a b → W σ (f a) (g b)) :
    Follows W ρ (x >>= fun a => Pure.pure (f a)) (y >>= fun b => Pure.pure (g b)) :=
  hx.bind fun σ hρσ a b h => .pure (hf σ hρσ a b h)

/-- A value that is the same for both is passed on. -/
theorem bind_same {x y : Traced α} {f : α → Traced γ} {g : α → Traced δ} (hx : Follows Same ρ x y)
    (hf : ∀ σ, ρ ≤ σ → ∀ a, Follows W σ (f a) (g a)) : Follows W ρ (x >>= f) (y >>= g) :=
  hx.bind fun σ hρσ a _ h => h ▸ hf σ hρσ a

end Traced.Follows

end Alike

namespace Traced

variable {E : Engine} (hE : E.Impartial) {ρ : Renaming}

include hE

/-- Binding alike functions to alike arguments takes alike courses. -/
theorem bindArgs_follows (fuel : Nat) {f f' : Ref .function} (hf : ρ.Functions f f')
    {args args' : List Value} (hargs : Values ρ args args') :
    Follows Application.Alike ρ (bindArgs E fuel f args) (bindArgs E fuel f' args') := by
  induction fuel generalizing ρ f f' args args' with
  | zero => exact .traced (.throw _)
  | succ fuel ih =>
    refine (Follows.traced .ensureLive).bind_same fun σ hρσ _ => .heap_bind fun h h' hh => ?_
    replace hf := hf.mono hρσ
    replace hargs := hargs.mono hρσ
    have hfn := hh.function hf
    unfold bindFunction
    rw [hargs.length_eq, hfn.remaining_eq, hargs.isEmpty_eq]
    split
    · split
      · exact .pure (.value (.function hf) .nil)
      · have hpartial : Function.Alike σ
            { h.function f with applied := (h.function f).applied ++ args }
            { h'.function f' with applied := (h'.function f').applied ++ args' } :=
          { hfn with applied := hfn.applied.append hargs }
        exact (Follows.traced (.makeFunction hpartial)).map fun _ _ _ _ hv => .value hv .nil
    · have hfull := hfn.applied.append (List.forall₂_take (h'.function f').remaining hargs)
      have hrest := List.forall₂_drop (h'.function f').remaining hargs
      have hbody := hfn.body
      generalize (h.function f).body = body, (h'.function f').body = body' at hbody ⊢
      cases hbody with
      | native hcode =>
        refine (Follows.note (.body (.native hcode) hfull)).bind_same fun τ hστ _ => ?_
        have hrun := hostCode_mirrors hE (hcode σ le_rfl _ _ hfull) hστ
        exact (Follows.traced hrun).map fun υ hτυ _ _ hv =>
          .value hv (Values.mono (hστ.trans hτυ) hrest)
      | code program chunk hcaptures =>
        refine (Follows.note (.body (.code program chunk hcaptures) hfull)).bind_same
          fun τ hστ _ => .pure ?_
        exact .enter program chunk (Values.mono hστ (hcaptures.append hfull))
          (Values.mono hστ hrest)
      | overloaded htable =>
        refine (Follows.traced (select_mirrors hE htable hfull)).bind
          fun τ hστ chosen chosen' hchosen => ?_
        exact (ih hchosen.1 hchosen.2).map fun υ hτυ _ _ ha =>
          ha.withRest (Values.mono (hστ.trans hτυ) hrest)

/-- Binding alike callees to alike arguments takes alike courses. -/
theorem bindValue_follows (fuel : Nat) {callee callee' : Value} (hcallee : callee.Alike ρ callee')
    {args args' : List Value} (hargs : Values ρ args args') :
    Follows Application.Alike ρ (bindValue E fuel callee args)
      (bindValue E fuel callee' args') := by
  cases hcallee with
  | list h => exact .traced (.fail _)
  | function hf => exact bindArgs_follows hE fuel hf hargs
  | @same callee h =>
    cases callee with
    | foreign g =>
      refine (Follows.note (.foreign g hargs)).bind_same fun σ hρσ _ => ?_
      exact (Follows.traced (foreignCall_mirrors g (hargs.mono hρσ))).map fun _ _ _ _ hv =>
        .value hv .nil
    | list _ | function _ => contradiction
    | _ => exact .traced (.fail _)

/-- Applying alike applications takes alike courses. -/
theorem applyFrom_follows (fuel : Nat) {a a' : Application} (ha : a.Alike ρ a') :
    Follows Value.Alike ρ (applyFrom E fuel a) (applyFrom E fuel a') := by
  induction fuel generalizing ρ a a' with
  | zero => exact .traced (.throw _)
  | succ fuel ih =>
    refine (Follows.traced (complete_mirrors hE fuel ha)).bind fun σ hρσ r r' hr => ?_
    obtain ⟨v, rest⟩ := r
    obtain ⟨v', rest'⟩ := r'
    obtain ⟨hv, hrest⟩ := hr
    dsimp only
    rw [Values.isEmpty_eq hrest]
    split
    · exact .pure hv
    · refine (Follows.traced (hE σ _ _ (.force hv))).bind fun τ hστ callee callee' hcallee => ?_
      exact (bindValue_follows hE fuel hcallee (Values.mono hστ hrest)).bind fun _ _ _ _ ha => ih ha

end Traced

/-! ### Calls -/

/-- The course of a call at a level: what it runs, and the outcome of the operation. -/
def Traced.ofCall (level : Nat) (callee : Value) (args : List Value) : Traced Value := fun w =>
  ((Traced.call (engine level) level callee args w).1, engine (level + 1) (.call callee args) w)

/-- The course of a call is what the call notes. -/
theorem Traced.ofCall_eq (level : Nat) (callee : Value) (args : List Value) :
    Traced.ofCall level callee args = Traced.call (engine level) level callee args := by
  funext w
  have houtcome := congrFun (call_outcome (engine level) level callee args) w
  exact Prod.ext rfl houtcome.symm

end LazyMachine
