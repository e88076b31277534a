import LazyMachine.Proofs.Equality
import LazyMachine.Proofs.Level

/-!
# Rendering evaluated data

Data whose thunks all have values has a text, however it is shared and whatever cycles it has:
rendering ends on it, and fails only at a floating-point number for which the format has no radix
(`render_total`). The format must not be wide, or else a number that has digits crashes the host
(`render_wide`).

* `Heap.plainText` is the text by plain recursion, without a record of the objects around a value.
  It ends where the data is acyclic. Of a list it writes as many elements as the format wants and a
  mark for the others, if there are any.
* `Heap.Shows` follows a value to the parts that a format shows.
* `Heap.Clear` says that nothing reachable is among the objects around a value. It holds of acyclic
  data at the start and of the parts of what is clear, so acyclic data is never taken for a cycle,
  however often an object is shared.

Rendering ends because an object around a value is not entered again; `Heap.allowance` is the fuel
that this takes.
-/

namespace LazyMachine

variable {α β : Type}

/-- A floating-point number. -/
def Value.IsFloat : Value → Prop
  | .single _ => True
  | .double _ => True
  | _ => False

/-- The address under which an object is known while its parts are written. -/
def Value.site? : Value → Option Address
  | .list (some c) => some (.node .cell c.index)
  | .record r => some (.node .record r.index)
  | .variant v => some (.node .variant v.index)
  | _ => none

/-- An address tells the object. -/
theorem Value.site?_inj {v u : Value} {a : Address} (hv : v.site? = some a)
    (hu : u.site? = some a) : u = v := by
  have ref_eq {kind : NodeKind} {a b : Ref kind} (hab : a.index = b.index) : a = b := by
    cases a
    cases b
    exact congrArg _ hab
  unfold Value.site? at hv hu
  split at hv <;> split at hu <;> cases hv <;> simp at hu <;> simp [ref_eq hu]

namespace Heap

/-! ### Plain recursion -/

/-- The elements of a list; `none` for lack of fuel, and for what is no list. -/
def elements (h : Heap) : (fuel : Nat) → Option (Ref .cell) → Option (List Value)
  | 0, _ => none
  | _ + 1, none => some []
  | fuel + 1, some c =>
    match h.resolve (h.cell c).tail with
    | .list rest => (h.elements fuel rest).map ((h.cell c).head :: ·)
    | _ => none

/-- As many of the elements as a limit allows, written by `text`, and a mark for the others. -/
def plainItems (mark : String) (text : Value → ExceptT RuntimeError Option String)
    (limit : Option Nat) (vs : List Value) : ExceptT RuntimeError Option (List String) := do
  let shown := match limit with
    | some n => vs.take n
    | none => vs
  let texts ← shown.mapM text
  return texts ++ if shown.length < vs.length then [mark] else []

/-- The fields in order, written by `text`. -/
def plainNamed (text : Value → ExceptT RuntimeError Option String)
    (fields : List (String × Value)) : ExceptT RuntimeError Option (List String) :=
  fields.mapM fun (name, v) => return name ++ " = " ++ (← text v)

/-- A floating-point number, for which only the decimal radix is fit. -/
def plainFloat (format : Format) (v : Value) (text : String) :
    ExceptT RuntimeError Option String :=
  if format.radix = .decimal then return text
  else throw (.invalidFormat format.spec v.typeName)

/-- The text of a value by plain recursion; `none` for lack of fuel. -/
def plainText (h : Heap) (mark : String) (format : Format) :
    (fuel : Nat) → (nested : Bool) → Value → ExceptT RuntimeError Option String
  | 0, _, _ => .mk none
  | fuel + 1, nested, v =>
    match h.resolve v with
    | .unit => return "()"
    | .int i => return Render.integer format.radix 32 i.toInt
    | .long i => return Render.integer format.radix 64 i.toInt
    | .single x => plainFloat format (.single x)
        (Render.float format.style (Render.singleLayout.write (.ofSingle x)) (.ofDouble x.toFloat))
    | .double x => plainFloat format (.double x)
        (Render.float format.style (Render.doubleLayout.write (.ofDouble x)) (.ofDouble x))
    | .bool b => return if b then "true" else "false"
    | .char c =>
      return if nested || format.quoteStrings then Text.quoteChar c else String.singleton c
    | .str s => return if nested || format.quoteStrings then Text.quote s.text else s.text
    | .list first => do
      let vs ← ExceptT.lift (h.elements fuel first)
      let texts ← plainItems mark (h.plainText mark format fuel true) format.maxItems vs
      return Text.listed texts
    | .record r => do
      let texts ← plainNamed (h.plainText mark format fuel true) (h.record r).fields
      return Text.braced texts
    | .variant c => do
      let payload := h.resolve (h.variant c).payload
      if payload.isUnit then return (h.variant c).tag.text
      let wrap ← ExceptT.lift (Render.needsParentheses? h payload)
      let text ← h.plainText mark format fuel true payload
      return (h.variant c).tag.text ++ " " ++ if wrap then "(" ++ text ++ ")" else text
    | .lazy _ => return "<lazy>"
    | .function f =>
      return "<function " ++ (h.function f).name ++ "/" ++ toString (h.function f).remaining ++ ">"
    | .module m => return "<module " ++ (h.module m).name ++ ">"
    | .typeInfo t => return "<type " ++ t.name ++ ">"
    | .foreign f => return Render.foreign format f

/-! ### What is shown -/

/-- The element of a list at a position. -/
inductive Element (h : Heap) : Option (Ref .cell) → Nat → Value → Prop
  | here (c : Ref .cell) : Element h (some c) 0 (h.cell c).head
  | next {c : Ref .cell} {rest : Option (Ref .cell)} {i : Nat} {v : Value}
      (htail : h.resolve (h.cell c).tail = .list rest) (hv : Element h rest i v) :
      Element h (some c) (i + 1) v

/-- The text of `u` is part of the text of `v`. -/
inductive ShownPart (h : Heap) (format : Format) (v : Value) : Value → Prop
  | element {first : Option (Ref .cell)} {i : Nat} {u : Value} (hv : h.resolve v = .list first)
      (hu : h.Element first i u) (hi : ∀ n, format.maxItems = some n → i < n) :
      ShownPart h format v u
  | field {r : Ref .record} {x : String × Value} (hv : h.resolve v = .record r)
      (hx : x ∈ (h.record r).fields) : ShownPart h format v x.2
  | payload {c : Ref .variant} (hv : h.resolve v = .variant c) :
      ShownPart h format v (h.variant c).payload

/-- The text of `u` is part of the text of `v`, or of that of one of its parts and so on. -/
abbrev Shows (h : Heap) (format : Format) : Value → Value → Prop :=
  Relation.ReflTransGen (h.ShownPart format)

/-- The format has no radix for a floating-point number that is shown of `v`, and `e` says so. -/
def Unfit (h : Heap) (format : Format) (v : Value) (e : RuntimeError) : Prop :=
  format.radix ≠ .decimal ∧ ∃ u, h.Shows format v u ∧ (h.resolve u).IsFloat ∧
    e = .invalidFormat format.spec (h.resolve u).typeName

variable {h : Heap} {format : Format} {v u : Value} {e : RuntimeError}

/-- A number that is unfit for the format is one wherever it is shown. -/
theorem Unfit.of_part (hu : h.Unfit format u e) (hpart : h.ShownPart format v u) :
    h.Unfit format v e := by
  obtain ⟨hradix, x, hx, hfloat, he⟩ := hu
  exact ⟨hradix, x, .head hpart hx, hfloat, he⟩

theorem ShownPart.congr {v' : Value} (hv : h.resolve v' = h.resolve v)
    (hpart : h.ShownPart format v' u) : h.ShownPart format v u := by
  cases hpart with
  | element hlist hu hi => exact .element (hv ▸ hlist) hu hi
  | field hrecord hx => exact .field (hv ▸ hrecord) hx
  | payload hvariant => exact .payload (hv ▸ hvariant)

theorem Unfit.congr {v' : Value} (hv : h.resolve v' = h.resolve v) (hu : h.Unfit format v' e) :
    h.Unfit format v e := by
  obtain ⟨hradix, x, hx, hfloat, he⟩ := hu
  rcases Relation.ReflTransGen.cases_head hx with rfl | ⟨y, hy, hyx⟩
  · exact ⟨hradix, v, .refl, hv ▸ hfloat, hv ▸ he⟩
  · exact ⟨hradix, x, .head (hy.congr hv) hyx, hfloat, he⟩

/-! ### Objects around a value -/

variable {seen : List Address} {a : Address}

/-- The number of objects that are not around a value. -/
def unentered (h : Heap) (seen : List Address) : Nat :=
  (h.nodes \ seen.toFinset).card

/-- The fuel for entering every other object, and for the fields in between. -/
def allowance (h : Heap) (seen : List Address) : Nat :=
  h.unentered seen * (h.widest + 3)

/-- Entering an object takes its share of the allowance. -/
theorem allowance_cons (ha : v.site? = some a) (hv : h.Holds v) (hseen : a ∉ seen) :
    h.allowance (a :: seen) + h.widest + 3 ≤ h.allowance seen := by
  have hnode : a ∈ h.nodes := by
    unfold Value.site? at ha
    split at ha <;> cases ha <;> simp_all [nodes, Holds]
  have hlt : h.unentered (a :: seen) < h.unentered seen := by
    -- the object that is entered is one of those that were left
    refine Finset.card_lt_card ?_
    rw [List.toFinset_cons, Finset.sdiff_insert]
    exact Finset.erase_ssubset (Finset.mem_sdiff.mpr ⟨hnode, by simpa using hseen⟩)
  calc h.allowance (a :: seen) + h.widest + 3 = (h.unentered (a :: seen) + 1) * (h.widest + 3) := by
        rw [allowance, Nat.succ_mul, Nat.add_assoc]
    _ ≤ h.allowance seen := Nat.mul_le_mul_right _ hlt

/-- The value is acyclic, and nothing that it reaches is around it. -/
structure Clear (h : Heap) (seen : List Address) (v : Value) : Prop where
  acyclic : h.Acyclic v
  apart : ∀ u a, h.Reaches v u → u.site? = some a → a ∉ seen

/-- Acyclic data is not part of itself. -/
theorem Acyclic.not_part_of_itself (hv : h.Acyclic v) (hpart : h.Part v u) : ¬ h.Reaches u v := by
  induction hv generalizing u with
  | intro v _ ih =>
    intro hreach
    -- the path goes on from `u` to `v` and back to `u`, so `u` would be a part of itself as well
    rcases Relation.ReflTransGen.cases_head hreach with rfl | ⟨x, hx, hxv⟩
    · exact ih _ hpart hpart .refl
    · exact ih u hpart hx (hxv.tail hpart)

namespace Clear

/-- On acyclic data the path is clear at the start. -/
theorem start (hv : h.Acyclic v) : h.Clear [] v :=
  ⟨hv, fun _ _ _ _ => List.not_mem_nil⟩

/-- The path stays clear on the way down. -/
theorem of_reaches (hv : h.Clear seen v) (hu : h.Reaches v u) : h.Clear seen u where
  acyclic := by
    induction hu with
    | refl => exact hv.acyclic
    | tail _ hpart ih => exact ih.inv hpart
  apart x a hx ha := hv.apart x a (hu.trans hx) ha

/-- What is clear stays so when the object that it is a part of is entered. -/
theorem enter (hv : h.Clear seen v) (ha : v.site? = some a) (hpart : h.Part v u) :
    h.Clear (a :: seen) u where
  acyclic := hv.acyclic.inv hpart
  apart x b hx hb := by
    rw [List.mem_cons, not_or]
    constructor
    · -- a part from which the object can be reached again would make it part of itself
      rintro rfl
      cases Value.site?_inj ha hb
      exact hv.acyclic.not_part_of_itself hpart hx
    · exact hv.apart x b (.head hpart hx) hb

end Clear

end Heap

/-! ### Answers for all fuels from some on -/

/-- With enough fuel, the answer of `f` is `r`. -/
def Answers (f : Nat → ExceptT RuntimeError Option α) (r : Except RuntimeError α) : Prop :=
  ∃ enough, ∀ fuel, enough ≤ fuel → (f fuel).run = some r

namespace Answers

variable {f : Nat → ExceptT RuntimeError Option α} {r : Except RuntimeError α}

theorem pure (a : α) : Answers (fun _ => Pure.pure a) (.ok a) :=
  ⟨0, fun _ _ => rfl⟩

/-- What is said of one more unit of fuel. -/
theorem succ (hf : Answers (fun fuel => f (fuel + 1)) r) : Answers f r := by
  obtain ⟨enough, henough⟩ := hf
  refine ⟨enough + 1, fun fuel hfuel => ?_⟩
  obtain ⟨k, rfl⟩ := Nat.exists_eq_add_of_le' (Nat.le_of_add_left_le hfuel)
  exact henough k (by omega)

/-- Answers one after the other. -/
theorem bind {g : Nat → α → ExceptT RuntimeError Option β} {a : α} {s : Except RuntimeError β}
    (hf : Answers f (.ok a)) (hg : Answers (fun fuel => g fuel a) s) :
    Answers (fun fuel => f fuel >>= g fuel) s := by
  obtain ⟨n, hn⟩ := hf
  obtain ⟨m, hm⟩ := hg
  refine ⟨max n m, fun fuel hfuel => ?_⟩
  rw [ExceptT.run_bind, hn fuel (by omega)]
  exact hm fuel (by omega)

/-- An error is the answer of the whole. -/
theorem bind_error {g : Nat → α → ExceptT RuntimeError Option β} {e : RuntimeError}
    (hf : Answers f (.error e)) : Answers (fun fuel => f fuel >>= g fuel) (.error e) := by
  obtain ⟨n, hn⟩ := hf
  refine ⟨n, fun fuel hfuel => ?_⟩
  rw [ExceptT.run_bind, hn fuel hfuel]
  rfl

end Answers

/-! ### Lists and fields by plain recursion -/

namespace Heap

variable {h : Heap} {format : Format} {mark : String}

/-- With enough fuel, the elements of a list are `vs`. -/
def Listed (h : Heap) (first : Option (Ref .cell)) (vs : List Value) : Prop :=
  ∃ enough, ∀ fuel, enough ≤ fuel → h.elements fuel first = some vs

/-- The empty list has no elements. -/
theorem listed_none : h.Listed none [] := by
  refine ⟨1, fun fuel hfuel => ?_⟩
  obtain ⟨k, rfl⟩ := Nat.exists_eq_add_of_le' hfuel
  rfl

/-- A cell puts its head in front. -/
theorem Listed.cons {c : Ref .cell} {rest : Option (Ref .cell)} {vs : List Value}
    (htail : h.resolve (h.cell c).tail = .list rest) (hvs : h.Listed rest vs) :
    h.Listed (some c) ((h.cell c).head :: vs) := by
  obtain ⟨enough, henough⟩ := hvs
  refine ⟨enough + 1, fun fuel hfuel => ?_⟩
  obtain ⟨k, rfl⟩ := Nat.exists_eq_add_of_le' (Nat.le_of_add_left_le hfuel)
  rw [elements, htail]
  dsimp only
  rw [henough k (by omega)]
  rfl

/-- The elements behind the first are those of the rest. -/
theorem Listed.of_cons {c : Ref .cell} {rest : Option (Ref .cell)} {vs : List Value}
    (htail : h.resolve (h.cell c).tail = .list rest) (hvs : h.Listed (some c) vs) :
    ∃ vs', vs = (h.cell c).head :: vs' ∧ h.Listed rest vs' := by
  obtain ⟨enough, henough⟩ := hvs
  have hsome (fuel : Nat) (hfuel : enough ≤ fuel) :
      (h.elements fuel rest).map ((h.cell c).head :: ·) = some vs := by
    have := henough (fuel + 1) (by omega)
    rwa [elements, htail] at this
  obtain ⟨vs', -, rfl⟩ := Option.map_eq_some_iff.mp (hsome enough (Nat.le_refl _))
  refine ⟨vs', rfl, enough, fun fuel hfuel => ?_⟩
  obtain ⟨vs₁, hvs₁, heq⟩ := Option.map_eq_some_iff.mp (hsome fuel hfuel)
  rw [hvs₁, (List.cons_inj_right _).mp heq]

/-- An acyclic list that goes on with lists has finitely many elements. -/
theorem Acyclic.exists_listed {v : Value} (hv : h.Acyclic v) (hc : h.Comparable v)
    {first : Option (Ref .cell)} (hfirst : v = .list first) : ∃ vs, h.Listed first vs := by
  -- the next cell may be several links away, so the induction is over the transitive closure
  have hacc := Acc.transGen hv
  clear hv
  induction hacc generalizing first with
  | intro v _ ih =>
    subst hfirst
    cases first with
    | none => exact ⟨[], listed_none⟩
    | some c =>
      obtain ⟨rest, hrest⟩ := hc.spine c .refl
      have hreach : h.Reaches (h.cell c).tail (.list rest) := hrest ▸ h.reaches_resolve _
      have hbelow := Relation.transGen_swap.mpr (Relation.TransGen.head' (Part.tail c) hreach)
      obtain ⟨vs, hvs⟩ := ih _ hbelow ((hc.part (.tail c)).of_reaches hreach) rfl
      exact ⟨_, hvs.cons hrest⟩

/-- Nothing is shown beyond the limit. -/
theorem plainItems_beyond (text : Value → ExceptT RuntimeError Option String) {format : Format}
    {shown n : Nat} (hmax : format.maxItems = some n) (hle : n ≤ shown) (v : Value)
    (vs : List Value) :
    plainItems mark text (format.maxItems.map (· - shown)) (v :: vs) = return [mark] := by
  simp [plainItems, hmax, Nat.sub_eq_zero_of_le hle]

/-- Within the limit the head is shown, and the rest within one less. -/
theorem plainItems_within (text : Value → ExceptT RuntimeError Option String) {format : Format}
    {shown : Nat} (hroom : ∀ n, format.maxItems = some n → shown < n) (v : Value)
    (vs : List Value) :
    plainItems mark text (format.maxItems.map (· - shown)) (v :: vs) = do
      let t ← text v
      let ts ← plainItems mark text (format.maxItems.map (· - (shown + 1))) vs
      return t :: ts := by
  cases hmax : format.maxItems with
  | none => simp [plainItems]
  | some n =>
    obtain ⟨k, rfl⟩ := Nat.exists_eq_add_of_le (hroom n hmax)
    have hleft : shown + 1 + k - shown = k + 1 := by omega
    have hrest : shown + 1 + k - (shown + 1) = k := by omega
    simp [plainItems, hleft, hrest]

/-- A field is shown with its name. -/
theorem plainNamed_cons (text : Value → ExceptT RuntimeError Option String) (name : String)
    (v : Value) (fields : List (String × Value)) :
    plainNamed text ((name, v) :: fields) = do
      let t ← text v
      let ts ← plainNamed text fields
      return (name ++ " = " ++ t) :: ts := by
  simp [plainNamed]

end Heap

/-! ### Rendering -/

/-- On `w` the evaluation `x` yields a value or fails, as `G` has it, and changes nothing but for
the record of the failure, unless the fuel is short. -/
def Outputs (w : World) (short : Prop) (G : Except RuntimeError α → Prop) (x : Eval α) : Prop :=
  Leads x w fun r w' => match r with
    | .ok a => w' = w ∧ G (.ok a)
    | .error .failed => ∃ e, w' = { w with context := w.context.fail e } ∧ G (.error e)
    | .error .exhausted => short
    | .error _ => False

namespace Outputs

variable {w : World} {short : Prop} {G : Except RuntimeError α → Prop} {x : Eval α}

theorem pure {a : α} (ha : G (.ok a)) : Outputs w short G (Pure.pure a) :=
  ⟨rfl, ha⟩

theorem fail {e : RuntimeError} (he : G (.error e)) : Outputs w short G (Eval.fail e) :=
  ⟨e, rfl, he⟩

theorem cut (hshort : short) : Outputs w short G (throw .exhausted) :=
  hshort

theorem heap {f : Heap → Eval α} (hf : Outputs w short G (f w.heap)) :
    Outputs w short G (Eval.heap >>= f) :=
  hf

/-- What is found is on the heap as it was. -/
theorem find {f : Heap → Option β} {b : β} (hb : f w.heap = some b) {g : β → Eval α}
    (hg : Outputs w short G (g b)) : Outputs w short G (Eval.find f >>= g) := by
  simpa only [Outputs, leads_bind, leads_find, hb] using hg

/-- Forcing gives what a value resolves to. -/
theorem force {ev : Evaluator} (hev : ev.Reads w) {v : Value}
    (hv : (w.heap.resolve v).isLazy = false) {f : Value → Eval α}
    (hf : Outputs w short G (f (w.heap.resolve v))) : Outputs w short G (ev.force v >>= f) := by
  simp only [Outputs, leads_bind]
  exact hev v hv _ hf

/-- Going on along the spine of a list that goes on with lists. -/
theorem next {ev : Evaluator} (hev : ev.Reads w) {c : Ref .cell}
    (hc : w.heap.Comparable (.list (some c))) {f : Option (Ref .cell) → Eval α}
    (hf : ∀ rest, w.heap.resolve (w.heap.cell c).tail = .list rest →
      w.heap.Comparable (.list rest) → Outputs w short G (f rest)) :
    Outputs w short G (Spine.next ev c >>= f) := by
  simp only [Outputs, leads_bind]
  exact leads_next hev hc hf

/-- A failure or lack of fuel of the first part is one of the whole. -/
theorem bind {short' : Prop} {G' : Except RuntimeError β → Prop} {f : α → Eval β}
    (hx : Outputs w short G x) (hshort : short → short') (hfail : ∀ e, G (.error e) → G' (.error e))
    (hf : ∀ a, G (.ok a) → Outputs w short' G' (f a)) : Outputs w short' G' (x >>= f) := by
  simp only [Outputs, leads_bind]
  refine hx.imp fun r w' hr => ?_
  cases r with
  | ok a =>
    obtain ⟨rfl, ha⟩ := hr
    exact hf a ha
  | error i =>
    cases i with
    | failed =>
      obtain ⟨e, he, hG⟩ := hr
      exact ⟨e, he, hfail e hG⟩
    | exhausted => exact hshort hr
    | suspended | crashed => exact hr

/-- Weaker demands are met by the same evaluation. -/
theorem mono {short' : Prop} {G' : Except RuntimeError α → Prop} (hx : Outputs w short G x)
    (hshort : short → short') (hG : ∀ r, G r → G' r) : Outputs w short' G' x := by
  refine hx.imp fun r w' hr => ?_
  cases r with
  | ok a => exact ⟨hr.1, hG _ hr.2⟩
  | error i =>
    cases i with
    | failed =>
      obtain ⟨e, he, hr⟩ := hr
      exact ⟨e, he, hG _ hr⟩
    | exhausted => exact hshort hr
    | suspended | crashed => exact hr

end Outputs

section Rendering

variable {ev : Evaluator} {w : World} {format : Format} {seen : List Address}

/-- The mark stands for elements that are left out, if there can be any. -/
def Format.Marks (format : Format) (mark : String) : Prop :=
  mark = "..." ∨ format.maxItems = none

/-- What a value comes to when it is written: a failure only if the format is unfit for it, and
otherwise the text by plain recursion, if it is clear. -/
structure TextOf (h : Heap) (format : Format) (nested : Bool) (seen : List Address)
    (v : Value) (r : Except RuntimeError String) : Prop where
  fair : ∀ e, r = .error e → h.Unfit format v e
  plain : h.Clear seen v → ∀ mark, format.Marks mark →
    Answers (fun fuel => h.plainText mark format fuel nested v) r

/-- What fields come to. -/
structure FieldsOf (h : Heap) (format : Format) (seen : List Address)
    (fields : List (String × Value)) (r : Except RuntimeError (List String)) : Prop where
  fair : ∀ e, r = .error e → ∃ x ∈ fields, h.Unfit format x.2 e
  plain : (∀ x ∈ fields, h.Clear seen x.2) → ∀ mark, format.Marks mark →
    Answers (fun fuel => Heap.plainNamed (h.plainText mark format fuel true) fields) r

/-- What the elements of a list come to, of which `shown` have been written already. -/
structure ItemsOf (h : Heap) (format : Format) (shown : Nat) (seen : List Address)
    (first : Option (Ref .cell)) (r : Except RuntimeError (List String)) : Prop where
  fair : ∀ e, r = .error e → ∃ i u, h.Element first i u ∧
    (∀ n, format.maxItems = some n → shown + i < n) ∧ h.Unfit format u e
  plain : h.Clear seen (.list first) → ∀ mark, format.Marks mark → ∀ vs, h.Listed first vs →
    Answers (fun fuel => Heap.plainItems mark (h.plainText mark format fuel true)
      (format.maxItems.map (· - shown)) vs) r

/-- What rendering does with an amount of fuel. -/
structure RendersWith (ev : Evaluator) (w : World) (format : Format) (fuel : Nat) :
    Prop where
  value : ∀ nested seen v, w.heap.Comparable v →
    Outputs w (fuel < w.heap.allowance seen + 2) (TextOf w.heap format nested seen v)
      (Render.value ev format fuel nested seen v)
  fields : ∀ seen fields, (∀ x ∈ fields, w.heap.Comparable x.2) →
    Outputs w (fuel < w.heap.allowance seen + fields.length + 3)
      (FieldsOf w.heap format seen fields) (Render.fields ev format fuel seen fields)
  items : ∀ shown seen first, w.heap.Comparable (.list first) →
    Outputs w (fuel < w.heap.allowance seen + 1) (ItemsOf w.heap format shown seen first)
      (Render.items ev format fuel shown seen first)

/-- The fields are shown one by one. -/
theorem fields_rendered {fuel : Nat} (ih : RendersWith ev w format fuel)
    {fields : List (String × Value)} (hfields : ∀ x ∈ fields, w.heap.Comparable x.2) :
    Outputs w (fuel + 1 < w.heap.allowance seen + fields.length + 3)
      (FieldsOf w.heap format seen fields) (Render.fields ev format (fuel + 1) seen fields) := by
  match fields with
  | [] =>
    exact .pure ⟨by rintro _ ⟨⟩, fun _ _ _ => ⟨0, fun _ _ => rfl⟩⟩
  | (name, v) :: fields =>
    rw [Render.fields]
    refine (ih.value true seen v (hfields _ List.mem_cons_self)).bind ?_ (fun e he => ?_)
      fun text htext => ?_
    · rw [List.length_cons]
      omega
    · -- the first field fails
      refine ⟨?_, fun hclear mark hmark => ?_⟩
      · rintro _ ⟨⟩
        exact ⟨_, List.mem_cons_self, he.fair e rfl⟩
      · simp only [Heap.plainNamed_cons]
        exact (he.plain (hclear _ List.mem_cons_self) mark hmark).bind_error
    · refine (ih.fields seen fields fun x hx => hfields x (List.mem_cons_of_mem _ hx)).bind ?_
        (fun e he => ?_) fun texts htexts => .pure ?_
      · rw [List.length_cons]
        omega
      · -- the first field has a text, and a later one fails
        refine ⟨?_, fun hclear mark hmark => ?_⟩
        · rintro _ ⟨⟩
          obtain ⟨x, hx, hunfit⟩ := he.fair e rfl
          exact ⟨x, List.mem_cons_of_mem _ hx, hunfit⟩
        · simp only [Heap.plainNamed_cons]
          refine (htext.plain (hclear _ List.mem_cons_self) mark hmark).bind ?_
          exact (he.plain (fun x hx => hclear x (List.mem_cons_of_mem _ hx)) mark hmark).bind_error
      · refine ⟨by rintro _ ⟨⟩, fun hclear mark hmark => ?_⟩
        simp only [Heap.plainNamed_cons]
        refine (htext.plain (hclear _ List.mem_cons_self) mark hmark).bind ?_
        have hrest := htexts.plain (fun x hx => hclear x (List.mem_cons_of_mem _ hx)) mark hmark
        exact hrest.bind (.pure _)

/-- A list is cut short only beyond the limit, since what is clear is not around itself. -/
theorem itemsOf_cut {h : Heap} {shown : Nat} {c : Ref .cell} {rest : Option (Ref .cell)}
    (hrest : h.resolve (h.cell c).tail = .list rest)
    (hcut : format.maxItems.any (· ≤ shown) || seen.contains (Address.node .cell c.index)) :
    ItemsOf h format shown seen (some c) (.ok ["..."]) := by
  refine ⟨by rintro _ ⟨⟩, fun hclear mark hmark vs hvs => ?_⟩
  have hseen := hclear.apart _ _ .refl rfl
  obtain ⟨n, hn, hle⟩ : ∃ n, format.maxItems = some n ∧ n ≤ shown := by
    simpa [hseen, Option.any_eq_true] using hcut
  obtain ⟨vs', rfl, -⟩ := hvs.of_cons hrest
  have hmark : mark = "..." := hmark.resolve_right (by simp [hn])
  simp only [Heap.plainItems_beyond _ hn hle, hmark]
  exact .pure _

/-- So are the elements, as far as they are shown at all. -/
theorem items_rendered {fuel : Nat} (hev : ev.Reads w) (ih : RendersWith ev w format fuel)
    {shown : Nat} {first : Option (Ref .cell)}
    (hfirst : w.heap.Comparable (.list first)) :
    Outputs w (fuel + 1 < w.heap.allowance seen + 1) (ItemsOf w.heap format shown seen first)
      (Render.items ev format (fuel + 1) shown seen first) := by
  cases first with
  | none =>
    refine .pure ⟨by rintro _ ⟨⟩, fun _ _ _ vs hvs => ?_⟩
    obtain ⟨enough, henough⟩ := hvs
    have hnil := henough (enough + 1) (by omega)
    cases hnil
    refine ⟨0, fun fuel _ => ?_⟩
    cases format.maxItems <;> simp [Heap.plainItems]
  | some c =>
    obtain ⟨rest, hrest⟩ := hfirst.spine c .refl
    rw [Render.items]
    split
    · next hcut => exact .pure (itemsOf_cut hrest hcut)
    · next hcut =>
      obtain ⟨hlimit, hseen⟩ : format.maxItems.any (· ≤ shown) = false ∧
          Address.node .cell c.index ∉ seen := by
        simpa using hcut
      have hroom (n : Nat) (hn : format.maxItems = some n) : shown < n := by
        simpa [hn] using hlimit
      -- the cell is entered, and what that leaves of the allowance is enough for head and rest
      have hbudget := Heap.allowance_cons (h := w.heap) (v := .list (some c)) rfl
        (hfirst.held _ .refl) hseen
      have hhead (hclear : w.heap.Clear seen (.list (some c))) :
          w.heap.Clear (.node .cell c.index :: seen) (w.heap.cell c).head :=
        hclear.enter rfl (.head c)
      have htail (hclear : w.heap.Clear seen (.list (some c))) :
          w.heap.Clear (.node .cell c.index :: seen) (.list rest) :=
        (hclear.enter rfl (.tail c)).of_reaches (hrest ▸ w.heap.reaches_resolve _)
      refine .heap ((ih.value true (.node .cell c.index :: seen) _ (hfirst.part (.head c))).bind
        (by omega) (fun e he => ?_) fun text htext => .next hev hfirst fun rest' hrest' hcomp => ?_)
      · -- the head fails
        refine ⟨?_, fun hclear mark hmark vs hvs => ?_⟩
        · rintro _ ⟨⟩
          exact ⟨0, _, .here c, hroom, he.fair e rfl⟩
        · obtain ⟨vs', rfl, -⟩ := hvs.of_cons hrest
          simp only [Heap.plainItems_within _ hroom]
          exact (he.plain (hhead hclear) mark hmark).bind_error
      · obtain rfl : rest = rest' := by
          rw [hrest] at hrest'
          cases hrest'
          rfl
        refine (ih.items (shown + 1) (.node .cell c.index :: seen) rest hcomp).bind (by omega)
          (fun e he => ?_) fun texts htexts => .pure ?_
        · -- the head has a text, and something in the rest fails
          refine ⟨?_, fun hclear mark hmark vs hvs => ?_⟩
          · rintro _ ⟨⟩
            obtain ⟨i, u, hu, hi, hunfit⟩ := he.fair e rfl
            exact ⟨i + 1, u, .next hrest hu, fun n hn => by have := hi n hn; omega, hunfit⟩
          · obtain ⟨vs', rfl, hvs'⟩ := hvs.of_cons hrest
            simp only [Heap.plainItems_within _ hroom]
            refine (htext.plain (hhead hclear) mark hmark).bind ?_
            exact (he.plain (htail hclear) mark hmark vs' hvs').bind_error
        · refine ⟨by rintro _ ⟨⟩, fun hclear mark hmark vs hvs => ?_⟩
          obtain ⟨vs', rfl, hvs'⟩ := hvs.of_cons hrest
          simp only [Heap.plainItems_within _ hroom]
          refine (htext.plain (hhead hclear) mark hmark).bind ?_
          exact (htexts.plain (htail hclear) mark hmark vs' hvs').bind (.pure _)

/-- Whether a comparable value needs parentheses is found at once. -/
theorem Heap.Comparable.exists_needsParentheses? {h : Heap} {v : Value} (hv : h.Comparable v) :
    ∃ wrap, Render.needsParentheses? h v = some wrap := by
  cases v with
  | variant c =>
    have hpayload := hv.evaluated _ (.single (.payload c))
    exact ⟨_, congrArg (Option.map _) (Heap.resolve?_of_evaluated hpayload)⟩
  | _ => exact ⟨false, rfl⟩

/-- A record is shown by its fields, unless it is shown already further out. -/
theorem records_rendered {fuel : Nat} (ih : RendersWith ev w format fuel) {nested : Bool}
    {v : Value} {r : Ref .record} (hv : w.heap.Comparable v) (hr : w.heap.resolve v = .record r) :
    Outputs w (fuel + 1 < w.heap.allowance seen + 2) (TextOf w.heap format nested seen v) (do
      let address := Address.node .record r.index
      if seen.contains address then return "..."
      let record := (← Eval.heap).record r
      return Text.braced (← Render.fields ev format fuel (address :: seen) record.fields)) := by
  have hreach : w.heap.Reaches v (.record r) := hr ▸ w.heap.reaches_resolve v
  have hrecord := hv.of_reaches hreach
  dsimp only
  split
  · next hseen =>
    refine .pure ⟨by rintro _ ⟨⟩, fun hclear _ _ => ?_⟩
    exact absurd (by simpa using hseen) (hclear.apart _ _ hreach rfl)
  · next hseen =>
    have hbudget := Heap.allowance_cons (h := w.heap) (v := .record r) rfl
      (hrecord.held _ .refl) (by simpa using hseen)
    -- each field takes a unit of fuel, and the allowance is made for the widest record
    have hwidest := Heap.length_fields_le (hrecord.held _ .refl)
    have hplain {mark : String} {s : Except RuntimeError String}
        (hs : Answers (fun fuel => do
          let texts ← Heap.plainNamed (w.heap.plainText mark format fuel true)
            (w.heap.record r).fields
          return Text.braced texts) s) :
        Answers (fun fuel => w.heap.plainText mark format fuel nested v) s := by
      refine .succ ?_
      simpa only [Heap.plainText, hr] using hs
    have hfields (hclear : w.heap.Clear seen v) (x : String × Value)
        (hx : x ∈ (w.heap.record r).fields) :
        w.heap.Clear (.node .record r.index :: seen) x.2 :=
      (hclear.of_reaches hreach).enter rfl (.field hx)
    refine .heap ((ih.fields _ _ fun x hx => hrecord.part (.field hx)).bind (by omega)
      (fun e he => ?_) fun texts htexts => .pure ?_)
    · refine ⟨?_, fun hclear mark hmark =>
        hplain (he.plain (hfields hclear) mark hmark).bind_error⟩
      rintro _ ⟨⟩
      obtain ⟨x, hx, hunfit⟩ := he.fair e rfl
      exact hunfit.of_part (.field hr hx)
    · exact ⟨by rintro _ ⟨⟩, fun hclear mark hmark =>
        hplain ((htexts.plain (hfields hclear) mark hmark).bind (.pure _))⟩

/-- A variant is shown by its tag and payload, in parentheses inside another one. -/
theorem variants_rendered {fuel : Nat} (hev : ev.Reads w) (ih : RendersWith ev w format fuel)
    {nested : Bool} {v : Value} {c : Ref .variant} (hv : w.heap.Comparable v)
    (hc : w.heap.resolve v = .variant c) :
    Outputs w (fuel + 1 < w.heap.allowance seen + 2) (TextOf w.heap format nested seen v) (do
      let address := Address.node .variant c.index
      if seen.contains address then return "..."
      let variant := (← Eval.heap).variant c
      let payload ← ev.force variant.payload
      if payload.isUnit then return variant.tag.text
      let wrap ← Eval.find (Render.needsParentheses? · payload)
      let text ← Render.value ev format fuel true (address :: seen) payload
      return variant.tag.text ++ " " ++ if wrap then "(" ++ text ++ ")" else text) := by
  have hreach : w.heap.Reaches v (.variant c) := hc ▸ w.heap.reaches_resolve v
  have hvariant := hv.of_reaches hreach
  have hpayload := hvariant.part (.payload c)
  have hresolved := hpayload.of_reaches (w.heap.reaches_resolve _)
  dsimp only
  split
  · next hseen =>
    refine .pure ⟨by rintro _ ⟨⟩, fun hclear _ _ => ?_⟩
    exact absurd (by simpa using hseen) (hclear.apart _ _ hreach rfl)
  · next hseen =>
    have hbudget := Heap.allowance_cons (h := w.heap) (v := .variant c) rfl
      (hvariant.held _ .refl) (by simpa using hseen)
    have hevaluated := hpayload.evaluated _ .refl
    refine .heap (.force hev hevaluated ?_)
    split
    · next hunit =>
      -- a payload of unit is not shown
      refine .pure ⟨by rintro _ ⟨⟩, fun _ _ _ => .succ ?_⟩
      simp only [Heap.plainText, hc, hunit, if_true]
      exact .pure _
    · next hunit =>
      obtain ⟨wrap, hwrap⟩ := hresolved.exists_needsParentheses?
      have hplain {mark : String} {s : Except RuntimeError String}
          (hs : Answers (fun fuel => do
            let text ← w.heap.plainText mark format fuel true
              (w.heap.resolve (w.heap.variant c).payload)
            return (w.heap.variant c).tag.text ++ " " ++
              if wrap then "(" ++ text ++ ")" else text) s) :
          Answers (fun fuel => w.heap.plainText mark format fuel nested v) s := by
        refine .succ ?_
        simp only [Heap.plainText, hc, hunit, Bool.false_eq_true, if_false, hwrap]
        exact hs
      have hclearPayload (hclear : w.heap.Clear seen v) :
          w.heap.Clear (.node .variant c.index :: seen)
            (w.heap.resolve (w.heap.variant c).payload) :=
        ((hclear.of_reaches hreach).enter rfl (.payload c)).of_reaches (w.heap.reaches_resolve _)
      refine .find hwrap ((ih.value true _ _ hresolved).bind (by omega) (fun e he => ?_)
        fun text htext => .pure ?_)
      · refine ⟨?_, fun hclear mark hmark =>
          hplain (he.plain (hclearPayload hclear) mark hmark).bind_error⟩
        rintro _ ⟨⟩
        refine Heap.Unfit.of_part ?_ (.payload hc)
        exact (he.fair e rfl).congr (Heap.resolve_of_not_lazy hevaluated)
      · exact ⟨by rintro _ ⟨⟩,
          fun hclear mark hmark =>
            hplain ((htext.plain (hclearPayload hclear) mark hmark).bind (.pure _))⟩

/-- A list is shown by its elements. -/
theorem lists_rendered {fuel : Nat} (ih : RendersWith ev w format fuel) {nested : Bool}
    {v : Value} {first : Option (Ref .cell)} (hv : w.heap.Comparable v)
    (hfirst : w.heap.resolve v = .list first) :
    Outputs w (fuel + 1 < w.heap.allowance seen + 2) (TextOf w.heap format nested seen v) (do
      return Text.listed (← Render.items ev format fuel 0 seen first)) := by
  have hreach : w.heap.Reaches v (.list first) := hfirst ▸ w.heap.reaches_resolve v
  have hlist := hv.of_reaches hreach
  have hplain {mark : String} {vs : List Value} {s : Except RuntimeError String}
      (hvs : w.heap.Listed first vs) (hs : Answers (fun fuel => do
        let texts ← Heap.plainItems mark (w.heap.plainText mark format fuel true)
          (format.maxItems.map (· - 0)) vs
        return Text.listed texts) s) :
      Answers (fun fuel => w.heap.plainText mark format fuel nested v) s := by
    -- plain recursion collects the elements before it writes any
    obtain ⟨enough, henough⟩ := hvs
    have hlift : Answers (fun fuel => ExceptT.lift (w.heap.elements fuel first)) (.ok vs) :=
      ⟨enough, fun fuel hfuel => by rw [ExceptT.run_lift, henough fuel hfuel]; rfl⟩
    refine .succ ?_
    simp only [Heap.plainText, hfirst]
    refine hlift.bind ?_
    simpa using hs
  refine (ih.items 0 seen first hlist).bind (by omega) (fun e he => ?_) fun texts htexts => .pure ?_
  · refine ⟨?_, fun hclear mark hmark => ?_⟩
    · rintro _ ⟨⟩
      obtain ⟨i, u, hu, hi, hunfit⟩ := he.fair e rfl
      exact hunfit.of_part (.element hfirst hu fun n hn => by have := hi n hn; omega)
    · have hclear := hclear.of_reaches hreach
      obtain ⟨vs, hvs⟩ := hclear.acyclic.exists_listed hlist rfl
      exact hplain hvs (he.plain hclear mark hmark vs hvs).bind_error
  · refine ⟨by rintro _ ⟨⟩, fun hclear mark hmark => ?_⟩
    have hclear := hclear.of_reaches hreach
    obtain ⟨vs, hvs⟩ := hclear.acyclic.exists_listed hlist rfl
    exact hplain hvs ((htexts.plain hclear mark hmark vs hvs).bind (.pure _))

/-- A floating-point number is written in decimal, or the format is unfit for it. -/
theorem float_rendered (hformat : ¬ format.Wide) {short : Prop} {nested : Bool} {v x : Value}
    {shortest : String} {number : Decimal.Number} (hx : w.heap.resolve v = x) (hfloat : x.IsFloat)
    (hplain : ∀ mark fuel, w.heap.plainText mark format (fuel + 1) nested v =
      Heap.plainFloat format x (Render.float format.style shortest number)) :
    Outputs w short (TextOf w.heap format nested seen v)
      (Render.floatValue format x shortest number) := by
  unfold Render.floatValue
  unfold Heap.plainFloat at hplain
  split
  · next hradix =>
    -- the host gives up only where a format that is wide writes a number in decimal
    have hfits : format.style.fits = true := by simpa [Format.Wide, hradix] using hformat
    rw [if_neg (by simp [hfits])]
    refine .pure ⟨by rintro _ ⟨⟩, fun _ _ _ => .succ ?_⟩
    simp only [hplain, hradix, if_true]
    exact .pure _
  · next hradix =>
    refine .fail ⟨?_, fun _ _ _ => .succ ⟨0, fun fuel _ => ?_⟩⟩
    · rintro _ ⟨⟩
      exact ⟨hradix, v, .refl, hx ▸ hfloat, by rw [hx]⟩
    · dsimp only
      rw [hplain, if_neg hradix]
      rfl

/-- A value is shown by what it resolves to. -/
theorem value_rendered {fuel : Nat} (hformat : ¬ format.Wide) (hev : ev.Reads w)
    (ih : RendersWith ev w format fuel) {nested : Bool} {v : Value} (hv : w.heap.Comparable v) :
    Outputs w (fuel + 1 < w.heap.allowance seen + 2) (TextOf w.heap format nested seen v)
      (Render.value ev format (fuel + 1) nested seen v) := by
  have hevaluated := hv.evaluated v .refl
  -- a value without parts has the same text by plain recursion
  have hleaf {text : String} (htext : ∀ mark fuel,
      w.heap.plainText mark format (fuel + 1) nested v = return text) :
      TextOf w.heap format nested seen v (.ok text) :=
    ⟨by rintro _ ⟨⟩, fun _ _ _ => .succ (by simp only [htext]; exact .pure _)⟩
  rw [Render.value]
  refine .force hev hevaluated ?_
  cases hx : w.heap.resolve v with
  | unit => exact .pure (hleaf fun _ _ => by simp only [Heap.plainText, hx])
  | int i => exact .pure (hleaf fun _ _ => by simp only [Heap.plainText, hx])
  | long i => exact .pure (hleaf fun _ _ => by simp only [Heap.plainText, hx])
  | single x => exact float_rendered hformat hx trivial fun _ _ => by simp only [Heap.plainText, hx]
  | double x => exact float_rendered hformat hx trivial fun _ _ => by simp only [Heap.plainText, hx]
  | bool b => exact .pure (hleaf fun _ _ => by simp only [Heap.plainText, hx])
  | char c => exact .pure (hleaf fun _ _ => by simp only [Heap.plainText, hx])
  | str s => exact .pure (hleaf fun _ _ => by simp only [Heap.plainText, hx])
  | list first => exact lists_rendered ih hv hx
  | record r => exact records_rendered ih hv hx
  | variant c => exact variants_rendered hev ih hv hx
  | lazy t => rw [hx] at hevaluated; cases hevaluated
  | function f => exact .heap (.pure (hleaf fun _ _ => by simp only [Heap.plainText, hx]))
  | module m => exact .heap (.pure (hleaf fun _ _ => by simp only [Heap.plainText, hx]))
  | typeInfo t => exact .pure (hleaf fun _ _ => by simp only [Heap.plainText, hx])
  | foreign f => exact (hv.native f (hx ▸ w.heap.reaches_resolve v)).elim

/-- The walks of a rendering come to the texts, with any fuel. -/
theorem rendersWith (hformat : ¬ format.Wide) (hev : ev.Reads w) (fuel : Nat) :
    RendersWith ev w format fuel := by
  induction fuel with
  | zero =>
    -- no fuel is always too little
    exact ⟨fun _ _ _ _ => .cut (by omega), fun _ _ _ => .cut (by omega),
      fun _ _ _ _ => .cut (by omega)⟩
  | succ fuel ih =>
    exact ⟨fun _ _ _ hv => value_rendered hformat hev ih hv,
      fun _ _ hfields => fields_rendered ih hfields,
      fun _ _ _ hfirst => items_rendered hev ih hfirst⟩

end Rendering

/-- Makes a string of a text, or reports a failure. -/
def Eval.ofText : Except RuntimeError String → Eval Value
  | .ok text => Eval.makeStr text
  | .error e => Eval.fail e

/-- Rendering with enough fuel outputs the text of a value. -/
theorem render_outputs {w : World} (hlive : w.context.interrupt? = none) {v : Value}
    (hv : w.heap.Comparable v) {format : Format} (hformat : ¬ format.Wide) (E : Engine) {fuel : Nat}
    (hfuel : w.heap.thunks.size + w.heap.allowance [] + 2 ≤ fuel) :
    Outputs w False (TextOf w.heap format false [] v)
      (render ⟨fuel, force E fuel, E⟩ format v) := by
  have hev := force_reads E hlive fuel (by omega)
  have hvalue := (rendersWith hformat hev fuel).value false [] v hv
  have henough : Outputs w False (TextOf w.heap format false [] v)
      (Render.value ⟨fuel, force E fuel, E⟩ format fuel false [] v) :=
    hvalue.mono (by omega) fun _ hr => hr
  exact henough.of_eq (bind_ok (Eval.ensureLive_ok hlive))

/-- Rendering is total on evaluated data. In a format that is not wide and on a live context the
rendering of a value whose reachable thunks have values, whose lists go on with lists and that
reaches nothing foreign ends, with a text or a failure. It fails only if the format, of another
radix than ten, is unfit for a floating-point number that is shown. On acyclic data the text is that
of plain recursion, and where no elements are to be left out of a list the mark for them does not
matter. -/
theorem render_total (w : World) (hlive : w.context.interrupt? = none) (v : Value)
    (hv : w.heap.Comparable v) (format : Format) (hformat : ¬ format.Wide) :
    ∃ r : Except RuntimeError String,
      (∃ enough, ∀ level, enough ≤ level →
        engine level (.render v format) w = Eval.ofText r w) ∧
      (∀ e, r = .error e → w.heap.Unfit format v e) ∧
      (w.heap.Acyclic v → ∀ mark, mark = "..." ∨ format.maxItems = none →
        ∃ enough, ∀ fuel, enough ≤ fuel →
          (w.heap.plainText mark format fuel false v).run = some r) := by
  let fuel := w.heap.thunks.size + w.heap.allowance [] + 2
  -- the outcome at the first level that is high enough is the outcome at all higher ones
  suffices hfirst : ∃ r : Except RuntimeError String,
      engine (fuel + 1) (.render v format) w = Eval.ofText r w ∧
      TextOf w.heap format false [] v r by
    obtain ⟨r, hr, htext⟩ := hfirst
    have hne (w' : World) : Eval.ofText r w ≠ .error .exhausted w' := by
      cases r <;> exact nofun
    refine ⟨r, ⟨fuel + 1, fun level hlevel => ?_⟩, htext.fair, fun hacyclic =>
      htext.plain (.start hacyclic)⟩
    rw [(engine_approximates hlevel (.render v format)).eq_of_ne (by rwa [hr]), hr]
  have houtputs := render_outputs hlive hv hformat (engine fuel) (Nat.le_refl fuel)
  have hrender : engine (fuel + 1) (.render v format) =
      (render ⟨fuel, force (engine fuel) fuel, engine fuel⟩ format v >>= Eval.makeStr) := rfl
  rw [hrender]
  cases hx : render ⟨fuel, force (engine fuel) fuel, engine fuel⟩ format v w with
  | ok text w' =>
    obtain ⟨rfl, htext⟩ := houtputs.of_ok hx
    exact ⟨.ok text, bind_ok hx, htext⟩
  | error i w' =>
    have hstopped := houtputs.of_error hx
    cases i with
    | failed =>
      obtain ⟨e, rfl, htext⟩ := hstopped
      exact ⟨.error e, bind_error hx, htext⟩
    | exhausted => exact hstopped.elim
    | suspended => exact hstopped.elim
    | crashed => exact hstopped.elim

/-- The circular list of ones has a text. -/
theorem render_total_circular :
    ∃ text enough, ∀ level, enough ≤ level →
      engine level (.render (.list (some ⟨0⟩)) {}) { heap := circularOnes } =
        Eval.makeStr text { heap := circularOnes } := by
  obtain ⟨r, ⟨enough, henough⟩, hfair, -⟩ :=
    render_total { heap := circularOnes } rfl _ circularOnes_comparable {} Format.not_wide_default
  cases r with
  | ok text => exact ⟨text, enough, henough⟩
  | error e => exact absurd rfl (hfair e rfl).1

/-- In a wide format a number that has digits crashes the host. -/
theorem render_wide {format : Format} (hformat : format.Wide) {x : Float}
    (hx : (Decimal.Number.ofDouble x).isFinite = true) {w : World}
    (hlive : w.context.interrupt? = none) (level : Nat) :
    engine (level + 2) (.render (.double x) format) w = .error .crashed w := by
  let ev : Evaluator := ⟨level + 1, force (engine (level + 1)) (level + 1), engine (level + 1)⟩
  have hforce : ev.force (.double x) w = .ok (.double x) w := bind_ok (Eval.ensureLive_ok hlive)
  have hvalue : Render.value ev format (level + 1) false [] (.double x) w = .error .crashed w := by
    refine (bind_ok hforce).trans ?_
    simp only [Render.floatValue, hformat.1, hformat.2, hx, if_true, Bool.not_false, Bool.and_self]
    rfl
  have hrender : render ev format (.double x) w = .error .crashed w :=
    (bind_ok (Eval.ensureLive_ok hlive)).trans hvalue
  exact bind_error hrender

/-- So rendering is not total for every spec that a user can write: one and a half has no text with
65536 decimals. -/
theorem render_crashes :
    let x := Float.ofBits 0x3ff8000000000000
    let format : Format := { style := .fixed 65536 }
    Format.ofSpec? "f65536" = some format ∧ ({} : World).heap.Comparable (.double x) ∧
      ∀ level, engine (level + 2) (.render (.double x) format) {} = .error .crashed {} := by
  intro x format
  have hfinite : (Decimal.Number.ofDouble (Float.ofBits 0x3ff8000000000000)).isFinite = true := rfl
  refine ⟨by decide, .of_closed [.double x] ?_ ?_ (by simp), render_wide (by decide) hfinite rfl⟩
  · intro v hv u hu
    obtain rfl := List.mem_singleton.mp hv
    cases hu
  · intro v hv
    obtain rfl := List.mem_singleton.mp hv
    exact ⟨trivial, rfl, by simp, by simp⟩

end LazyMachine
