import LazyMachine.Proofs.PlainData
import LazyMachine.Proofs.Sequences
import Mathlib.Order.Filter.AtTopBot.Basic

/-!
# Operations on plain data

On plain operands and a live context an operation ends, at every level that is high enough, with
plain data or with a failure that is on record. It does not suspend, since there is nothing to wait
for; it needs no more fuel than the walks along its operands take.

`Tame w P x` says of an evaluation on the world `w` that it yields a value with `P`, on the same
context and with the objects that were there, or records a failure. It has one rule for each way in
which operations are composed, and one lemma for each operation follows from the rules by cases on
the operands.
-/

namespace LazyMachine

open Filter

variable {α β : Type}

/-- The evaluation yields a value with `P` on the present context, next to the objects that were
there, or records a failure. -/
def Tame (w : World) (P : Heap → α → Prop) (x : Eval α) : Prop :=
  Leads x w fun
    | .ok a, w' => w'.context = w.context ∧ w.heap.Retains w'.heap ∧ P w'.heap a
    | .error i, w' => i = .failed ∧ w'.context.error.isSome = true

namespace Tame

variable {w : World} {P : Heap → α → Prop} {R : Heap → β → Prop} {x : Eval α} {a : α}

/-- An evaluation that yields a value with the property in the same world is tame. -/
theorem of_ok (hx : x w = .ok a w) (ha : P w.heap a) : Tame w P x :=
  .of_eq_ok hx ⟨rfl, .refl _, ha⟩

theorem pure (ha : P w.heap a) : Tame w P (Pure.pure a) := of_ok rfl ha

theorem fail (e : RuntimeError) : Tame w P (Eval.fail e) := by
  refine ⟨rfl, ?_⟩
  cases h : w.context.error <;> simp [Context.fail, h]

/-- After a tame evaluation comes one that is tame wherever the first may have led. -/
theorem bind {f : α → Eval β} (hx : Tame w P x)
    (hf : ∀ a w', w'.context = w.context → w.heap.Retains w'.heap → P w'.heap a →
      Tame w' R (f a)) : Tame w R (x >>= f) := by
  rw [Tame, leads_bind]
  refine Leads.imp hx fun r w' h => ?_
  cases r with
  | error i => exact h
  | ok a =>
    obtain ⟨hcontext, hretains, ha⟩ := h
    refine (hf a w' hcontext hretains ha).imp fun r w'' h => ?_
    cases r with
    | error i => exact h
    | ok b => exact ⟨h.1.trans hcontext, hretains.trans h.2.1, h.2.2⟩

/-- What is known to yield a value and to change nothing comes first. -/
theorem after {f : α → Eval β} (hx : x w = .ok a w) (hf : Tame w R (f a)) :
    Tame w R (x >>= f) :=
  Leads.of_eq hf (bind_ok hx)

theorem heap {f : Heap → Eval α} (hf : Tame w P (f w.heap)) : Tame w P (Eval.heap >>= f) :=
  .after rfl hf

/-- There is no thunk to follow. -/
theorem resolve {v : Value} {f : Value → Eval α} (hv : w.heap.Plain v) (hf : Tame w P (f v)) :
    Tame w P (Eval.resolve v >>= f) :=
  .after (Eval.resolve_ok (Heap.resolve?_of_not_lazy hv.isLazy)) hf

end Tame

/-! ### Making plain data -/

section Making

variable {w : World} {v : Value} {vs : List Value} {rest : Option (Ref .cell)}

/-- A new string is plain. -/
theorem makeStr_tame (text : String) : Tame w Heap.Plain (Eval.makeStr text) :=
  ⟨rfl, w.heap.extends_freshStamp.toRetains, .atom rfl⟩

/-- A new descriptor is plain. -/
theorem typeInfo_tame (v : Value) : Tame w Heap.Plain (Eval.typeInfo v) :=
  ⟨rfl, w.heap.extends_freshStamp.toRetains, .atom rfl⟩

/-- A new cell of plain data starts a plain list. -/
theorem makeCell_tame (hv : w.heap.Plain v) (hrest : w.heap.Plain (.list rest)) :
    Tame w (fun h c => h.Plain (.list (some c))) (Eval.makeCell v (.list rest)) := by
  have hretains := (w.heap.extends_addCell ⟨v, .list rest⟩).toRetains
  have hcell := w.heap.cell_addCell ⟨v, .list rest⟩
  refine ⟨rfl, hretains, .cell (w.heap.lt_addCell _) ?_ ?_ (hrest.retains hretains)⟩
  · exact congrArg Cell.tail hcell
  · exact (congrArg Cell.head hcell).symm ▸ hv.retains hretains

/-- A new list of a head and a tail. -/
theorem newCell_tame (hv : w.heap.Plain v) (hrest : w.heap.Plain (.list rest)) :
    Tame w Heap.Plain (do return .list (some (← Eval.makeCell v (.list rest)))) :=
  (makeCell_tame hv hrest).bind fun _ _ _ _ hc => .pure hc

/-- A new record of plain fields is plain. -/
theorem makeRecord_tame {r : Record} (hr : ∀ x ∈ r.fields, w.heap.Plain x.2) :
    Tame w Heap.Plain (Eval.makeRecord r) := by
  have hretains := (w.heap.extends_addRecord r).toRetains
  refine ⟨rfl, hretains, .record (by simp) fun x hx => ?_⟩
  exact (hr x (by rwa [← w.heap.record_addRecord r])).retains hretains

/-- A new variant with a plain payload is plain. -/
theorem makeVariant_tame (tag : String) (hv : w.heap.Plain v) :
    Tame w Heap.Plain (Eval.makeVariant tag v) := by
  -- the stamp of the tag is taken before the variant is added
  let h := w.heap.freshStamp.2
  let variant : Variant := ⟨⟨w.heap.nextStamp, tag⟩, v⟩
  have hretains : w.heap.Retains (h.addVariant variant).2 :=
    w.heap.extends_freshStamp.toRetains.trans (h.extends_addVariant variant).toRetains
  refine ⟨rfl, hretains, .variant (by simp) ?_⟩
  exact (congrArg Variant.payload (h.variant_addVariant variant)).symm ▸ hv.retains hretains

/-- Plain items in front of a plain list make a plain list. -/
theorem prepend_tame (hvs : ∀ v ∈ vs, w.heap.Plain v) (hrest : w.heap.Plain (.list rest)) :
    Tame w (fun h r => h.Plain (.list r)) (Eval.prepend vs rest) := by
  induction vs with
  | nil => exact .pure hrest
  | cons v vs ih =>
    obtain ⟨hv, hvs⟩ := List.forall_mem_cons.mp hvs
    exact (ih hvs).bind fun tail w' _ hretains htail =>
      (makeCell_tame (hv.retains hretains) htail).bind fun c w'' _ _ hc => .pure hc

/-- A new list of plain items is plain. -/
theorem makeList_tame (hvs : ∀ v ∈ vs, w.heap.Plain v) :
    Tame w Heap.Plain (Eval.makeList vs) :=
  (prepend_tame hvs .nil).bind fun _ _ _ _ h => .pure h

end Making

/-! ### Operations that force their operands and nothing else -/

section Forcing

variable {ev : Evaluator} (hev : ev.Leaves) {w : World} (hlive : w.context.interrupt? = none)
  {v l r item key : Value}

/-- On a live context the entry check changes nothing. -/
theorem Tame.live {x : Eval α} {P : Heap → α → Prop} (hlive : w.context.interrupt? = none)
    (hx : Tame w P x) : Tame w P (Eval.ensureLive >>= fun _ => x) :=
  .after (Eval.ensureLive_ok hlive) hx

include hev hlive

/-- Plain data is as it is. -/
theorem Tame.force {P : Heap → α → Prop} {f : Value → Eval α} (hv : w.heap.Plain v)
    (hf : Tame w P (f v)) : Tame w P (ev.force v >>= f) :=
  .after (hev w v hlive hv.isLazy) hf

/-- The head of plain data is plain. -/
theorem head_tame (hv : w.heap.Plain v) : Tame w Heap.Plain (head ev v) := by
  refine Tame.force hev hlive hv ?_
  cases hv with
  | atom hatom =>
    cases v with
    | str s =>
      cases htext : s.text.toList with
      | nil =>
        simp only [htext]
        exact .fail _
      | cons c cs =>
        simp only [htext]
        exact .pure (.atom rfl)
    | list => cases hatom
    | _ => exact .fail _
  | cell _ _ hhead _ => exact .pure hhead
  | _ => exact .fail _

/-- The tail of plain data is plain. -/
theorem tail_tame (hv : w.heap.Plain v) : Tame w Heap.Plain (tail ev v) := by
  refine Tame.force hev hlive hv ?_
  cases hv with
  | atom hatom =>
    cases v with
    | str s =>
      cases htext : s.text.toList with
      | nil =>
        simp only [htext]
        exact .fail _
      | cons c cs =>
        simp only [htext]
        exact makeStr_tame _
    | list => cases hatom
    | _ => exact .fail _
  | cell _ htail _ hrest => exact .pure (htail ▸ hrest)
  | _ => exact .fail _

/-- Plain data are empty or not, without an evaluation. -/
theorem isNil_tame (hv : w.heap.Plain v) : Tame w (fun _ _ => True) (isNil ev v) := by
  refine Tame.force hev hlive hv ?_
  cases hv with
  | atom hatom => cases v <;> first | exact .pure trivial | exact .fail _
  | nil | cell => exact .pure trivial
  | _ => exact .fail _

/-- The empty sequence of a kind is plain. -/
theorem nilOf_tame (hv : w.heap.Plain v) : Tame w Heap.Plain (nilOf ev v) := by
  refine Tame.force hev hlive hv ?_
  cases hv with
  | atom hatom => cases v <;> first | exact makeStr_tame _ | exact .fail _ | cases hatom
  | nil | cell => exact .pure .nil
  | record => exact makeRecord_tame (by simp)
  | variant => exact .fail _

/-- The tag of plain data is plain. -/
theorem tagOf_tame (hv : w.heap.Plain v) : Tame w Heap.Plain (tagOf ev v) := by
  refine Tame.force hev hlive hv ?_
  cases hv with
  | atom hatom => cases v <;> first | exact .fail _ | cases hatom
  | variant => exact .pure (.atom rfl)
  | _ => exact .fail _

/-- The payload of plain data is plain. -/
theorem untag_tame (hv : w.heap.Plain v) : Tame w Heap.Plain (untag ev v) := by
  refine Tame.force hev hlive hv ?_
  cases hv with
  | atom hatom => cases v <;> first | exact .fail _ | cases hatom
  | variant _ hpayload => exact .pure hpayload
  | _ => exact .fail _

/-- The type of plain data is plain. -/
theorem typeOf_tame (hv : w.heap.Plain v) : Tame w Heap.Plain (typeOf ev v) :=
  Tame.force hev hlive hv (typeInfo_tame v)

/-- A plain item added to a plain sequence makes a plain one. -/
theorem generate_tame (hv : w.heap.Plain v) (hitem : w.heap.Plain item) :
    Tame w Heap.Plain (generate ev v item) := by
  refine Tame.force hev hlive hv ?_
  cases hv with
  | atom hatom =>
    cases v with
    | str s =>
      refine Tame.force hev hlive hitem ?_
      cases item <;> first | exact makeStr_tame _ | exact .fail _
    | list => cases hatom
    | _ => exact .fail _
  | nil => exact newCell_tame hitem .nil
  | cell hc htail hhead hrest => exact newCell_tame hitem (.cell hc htail hhead hrest)
  | _ => exact .fail _

/-- Unary operations on plain data are tame. -/
theorem unary_tame (op : UnaryOp) (hv : w.heap.Plain v) :
    Tame w Heap.Plain (unary ev op v) := by
  refine Tame.force hev hlive hv ?_
  split
  · exact absurd hv Heap.Plain.not_foreign
  · exact .pure (.atom rfl)
  iterate 2
    split
    · exact .pure (.atom rfl)
    · exact .fail _
  · split
    · exact .pure (.atom (Value.isAtom_ofNumeric _))
    · exact .fail _

omit hev hlive in
/-- Arithmetic yields an atom or fails. -/
theorem arithmetic_tame (op : BinaryOp) (a : Numeric.Arith) (l r : Value) :
    Tame w Heap.Plain (arithmetic op a l r) := by
  unfold arithmetic
  split
  · dsimp only
    split
    · exact .fail _
    · exact .pure (.atom (Value.isAtom_ofNumeric _))
  · exact .fail _

omit hev hlive in
/-- Bitwise operations yield an atom or fail. -/
theorem bitwise_tame (op : BinaryOp) (b : Numeric.Bitwise) (l r : Value) :
    Tame w Heap.Plain (bitwise op b l r) := by
  unfold bitwise
  split
  · split
    · exact .pure (.atom (Value.isAtom_ofNumeric _))
    · exact .fail _
  · exact .fail _

omit hev hlive in
/-- Orderings are decided or fail. -/
theorem ordering_tame (op : BinaryOp) (l r : Value) :
    Tame w (fun _ _ => True) (ordering op l r) := by
  unfold ordering
  split
  iterate 3 exact .pure trivial
  split
  · exact .pure trivial
  · exact .fail _

end Forcing

/-! ### Operations that walk along lists -/

section Walking

variable {ev : Evaluator} (hev : ev.Leaves) {w : World} (hlive : w.context.interrupt? = none)
  {first : Option (Ref .cell)} {item : Value}

include hev hlive

/-- A strict tail is the next cell as it is. -/
theorem next_plain {c rest} (hcell : w.heap.cell c = ⟨(w.heap.cell c).head, .list rest⟩) :
    Spine.next ev c w = .ok rest w := by
  refine Spine.next_ok ?_
  rw [hcell]
  exact hev w _ hlive rfl

/-- The item at a position of a plain list is plain. -/
theorem nth_plain (hfirst : w.heap.Plain (.list first)) (i : Nat) :
    ∃ r, Spine.nth ev i first w = .ok r w ∧ ∀ x ∈ r, w.heap.Plain x := by
  refine Heap.Plain.list_induction (fun i => ?_) (fun c rest _ hcell hhead _ ih i => ?_) hfirst i
  · exact ⟨none, by cases i <;> rfl, by simp⟩
  · cases i with
    | zero => exact ⟨_, rfl, by simpa using hhead⟩
    | succ i =>
      obtain ⟨r, hnth, hr⟩ := ih i
      exact ⟨r, (bind_ok (next_plain hev hlive hcell)).trans hnth, hr⟩

/-- There is no such position, or new cells are made up to there. -/
theorem setNth_plain (hfirst : w.heap.Plain (.list first)) (hitem : w.heap.Plain item) (i : Nat) :
    Spine.setNth ev item i first w = .ok none w ∨
      Tame w (fun h r => ∃ c, r = some c ∧ h.Plain (.list (some c)))
        (Spine.setNth ev item i first) := by
  refine Heap.Plain.list_induction (fun i => ?_) (fun c rest _ hcell hhead hrest ih i => ?_)
    hfirst i
  · exact .inl (by cases i <;> rfl)
  · cases i with
    | zero =>
      -- the new cell shares the tail, which is a plain list as it stands
      have htail : (w.heap.cell c).tail = .list rest := by rw [hcell]
      refine .inr (.heap ?_)
      rw [htail]
      exact (makeCell_tame hitem hrest).bind fun c _ _ _ hc => .pure ⟨c, rfl, hc⟩
    | succ i =>
      -- no cell is made on the way back unless the position was found
      have hnext := next_plain hev hlive hcell
      rcases ih i with hnone | hsome
      · exact .inl ((bind_ok hnext).trans (bind_ok hnone))
      · refine .inr (.heap (.after hnext (hsome.bind ?_)))
        rintro - w' - hretains ⟨updated, rfl, hupdated⟩
        exact (makeCell_tame (hhead.retains hretains) hupdated).bind
          fun c _ _ _ hc => .pure ⟨c, rfl, hc⟩

/-- Plain items are all characters or not, without a change of the world. -/
theorem charsOf?_plain {vs : List Value} (hvs : ∀ v ∈ vs, w.heap.Plain v) :
    ∃ r, charsOf? ev vs w = .ok r w := by
  induction vs with
  | nil => exact ⟨_, rfl⟩
  | cons v vs ih =>
    obtain ⟨hv, hvs⟩ := List.forall_mem_cons.mp hvs
    obtain ⟨r, hr⟩ := ih hvs
    have hforce := hev w v hlive hv.isLazy
    cases v with
    | char c => exact ⟨r.map (c :: ·), (bind_ok hforce).trans (bind_ok hr)⟩
    | _ => exact ⟨none, bind_ok hforce⟩

end Walking

/-! ### High enough levels -/

section Fuel

variable {w : World} (hlive : w.context.interrupt? = none) {v l r container key item : Value}
  {first : Option (Ref .cell)}

/-- With some fuel, forcing leaves what is not lazy as it is. -/
theorem eventually_leaves : ∀ᶠ n in atTop, (forcesOf n).Leaves :=
  (eventually_gt_atTop 0).mono fun _ => forcesOf_leaves

include hlive in
/-- Forcing plain data first does not matter, given some fuel. -/
theorem eventually_force {P : Heap → α → Prop} {f : Nat → Value → Eval α} (hv : w.heap.Plain v)
    (hf : ∀ᶠ n in atTop, Tame w P (f n v)) :
    ∀ᶠ n in atTop, Tame w P ((forcesOf n).force v >>= f n) := by
  filter_upwards [eventually_leaves, hf] with n hev hf
  exact Tame.force hev hlive hv hf

/-! ### Showing -/

include hlive in
/-- What is shown of plain data depends on the world alone. -/
theorem eventually_outputs (hv : w.heap.Plain v) {format : Format} (hformat : ¬ format.Wide) :
    ∀ᶠ n in atTop, Outputs w False (TextOf w.heap format false [] v)
      (render (forcesOf n) format v) :=
  (eventually_ge_atTop _).mono fun n hn =>
    render_outputs hlive hv.comparable hformat (engine n) hn

include hlive in
/-- With enough fuel plain data have a text. -/
theorem render_tame (hv : w.heap.Plain v) {format : Format} (hformat : ¬ format.Wide) :
    ∀ᶠ n in atTop, Tame w (fun _ _ => True) (render (forcesOf n) format v) := by
  filter_upwards [eventually_outputs hlive hv hformat] with n hn
  refine hn.imp fun r w' hr => ?_
  cases r with
  | ok text =>
    obtain ⟨rfl, -⟩ := hr
    exact ⟨rfl, .refl _, trivial⟩
  | error i =>
    cases i with
    | failed =>
      obtain ⟨e, rfl, -⟩ := hr
      refine ⟨rfl, ?_⟩
      cases h : w.context.error <;> simp [Context.fail, h]
    | exhausted => exact hr.elim
    | suspended | crashed => exact hr.elim

/-- Plain data can be displayed in every context. -/
theorem display_plain (hv : w.heap.Plain v) :
    ∀ᶠ n in atTop, ∃ text, display (forcesOf n) v w = .ok text w := by
  have hfresh : ({ w with context := {} } : World).context.interrupt? = none := rfl
  filter_upwards [eventually_outputs hfresh hv Format.not_wide_default] with n hn
  cases hx : render (forcesOf n) {} v { w with context := {} } with
  | ok text w' =>
    obtain ⟨rfl, -⟩ := hn.of_ok hx
    exact ⟨text, bind_ok (Eval.isolated_ok hx)⟩
  | error i w' =>
    have hstopped := hn.of_error hx
    cases i with
    | failed =>
      -- the failure is on record on the fresh context only, and ends up in the text
      obtain ⟨e, rfl, -⟩ := hstopped
      have hisolated : Eval.isolated {} (render (forcesOf n) {} v) w =
          .ok (.error .failed, ({} : Context).fail e) w := by
        simp only [Eval.isolated, hx]
      exact ⟨_, bind_ok hisolated⟩
    | exhausted => exact hstopped.elim
    | suspended | crashed => exact hstopped.elim

/-- With enough fuel a missing entry is reported. -/
theorem indexOutOfRange_tame (hkey : w.heap.Plain key) (container : Value) :
    ∀ᶠ n in atTop, Tame w Heap.Plain (indexOutOfRange (forcesOf n) container key) := by
  filter_upwards [display_plain hkey] with n ⟨text, htext⟩
  exact .after htext (.fail _)

/-! ### Indexing -/

/-- With enough fuel a plain entry is the result or its absence is reported. -/
theorem foundAt_tame (hkey : w.heap.Plain key) (container : Value) :
    ∀ᶠ n in atTop, ∀ found : Option Value, (∀ x ∈ found, w.heap.Plain x) →
      Tame w Heap.Plain (foundAt (forcesOf n) container key found) := by
  filter_upwards [indexOutOfRange_tame hkey container] with n hn found hfound
  cases found with
  | none => exact hn
  | some x => exact .pure (hfound x rfl)

/-- A name has plain values in a plain record. -/
theorem plain_get? {r : Record} (hr : ∀ x ∈ r.fields, w.heap.Plain x.2) (name : String) :
    ∀ x ∈ r.get? name, w.heap.Plain x := by
  intro x hx
  obtain ⟨field, hfield, rfl⟩ := Option.map_eq_some_iff.mp hx
  exact hr field (List.mem_of_find?_eq_some hfield)

/-- A position has plain values in a plain record. -/
theorem plain_at? {r : Record} (hr : ∀ x ∈ r.fields, w.heap.Plain x.2) (i : Option Nat) :
    ∀ x ∈ i.bind r.at?, w.heap.Plain x := by
  intro x hx
  obtain ⟨i, -, hx⟩ := Option.bind_eq_some_iff.mp hx
  obtain ⟨field, hfield, rfl⟩ := Option.map_eq_some_iff.mp hx
  exact hr field (List.mem_of_getElem? hfield)

/-- A plain record stays plain with a field replaced by a plain one. -/
theorem plain_setAt? {r r' : Record} (hr : ∀ x ∈ r.fields, w.heap.Plain x.2)
    (hitem : w.heap.Plain item) {i : Nat} (hr' : r.setAt? i item = some r') :
    ∀ x ∈ r'.fields, w.heap.Plain x.2 := by
  unfold Record.setAt? at hr'
  split at hr'
  · cases hr'
    intro x hx
    rcases List.mem_or_eq_of_mem_set hx with hx | rfl
    · exact hr x hx
    · exact hitem
  · cases hr'

include hlive

/-- Lookups in a string are tame. -/
theorem getValue_plainStr (s : Str) (hkey : w.heap.Plain key) :
    ∀ᶠ n in atTop, Tame w Heap.Plain (getValue (forcesOf n) (.str s) key) := by
  filter_upwards [eventually_leaves, foundAt_tame hkey (.str s)] with n hev hfound
  refine Tame.force hev hlive (.atom rfl) (Tame.force hev hlive hkey ?_)
  dsimp only
  split
  · exact .fail _
  · refine hfound _ fun x hx => ?_
    obtain ⟨i, -, hx⟩ := Option.bind_eq_some_iff.mp hx
    obtain ⟨c, -, rfl⟩ := Option.map_eq_some_iff.mp hx
    exact .atom rfl

/-- Lookups in a plain list are tame. -/
theorem getValue_plainList (hfirst : w.heap.Plain (.list first)) (hkey : w.heap.Plain key) :
    ∀ᶠ n in atTop, Tame w Heap.Plain (getValue (forcesOf n) (.list first) key) := by
  filter_upwards [eventually_leaves, foundAt_tame hkey (.list first),
    indexOutOfRange_tame hkey (.list first)] with n hev hfound hrange
  refine Tame.force hev hlive hfirst (Tame.force hev hlive hkey ?_)
  dsimp only
  split
  · exact .fail _
  split
  · obtain ⟨found, hnth, hplain⟩ := nth_plain hev hlive hfirst _
    exact .after hnth (hfound found hplain)
  · exact hrange

/-- Lookups in a plain record are tame. -/
theorem getValue_plainRecord {r : Ref .record} (hv : w.heap.Plain (.record r))
    (hkey : w.heap.Plain key) :
    ∀ᶠ n in atTop, Tame w Heap.Plain (getValue (forcesOf n) (.record r) key) := by
  have hfields : ∀ x ∈ (w.heap.record r).fields, w.heap.Plain x.2 := fun x hx => hv.part (.field hx)
  filter_upwards [eventually_leaves, foundAt_tame hkey (.record r)] with n hev hfound
  refine Tame.force hev hlive hv (Tame.force hev hlive hkey (.heap ?_))
  dsimp only
  split
  · exact hfound _ (plain_get? hfields _)
  · split
    · exact hfound _ (plain_at? hfields _)
    · exact .fail _

/-- With enough fuel lookups in plain data are tame. -/
theorem getValue_tame (hv : w.heap.Plain container) (hkey : w.heap.Plain key) :
    ∀ᶠ n in atTop, Tame w Heap.Plain (getValue (forcesOf n) container key) := by
  cases hv with
  | atom hatom =>
    cases container with
    | str s => exact getValue_plainStr hlive s hkey
    | list | record | variant | lazy | function | module | foreign => cases hatom
    | _ =>
      exact eventually_force hlive (.atom rfl)
        (eventually_force hlive hkey (.of_forall fun _ => .fail _))
  | nil => exact getValue_plainList hlive .nil hkey
  | cell hc htail hhead hrest =>
    exact getValue_plainList hlive (.cell hc htail hhead hrest) hkey
  | record hr hfields => exact getValue_plainRecord hlive (.record hr hfields) hkey
  | variant hc hpayload =>
    exact eventually_force hlive (.variant hc hpayload)
      (eventually_force hlive hkey (.of_forall fun _ => .fail _))

/-- Replacing an entry of a plain record is tame. -/
theorem setValue_plainRecord {r : Ref .record} (hv : w.heap.Plain (.record r))
    (hkey : w.heap.Plain key) (hitem : w.heap.Plain item) :
    ∀ᶠ n in atTop, Tame w Heap.Plain (setValue (forcesOf n) (.record r) key item) := by
  filter_upwards [eventually_leaves, indexOutOfRange_tame hkey (.record r)] with n hev hrange
  refine Tame.force hev hlive hv (Tame.force hev hlive hkey (.heap ?_))
  have hupdate {i : Option Nat} {updated : Record}
      (hset : (i.bind fun i => (w.heap.record r).setAt? i item) = some updated) :
      Tame w Heap.Plain (Eval.makeRecord updated) := by
    obtain ⟨i, -, hset⟩ := Option.bind_eq_some_iff.mp hset
    exact makeRecord_tame (plain_setAt? (fun x hx => hv.part (.field hx)) hitem hset)
  cases key with
  | str | int | long =>
    dsimp only [ordinal?]
    split
    · next hset => exact hupdate hset
    · exact hrange
  | _ => exact .fail _

/-- Replacing an entry of a plain list is tame. -/
theorem setValue_plainList (hfirst : w.heap.Plain (.list first)) (hkey : w.heap.Plain key)
    (hitem : w.heap.Plain item) :
    ∀ᶠ n in atTop, Tame w Heap.Plain (setValue (forcesOf n) (.list first) key item) := by
  filter_upwards [eventually_leaves, indexOutOfRange_tame hkey (.list first)] with n hev hrange
  refine Tame.force hev hlive hfirst (Tame.force hev hlive hkey ?_)
  dsimp only
  split
  · exact .fail _
  split
  · exact hrange
  · rcases setNth_plain hev hlive hfirst hitem _ with hnone | hsome
    · exact .after hnone hrange
    · refine hsome.bind ?_
      rintro - w' - - ⟨updated, rfl, hupdated⟩
      exact .pure hupdated

/-- With enough fuel replacing an entry of plain data is tame. -/
theorem setValue_tame (hv : w.heap.Plain container) (hkey : w.heap.Plain key)
    (hitem : w.heap.Plain item) :
    ∀ᶠ n in atTop, Tame w Heap.Plain (setValue (forcesOf n) container key item) := by
  cases hv with
  | atom hatom =>
    refine eventually_force hlive (.atom hatom) (eventually_force hlive hkey ?_)
    cases container <;> first | exact .of_forall fun _ => .fail _ | cases hatom
  | nil => exact setValue_plainList hlive .nil hkey hitem
  | cell hc htail hhead hrest =>
    exact setValue_plainList hlive (.cell hc htail hhead hrest) hkey hitem
  | record hr hfields => exact setValue_plainRecord hlive (.record hr hfields) hkey hitem
  | variant hc hpayload =>
    exact eventually_force hlive (.variant hc hpayload)
      (eventually_force hlive hkey (.of_forall fun _ => .fail _))

/-! ### Walks that are as long as a list -/

/-- With enough fuel a walk along a plain list comes to its end. -/
theorem eventually_walks (hfirst : w.heap.Plain (.list first)) :
    ∃ vs, (∀ v ∈ vs, w.heap.Plain v) ∧ ∀ᶠ n in atTop,
      Spine.Walks (forcesOf n) w first vs w none ∧ vs.length < (forcesOf n).fuel := by
  obtain ⟨vs, hcells, hvs⟩ := hfirst.chain
  refine ⟨vs, hvs, ?_⟩
  filter_upwards [eventually_gt_atTop 0, eventually_gt_atTop vs.length] with n hn hlength
  exact ⟨(hcells.walks (Nat.succ_lt_succ hn) hlive).congr (evaluator_force_eq n), hlength⟩

/-- With enough fuel plain data have a length or none is defined. -/
theorem length_tame (hv : w.heap.Plain v) :
    ∀ᶠ n in atTop, Tame w Heap.Plain (length (forcesOf n) v) := by
  refine eventually_force hlive hv ?_
  have hlist (first) (hfirst : w.heap.Plain (.list first)) : ∀ᶠ n in atTop, Tame w Heap.Plain
      (do return countValue (← Spine.length (forcesOf n) first)) := by
    obtain ⟨vs, -, hwalks⟩ := eventually_walks hlive hfirst
    filter_upwards [hwalks] with n ⟨hwalks, hfuel⟩
    exact .after (hwalks.length_ok hfuel) (.pure (.atom (isAtom_countValue _)))
  cases hv with
  | atom hatom =>
    cases v with
    | str s => exact .of_forall fun _ => .pure (.atom (isAtom_countValue _))
    | list | record | variant | lazy | function | module | foreign => cases hatom
    | _ => exact .of_forall fun _ => .fail _
  | nil => exact hlist _ .nil
  | cell hc htail hhead hrest => exact hlist _ (.cell hc htail hhead hrest)
  | record => exact .of_forall fun _ => .heap (.pure (.atom (isAtom_countValue _)))
  | variant => exact .of_forall fun _ => .fail _

/-- With enough fuel a plain sequence is finished. -/
theorem finalize_tame (hv : w.heap.Plain v) :
    ∀ᶠ n in atTop, Tame w Heap.Plain (finalize (forcesOf n) v) := by
  refine eventually_force hlive hv ?_
  have hlist (first) (hfirst : w.heap.Plain (.list first)) : ∀ᶠ n in atTop, Tame w Heap.Plain
      (do return .list (← Spine.reverse (forcesOf n) first)) := by
    obtain ⟨vs, hcells, hvs⟩ := hfirst.chain
    filter_upwards [eventually_gt_atTop 0, eventually_gt_atTop vs.length] with n hn hlength
    obtain ⟨r, h, hreverse, hpads, hreversed⟩ := hcells.reverseOnto_ok (evaluator_force_eq n)
      (Nat.succ_lt_succ hn) hlive hlength none
    refine .of_eq_ok (bind_ok hreverse) ⟨rfl, hpads.toRetains, ?_⟩
    exact .of_chain hreversed (fun v hv => (hvs v (by simpa using hv)).retains hpads.toRetains) .nil
  cases hv with
  | atom hatom =>
    cases v with
    | str s => exact .of_forall fun _ => .pure (.atom rfl)
    | list | record | variant | lazy | function | module | foreign => cases hatom
    | _ => exact .of_forall fun _ => .fail _
  | nil => exact hlist _ .nil
  | cell hc htail hhead hrest => exact hlist _ (.cell hc htail hhead hrest)
  | _ => exact .of_forall fun _ => .fail _

/-! ### Comparison -/

/-- With enough fuel the comparison of plain data is decided without a change of the world. -/
theorem equal_plain (hl : w.heap.Plain l) (hr : w.heap.Plain r) :
    ∃ b, ∀ᶠ n in atTop, equal (forcesOf n) l r w = .ok b w := by
  obtain ⟨b, -, ⟨enough, henough⟩, -⟩ :=
    equal_decides_bisimilarity w hlive l r hl.comparable hr.comparable
  refine ⟨b, ?_⟩
  filter_upwards [eventually_ge_atTop enough] with n hn
  -- what the operation answers, it has from the comparison
  have hengine : (do return .bool (← equal (forcesOf n) l r) : Eval Value) w = .ok (.bool b) w :=
    (henough (n + 1) (hn.trans n.le_succ)).1
  obtain ⟨b', w', hequal, hb'⟩ := of_bind_ok hengine
  cases hb'
  exact hequal

/-- With enough fuel comparisons of plain data are tame. -/
theorem relation_tame (op : BinaryOp) (hl : w.heap.Plain l) (hr : w.heap.Plain r) :
    ∀ᶠ n in atTop, Tame w Heap.Plain (relation (forcesOf n) op l r) := by
  obtain ⟨b, hequal⟩ := equal_plain hlive hl hr
  unfold relation
  split
  iterate 2
    filter_upwards [hequal] with n hequal
    exact .after hequal (.pure (.atom rfl))
  refine eventually_force hlive hl (eventually_force hlive hr (.of_forall fun n => ?_))
  split
  · exact absurd hl Heap.Plain.not_foreign
  · exact absurd hr Heap.Plain.not_foreign
  · refine (ordering_tame op l r).bind fun order w' _ _ _ => ?_
    split
    · exact .pure (.atom rfl)
    · exact .fail _

/-! ### Joining -/

/-- Consing plain data is tame. -/
theorem cons_tame (hl : w.heap.Plain l) (hr : w.heap.Plain r) :
    Tame w Heap.Plain (cons ev l r) := by
  refine Tame.live hlive (.resolve hr ?_)
  cases hr with
  | atom hatom =>
    cases r with
    | str s =>
      refine .resolve hl ?_
      cases l <;> first | exact makeStr_tame _ | exact .fail _
    | list | record | variant | lazy | function | module | foreign => cases hatom
    | _ => exact .fail _
  | nil => exact newCell_tame hl .nil
  | cell hc htail hhead hrest => exact newCell_tame hl (.cell hc htail hhead hrest)
  | _ => exact .fail _

omit hlive in
/-- Two plain records joined are plain. -/
theorem append_tame {a b : Ref .record} (ha : w.heap.Plain (.record a))
    (hb : w.heap.Plain (.record b)) :
    Tame w Heap.Plain (Eval.makeRecord ((w.heap.record a).append (w.heap.record b))) := by
  refine makeRecord_tame fun x hx => ?_
  rcases List.mem_append.mp hx with hx | hx
  · exact ha.part (.field hx)
  · exact hb.part (.field hx)

/-- With enough fuel concatenations of plain data are tame. -/
theorem concat_tame (hl : w.heap.Plain l) (hr : w.heap.Plain r) :
    ∀ᶠ n in atTop, Tame w Heap.Plain (concat (forcesOf n) l r) := by
  unfold concat
  split
  iterate 4 exact .of_forall fun _ => makeStr_tame _
  · exact .of_forall fun _ => .pure hl
  · obtain ⟨vs, hvs, hwalks⟩ := eventually_walks hlive hl
    filter_upwards [hwalks] with n ⟨hwalks, hfuel⟩
    exact .after (hwalks.collect_ok hfuel) ((prepend_tame hvs hr).bind fun _ _ _ _ hp => .pure hp)
  · exact .of_forall fun _ => .heap (append_tame hl hr)
  · exact .of_forall fun _ => .fail _

/-- With enough fuel binary operations on plain data are tame. -/
theorem binary_tame (op : BinaryOp) (hl : w.heap.Plain l) (hr : w.heap.Plain r) :
    ∀ᶠ n in atTop, Tame w Heap.Plain (binary (forcesOf n) op l r) := by
  refine .mono ?_ fun n => Tame.live hlive
  split
  · exact .of_forall fun _ => cons_tame hlive hl hr
  iterate 6 exact relation_tame hlive _ hl hr
  -- of the other operators, each asks for both operands first
  refine eventually_force hlive hl (eventually_force hlive hr ?_)
  split
  · exact absurd hl Heap.Plain.not_foreign
  · exact absurd hr Heap.Plain.not_foreign
  · split
    · exact .of_forall fun _ => arithmetic_tame _ _ _ _
    · exact .of_forall fun _ => bitwise_tame _ _ _ _
    · exact concat_tame hlive hl hr

/-! ### Conversion -/

/-- With enough fuel a new string shows plain data. -/
theorem makeText_tame (hv : w.heap.Plain v) {format : Format} (hformat : ¬ format.Wide) :
    ∀ᶠ n in atTop, Tame w Heap.Plain (do Eval.makeStr (← render (forcesOf n) format v)) := by
  filter_upwards [render_tame hlive hv hformat] with n hrender
  exact hrender.bind fun text _ _ _ _ => makeStr_tame text

/-- With enough fuel a spec that is not wide shows plain data or fails. -/
theorem renderAs_tame (hv : w.heap.Plain v) {spec : String}
    (hspec : ∀ format, Format.ofSpec? spec = some format → ¬ format.Wide) : ∀ᶠ n in atTop,
    Tame w Heap.Plain (do Eval.makeStr (← renderAs (forcesOf n) v spec)) := by
  unfold renderAs
  split
  · next format hformat => exact makeText_tame hlive hv (hspec format hformat)
  · have hfail (e : Value → RuntimeError) :
        Tame w (fun _ _ => False) (Eval.resolve v >>= fun v => (Eval.fail (e v) : Eval String)) :=
      .resolve hv (.fail _)
    exact .of_forall fun _ => (hfail _).bind fun _ _ _ _ hfalse => hfalse.elim

/-- Reading a text yields an atom or fails. -/
theorem readValue_tame (text : String) (target : Kind) :
    Tame w Heap.Plain (readValue text target) := by
  refine Tame.live hlive ?_
  split
  · exact makeStr_tame text
  · split
    · next u hread => exact .pure (.atom (isAtom_readScalar? hread))
    · exact .fail _

/-- With enough fuel conversions of plain data are tame. -/
theorem convert_tame (hv : w.heap.Plain v) (target : Kind) :
    ∀ᶠ n in atTop, Tame w Heap.Plain (convert (forcesOf n) v target) := by
  refine eventually_force hlive hv ?_
  split
  · exact absurd hv Heap.Plain.not_foreign
  split
  · exact .of_forall fun _ => .pure hv
  split
  · -- a list is joined if it holds nothing but characters, and shown otherwise
    obtain ⟨vs, hvs, hwalks⟩ := eventually_walks hlive hv
    filter_upwards [eventually_leaves, hwalks, makeText_tame hlive hv Format.not_wide_default]
      with n hev ⟨hwalks, hfuel⟩ htext
    obtain ⟨cs, hcs⟩ := charsOf?_plain hev hlive hvs
    refine .after (hwalks.collect_ok hfuel) (.after hcs ?_)
    cases cs with
    | none => exact htext
    | some cs => exact makeStr_tame _
  · exact makeText_tame hlive hv Format.not_wide_default
  · exact .of_forall fun _ => typeInfo_tame v
  · exact .of_forall fun _ => makeList_tame fun x hx => by
      obtain ⟨c, -, rfl⟩ := List.mem_map.mp hx
      exact .atom rfl
  · split
    · next u hu => exact .of_forall fun _ => .pure (.atom (isAtom_convertScalar? hu))
    · exact .of_forall fun _ => .fail _

end Fuel

/-! ### Every operation -/

/-- The values that an operation is about. -/
def Operation.operands : Operation → List Value
  | .force x | .unary _ x | .length x | .head x | .tail x | .isNil x | .nilOf x | .finalize x
  | .tagOf x | .untag x | .render x _ | .renderAs x _ | .convert x _ | .typeOf x => [x]
  | .binary _ l r | .equal l r | .notEqual l r => [l, r]
  | .get x key => [x, key]
  | .set x key item => [x, key, item]
  | .generate acc item => [acc, item]
  | .read _ _ => []
  | .call callee args => callee :: args

/-- Plain data cannot be called: with enough fuel the call fails. -/
theorem call_tame {w : World} (hlive : w.context.interrupt? = none) {callee : Value}
    (hcallee : w.heap.Plain callee) (args : List Value) :
    ∀ᶠ n in atTop, Tame w Heap.Plain (call (engine n) n callee args) := by
  refine eventually_force hlive hcallee (.of_forall fun n => ?_)
  cases hcallee with
  | atom hatom => cases callee <;> first | exact .fail _ | cases hatom
  | _ => exact .fail _

/-- On a live context every operation on plain data yields plain data or records a failure, if it
shows nothing in a wide format. -/
theorem perform_tame {w : World} (hlive : w.context.interrupt? = none) {o : Operation}
    (ho : ∀ v ∈ o.operands, w.heap.Plain v) (hwide : ¬ o.Wide) :
    ∀ᶠ n in atTop, Tame w Heap.Plain (perform (engine n) n o) := by
  -- plain data hold no thunks, so from some fuel on forcing leaves them as they are
  have hleaves := eventually_leaves
  cases o <;> simp only [Operation.operands, List.forall_mem_cons, List.not_mem_nil,
    false_implies, implies_true, and_true] at ho
  case force x =>
    filter_upwards [hleaves] with n hev
    exact .of_ok (hev w x hlive ho.isLazy) ho
  case binary op l r => exact binary_tame hlive op ho.1 ho.2
  case unary op x => exact hleaves.mono fun _ hev => unary_tame hev hlive op ho
  case equal l r | notEqual l r =>
    obtain ⟨b, hequal⟩ := equal_plain hlive ho.1 ho.2
    exact hequal.mono fun _ hequal => .after hequal (.pure (.atom rfl))
  case length x => exact length_tame hlive ho
  case get x key => exact getValue_tame hlive ho.1 ho.2
  case set x key item => exact setValue_tame hlive ho.1 ho.2.1 ho.2.2
  case head x => exact hleaves.mono fun _ hev => head_tame hev hlive ho
  case tail x => exact hleaves.mono fun _ hev => tail_tame hev hlive ho
  case isNil x =>
    exact hleaves.mono fun _ hev =>
      (isNil_tame hev hlive ho).bind fun _ _ _ _ _ => .pure (.atom rfl)
  case nilOf x => exact hleaves.mono fun _ hev => nilOf_tame hev hlive ho
  case generate acc item => exact hleaves.mono fun _ hev => generate_tame hev hlive ho.1 ho.2
  case finalize acc => exact finalize_tame hlive ho
  case tagOf x => exact hleaves.mono fun _ hev => tagOf_tame hev hlive ho
  case untag x => exact hleaves.mono fun _ hev => untag_tame hev hlive ho
  case render x format => exact makeText_tame hlive ho hwide
  case renderAs x spec =>
    exact renderAs_tame hlive ho fun format hformat h => hwide ⟨format, hformat, h⟩
  case convert x target => exact convert_tame hlive ho target
  case read text target => exact .of_forall fun _ => readValue_tame hlive text target
  case typeOf x => exact hleaves.mono fun _ hev => typeOf_tame hev hlive ho
  case call callee args => exact call_tame hlive ho.1 args

/-- Operations on plain data are total: on a live context they yield plain data or record a failure,
at every level that is high enough. -/
theorem engine_tame {w : World} (hlive : w.context.interrupt? = none) {o : Operation}
    (ho : ∀ v ∈ o.operands, w.heap.Plain v) (hwide : ¬ o.Wide) :
    ∃ enough, ∀ level, enough ≤ level → Tame w Heap.Plain (engine level o) := by
  obtain ⟨enough, henough⟩ := eventually_atTop.mp (perform_tame hlive ho hwide)
  refine ⟨enough + 1, fun level hlevel => ?_⟩
  obtain ⟨n, rfl⟩ := Nat.exists_eq_succ_of_ne_zero (Nat.ne_zero_of_lt hlevel)
  exact henough n (Nat.le_of_succ_le_succ hlevel)

end LazyMachine
