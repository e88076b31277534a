import LazyMachine.Heap
import Mathlib.Data.List.Forall2
import Mathlib.Logic.Relation
import Mathlib.Tactic.Common

/-!
# Bisimilar values

What two values have to have in common to be equal, on a heap that may be cyclic:

* `Heap.Matches h R l r` compares the outermost layers of two values and asks `R` of their parts;
* `Heap.Bisimilar h` is the largest relation whose pairs match with related parts, lazy values
  counting as what they resolve to;
* `Heap.Comparable h v` says that everything reachable from `v` can be compared without evaluation;
* `Heap.plainEqual h` compares by plain recursion. It ends where the data is acyclic, and there it
  decides bisimilarity (`Acyclic.plainEqual_eq`).

Bisimilarity is symmetric (`Bisimilar.symm`), which for numbers rests on the order of floating-point
numbers being the same from both sides.
-/

namespace LazyMachine

/-! ### Numbers -/

section Numbers

open Float.Model

/-- The order of two floating-point numbers seen from the other side. -/
theorem unpackedFloat_compare_swap (a b : UnpackedFloat) :
    b.compare a = (a.compare b).map Ordering.swap := by
  rcases a with (_ | _) | _ | (_ | _) | ⟨_ | _, m, e, h⟩ <;>
    rcases b with (_ | _) | _ | (_ | _) | ⟨_ | _, m', e', h'⟩ <;>
    try rfl
  · dsimp only [UnpackedFloat.compare]
    simp [Ordering.swap_then, Int.compare_swap, Nat.compare_swap]
  · dsimp only [UnpackedFloat.compare]
    simp [Ordering.swap_then, Int.compare_swap, Nat.compare_swap]

/-- Comparisons that come from one order tell equality by that order. -/
theorem orderOf_eq_iff {less equal greater : Bool} {o : Option Ordering}
    (hless : less = true ↔ o = some .lt) (hequal : equal = true ↔ o = some .eq) :
    Numeric.orderOf less equal greater = some .eq ↔ o = some .eq := by
  rcases o with _ | _ | _ | _ <;> cases less <;> cases equal <;> cases greater <;>
    simp_all [Numeric.orderOf]

/-- Two numbers are equal in order if they compare so. -/
theorem Numeric.order?_single_eq_iff (x y : Float32) :
    (Pair.single x y).order? = some .eq ↔
      x.toModel.unpack.compare y.toModel.unpack = some .eq := by
  refine orderOf_eq_iff ?_ (beq_iff_eq (a := x.toModel.unpack.compare y.toModel.unpack))
  rw [decide_eq_true_iff]
  exact decide_eq_true_iff.trans (beq_iff_eq (a := x.toModel.unpack.compare y.toModel.unpack))

/-- The same in double precision. -/
theorem Numeric.order?_double_eq_iff (x y : Float) :
    (Pair.double x y).order? = some .eq ↔
      x.toModel.unpack.compare y.toModel.unpack = some .eq := by
  refine orderOf_eq_iff ?_ (beq_iff_eq (a := x.toModel.unpack.compare y.toModel.unpack))
  rw [decide_eq_true_iff]
  exact decide_eq_true_iff.trans (beq_iff_eq (a := x.toModel.unpack.compare y.toModel.unpack))

/-- A pair of numbers with the sides exchanged. -/
def Numeric.Pair.swap : Numeric.Pair → Numeric.Pair
  | .int x y => .int y x
  | .long x y => .long y x
  | .single x y => .single y x
  | .double x y => .double y x

/-- Numbers are promoted in either order. -/
theorem Numeric.promote_swap (a b : Numeric) : b.promote a = (a.promote b).swap := by
  cases a <;> cases b <;> rfl

/-- Numbers that are equal are so from both sides. -/
theorem Numeric.Pair.order?_swap_eq {p : Numeric.Pair} (hp : p.order? = some .eq) :
    p.swap.order? = some .eq := by
  cases p with
  | int x y => simp_all [order?, swap]
  | long x y => simp_all [order?, swap]
  | single x y =>
    rw [swap, order?_single_eq_iff, unpackedFloat_compare_swap x.toModel.unpack,
      (order?_single_eq_iff x y).mp hp]
    rfl
  | double x y =>
    rw [swap, order?_double_eq_iff, unpackedFloat_compare_swap x.toModel.unpack,
      (order?_double_eq_iff x y).mp hp]
    rfl

end Numbers

/-! ### Values -/

/-- Whether two values without parts are equal: numbers after promotion, texts by their characters,
functions and modules by identity, type descriptors by their ids. -/
def Value.alike : Value → Value → Bool
  | .unit, .unit => true
  | .bool a, .bool b => a == b
  | .char a, .char b => a == b
  | .str a, .str b => a.text == b.text
  | .list none, .list none => true
  | .function a, .function b => a == b
  | .module a, .module b => a == b
  | .typeInfo a, .typeInfo b => a.id == b.id
  | l, r =>
    match l.numeric?, r.numeric? with
    | some a, some b => (a.promote b).order? == some .eq
    | _, _ => false

/-- To be alike is symmetric. -/
theorem Value.alike_symm {l r : Value} (h : l.alike r) : r.alike l := by
  unfold Value.alike at h
  split at h
  case h_9 =>
    split at h
    · next a b ha hb =>
      have hswap : (b.promote a).order? = some .eq := by
        rw [Numeric.promote_swap a b]
        exact Numeric.Pair.order?_swap_eq (by simpa using h)
      cases l <;> cases ha <;> cases r <;> cases hb <;> simpa [alike, numeric?] using hswap
    · cases h
  all_goals simp_all [alike]

namespace Heap

variable (h : Heap)

/-- The outermost layers of two values, neither of them lazy, are equal, and their parts are related
by `R`. -/
def Matches (R : Value → Value → Prop) : Value → Value → Prop
  | .list (some a), .list (some b) =>
    R (h.cell a).head (h.cell b).head ∧ R (h.cell a).tail (h.cell b).tail
  | .record a, .record b =>
    List.Forall₂ (fun x y => x.1 = y.1 ∧ R x.2 y.2) (h.record a).fields (h.record b).fields
  | .variant a, .variant b =>
    (h.variant a).tag.text = (h.variant b).tag.text ∧
      R (h.variant a).payload (h.variant b).payload
  | l, r => l.alike r

/-- A relation all of whose pairs match. A lazy value counts as what it resolves to. -/
def Bisimulation (R : Value → Value → Prop) : Prop :=
  ∀ l r, R l r → h.Matches R (h.resolve l) (h.resolve r)

/-- The largest bisimulation. -/
def Bisimilar (l r : Value) : Prop :=
  ∃ R, h.Bisimulation R ∧ R l r

variable {h}

/-- Unless both are structures of one kind, values match if they are alike. -/
theorem matches_iff_alike {R : Value → Value → Prop} {l r : Value}
    (hlist : ∀ a b, l = .list (some a) → r = .list (some b) → False)
    (hrecord : ∀ a b, l = .record a → r = .record b → False)
    (hvariant : ∀ a b, l = .variant a → r = .variant b → False) :
    h.Matches R l r ↔ l.alike r := by
  unfold Matches
  split
  · exact (hlist _ _ rfl rfl).elim
  · exact (hrecord _ _ rfl rfl).elim
  · exact (hvariant _ _ rfl rfl).elim
  · exact Iff.rfl

/-- A wider relation of parts is matched as well. -/
theorem Matches.mono {R S : Value → Value → Prop} (hRS : ∀ l r, R l r → S l r) {l r : Value}
    (hm : h.Matches R l r) : h.Matches S l r := by
  unfold Matches at *
  split at hm
  · exact ⟨hRS _ _ hm.1, hRS _ _ hm.2⟩
  · exact hm.imp fun x y hxy => ⟨hxy.1, hRS _ _ hxy.2⟩
  · exact ⟨hm.1, hRS _ _ hm.2⟩
  · exact hm

/-- What matches in one order does so in the other. -/
theorem Matches.symm {R : Value → Value → Prop} {l r : Value} (hm : h.Matches R l r) :
    h.Matches (fun x y => R y x) r l := by
  unfold Matches at hm
  split at hm
  · exact hm
  · refine hm.flip.imp fun x y hxy => ⟨hxy.1.symm, hxy.2⟩
  · exact ⟨hm.1.symm, hm.2⟩
  · next hlist hrecord hvariant =>
    refine (matches_iff_alike ?_ ?_ ?_).mpr (Value.alike_symm hm)
    · exact fun a b ha hb => hlist b a hb ha
    · exact fun a b ha hb => hrecord b a hb ha
    · exact fun a b ha hb => hvariant b a hb ha

/-- Bisimilar values match with bisimilar parts. -/
theorem Bisimilar.matches {l r : Value} (hb : h.Bisimilar l r) :
    h.Matches h.Bisimilar (h.resolve l) (h.resolve r) := by
  obtain ⟨R, hR, hlr⟩ := hb
  exact (hR l r hlr).mono fun x y hxy => ⟨R, hR, hxy⟩

theorem Bisimilar.symm {l r : Value} (hb : h.Bisimilar l r) : h.Bisimilar r l := by
  obtain ⟨R, hR, hlr⟩ := hb
  exact ⟨fun x y => R y x, fun x y hxy => (hR y x hxy).symm, hlr⟩

/-- Only what values resolve to counts. -/
theorem Bisimilar.congr {l r l' r' : Value} (hb : h.Bisimilar l r)
    (hl : h.resolve l' = h.resolve l) (hr : h.resolve r' = h.resolve r) : h.Bisimilar l' r' := by
  refine ⟨fun x y => h.Bisimilar x y ∨ x = l' ∧ y = r', ?_, .inr ⟨rfl, rfl⟩⟩
  rintro x y (hxy | ⟨rfl, rfl⟩)
  · exact hxy.matches.mono fun _ _ => .inl
  · rw [hl, hr]
    exact hb.matches.mono fun _ _ => .inl

/-! ### What is reachable -/

/-- `u` is what the forced thunk `v` holds, or a part of the list, record or variant `v`. -/
inductive Part (h : Heap) : (v u : Value) → Prop
  | memo {t : Ref .thunk} {u : Value} (ht : h.memo? t = some u) : Part h (.lazy t) u
  | head (c : Ref .cell) : Part h (.list (some c)) (h.cell c).head
  | tail (c : Ref .cell) : Part h (.list (some c)) (h.cell c).tail
  | field {r : Ref .record} {x : String × Value} (hx : x ∈ (h.record r).fields) :
      Part h (.record r) x.2
  | payload (v : Ref .variant) : Part h (.variant v) (h.variant v).payload

/-- `u` is a part of `v`, of one of its parts and so on, or `v` itself. -/
abbrev Reaches (h : Heap) : Value → Value → Prop :=
  Relation.ReflTransGen h.Part

/-- The object that a structure refers to is on the heap. -/
def Holds (h : Heap) : Value → Prop
  | .list (some c) => c.index < h.cells.size
  | .record r => r.index < h.records.size
  | .variant v => v.index < h.variants.size
  | _ => True

/-- Everything reachable from `v` can be compared without evaluation. -/
structure Comparable (h : Heap) (v : Value) : Prop where
  /-- What is reachable is on the heap. -/
  held : ∀ u, h.Reaches v u → h.Holds u
  /-- Every reachable thunk has a value, which is not lazy in the end. -/
  evaluated : ∀ u, h.Reaches v u → (h.resolve u).isLazy = false
  /-- Every reachable list goes on with a list. -/
  spine : ∀ c, h.Reaches v (.list (some c)) → ∃ rest, h.resolve (h.cell c).tail = .list rest
  /-- No foreign value is reachable. -/
  native : ∀ f, ¬ h.Reaches v (.foreign f)

/-- Every path from `v` to parts of parts ends. -/
def Acyclic (h : Heap) (v : Value) : Prop :=
  Acc (fun u v => h.Part v u) v

/-- What is reached from comparable data is comparable. -/
theorem Comparable.of_reaches {v u : Value} (hv : h.Comparable v) (hu : h.Reaches v u) :
    h.Comparable u where
  held x hx := hv.held x (hu.trans hx)
  evaluated x hx := hv.evaluated x (hu.trans hx)
  spine c hc := hv.spine c (hu.trans hc)
  native f hf := hv.native f (hu.trans hf)

/-- A list of values that is closed under parts shows its members comparable. -/
theorem Comparable.of_closed (vs : List Value)
    (hclosed : ∀ v ∈ vs, ∀ u, h.Part v u → u ∈ vs)
    (hvs : ∀ v ∈ vs, h.Holds v ∧ (h.resolve v).isLazy = false ∧
      (∀ c, v = .list (some c) → ∃ rest, h.resolve (h.cell c).tail = .list rest) ∧
      ∀ f, v ≠ .foreign f)
    {v : Value} (hv : v ∈ vs) : h.Comparable v := by
  have hmem (u : Value) (hu : h.Reaches v u) : u ∈ vs := by
    induction hu with
    | refl => exact hv
    | tail _ hpart ih => exact hclosed _ ih _ hpart
  exact {
    held := fun u hu => (hvs u (hmem u hu)).1
    evaluated := fun u hu => (hvs u (hmem u hu)).2.1
    spine := fun c hc => (hvs _ (hmem _ hc)).2.2.1 c rfl
    native := fun f hf => (hvs _ (hmem _ hf)).2.2.2 f rfl }

/-- The parts of comparable data are comparable. -/
theorem Comparable.part {v u : Value} (hv : h.Comparable v) (hu : h.Part v u) : h.Comparable u :=
  hv.of_reaches (.single hu)

/-- Following memos reaches what it comes to. -/
theorem reaches_follow (h : Heap) (steps : Nat) (v : Value) : h.Reaches v (h.follow steps v) := by
  induction steps generalizing v with
  | zero => exact .refl
  | succ steps ih =>
    unfold follow
    split
    · split
      · next t w ht => exact .head (.memo ht) (ih w)
      · exact .refl
    · exact .refl

/-- A value reaches what it resolves to. -/
theorem reaches_resolve (h : Heap) (v : Value) : h.Reaches v (h.resolve v) :=
  reaches_follow h _ v

/-- What is not lazy resolves to itself. -/
theorem resolve_of_not_lazy {v : Value} (hv : v.isLazy = false) : h.resolve v = v := by
  unfold resolve follow
  split
  · cases hv
  · rfl

/-! ### Plain recursion -/

/-- Compares fields in order by a comparison of values. -/
def plainFields (compare : Value → Value → Option Bool) :
    List (String × Value) → List (String × Value) → Option Bool
  | (n, v) :: a, (m, w) :: b =>
    if n ≠ m then some false
    else
      match compare v w with
      | some true => plainFields compare a b
      | other => other
  | [], [] => some true
  | _, _ => some false

/-- Compares two values by plain recursion, without a record of the pairs met; `none` for lack of
fuel. -/
def plainEqual (h : Heap) : (fuel : Nat) → Value → Value → Option Bool
  | 0, _, _ => none
  | fuel + 1, l, r =>
    match h.resolve l, h.resolve r with
    | .list (some a), .list (some b) =>
      match h.plainEqual fuel (h.cell a).head (h.cell b).head with
      | some true => h.plainEqual fuel (h.cell a).tail (h.cell b).tail
      | other => other
    | .record a, .record b =>
      plainFields (h.plainEqual fuel) (h.record a).fields (h.record b).fields
    | .variant a, .variant b =>
      if (h.variant a).tag.text ≠ (h.variant b).tag.text then some false
      else h.plainEqual fuel (h.variant a).payload (h.variant b).payload
    | l, r => some (l.alike r)

section PlainFields

variable {compare : Value → Value → Option Bool} {a b : List (String × Value)}

/-- Equal records have equal fields under the same names. -/
theorem forall₂_of_plainFields (hab : plainFields compare a b = some true) :
    List.Forall₂ (fun x y => x.1 = y.1 ∧ compare x.2 y.2 = some true) a b := by
  fun_induction plainFields compare a b with
  | case1 => cases hab
  | case2 n v a m w b hnm hvw ih => exact .cons ⟨by simpa using hnm, hvw⟩ (ih hab)
  | case3 n v a m w b hnm hother => exact absurd hab hother
  | case4 => exact .nil
  | case5 => cases hab

/-- There is no difference between fields without one. -/
theorem plainFields_ne_false {R : Value → Value → Prop}
    (hR : ∀ x y, R x y → compare x y ≠ some false)
    (hab : List.Forall₂ (fun x y => x.1 = y.1 ∧ R x.2 y.2) a b) :
    plainFields compare a b ≠ some false := by
  induction hab with
  | nil => simp [plainFields]
  | @cons x y a b hxy _ ih =>
    obtain ⟨n, v⟩ := x
    obtain ⟨m, w⟩ := y
    rw [plainFields, if_neg (by simpa using hxy.1)]
    split
    · exact ih
    · exact hR _ _ hxy.2

/-- The comparison of fields ends if those of their values do. -/
theorem isSome_plainFields (ha : ∀ x ∈ a, ∀ w, (compare x.2 w).isSome) :
    (plainFields compare a b).isSome := by
  fun_induction plainFields compare a b with
  | case1 => rfl
  | case2 n v a m w b _ _ ih => exact ih fun x hx => ha x (List.mem_cons_of_mem _ hx)
  | case3 n v a m w b _ _ => exact ha (n, v) List.mem_cons_self w
  | case4 => rfl
  | case5 => rfl

end PlainFields

/-- Where plain recursion finds two values equal, they are bisimilar. -/
theorem bisimulation_plainEqual (h : Heap) :
    h.Bisimulation fun l r => ∃ fuel, h.plainEqual fuel l r = some true := by
  rintro l r ⟨fuel, hlr⟩
  cases fuel with
  | zero => cases hlr
  | succ fuel =>
    unfold plainEqual at hlr
    split at hlr
    · next a b ha hb =>
      rw [ha, hb]
      split at hlr
      · next hhead => exact ⟨⟨fuel, hhead⟩, ⟨fuel, hlr⟩⟩
      · next hhead => exact absurd hlr hhead
    · next a b ha hb =>
      rw [ha, hb]
      exact (forall₂_of_plainFields hlr).imp fun x y hxy => ⟨hxy.1, fuel, hxy.2⟩
    · next a b ha hb =>
      rw [ha, hb]
      split at hlr
      · cases hlr
      · next htag => exact ⟨by simpa using htag, fuel, hlr⟩
    · next hlist hrecord hvariant =>
      rw [matches_iff_alike hlist hrecord hvariant]
      exact Option.some.inj hlr

/-- Plain recursion finds no difference between bisimilar values. -/
theorem Bisimilar.plainEqual_ne_false {l r : Value} (hb : h.Bisimilar l r) (fuel : Nat) :
    h.plainEqual fuel l r ≠ some false := by
  induction fuel generalizing l r with
  | zero => simp [plainEqual]
  | succ fuel ih =>
    have hm := hb.matches
    unfold plainEqual
    split
    · next a b ha hb =>
      rw [ha, hb] at hm
      split
      · exact ih hm.2
      · exact ih hm.1
    · next a b ha hb =>
      rw [ha, hb] at hm
      exact plainFields_ne_false (fun x y => ih) hm
    · next a b ha hb =>
      rw [ha, hb] at hm
      rw [if_neg (by simpa using hm.1)]
      exact ih hm.2
    · next hlist hrecord hvariant =>
      rw [(matches_iff_alike hlist hrecord hvariant).mp hm]
      simp

/-- An answer of plain recursion tells whether values are bisimilar. -/
theorem plainEqual_eq_some {l r : Value} {fuel : Nat} {b : Bool}
    (hb : h.plainEqual fuel l r = some b) : b = true ↔ h.Bisimilar l r := by
  constructor
  · rintro rfl
    exact ⟨_, h.bisimulation_plainEqual, fuel, hb⟩
  · intro hlr
    cases b with
    | true => rfl
    | false => exact absurd hb (hlr.plainEqual_ne_false fuel)

/-- If each of finitely many cases needs some amount of fuel, some amount is enough for all. -/
theorem exists_enough {α : Type} {P : α → Nat → Prop} (xs : List α)
    (hxs : ∀ x ∈ xs, ∃ enough, ∀ fuel, enough ≤ fuel → P x fuel) :
    ∃ enough, ∀ fuel, enough ≤ fuel → ∀ x ∈ xs, P x fuel := by
  induction xs with
  | nil => exact ⟨0, by simp⟩
  | cons x xs ih =>
    obtain ⟨n, hn⟩ := hxs x List.mem_cons_self
    obtain ⟨m, hm⟩ := ih fun y hy => hxs y (List.mem_cons_of_mem x hy)
    refine ⟨max n m, fun fuel hfuel y hy => ?_⟩
    rcases List.mem_cons.mp hy with rfl | hy
    · exact hn fuel (by omega)
    · exact hm fuel (by omega) y hy

/-- The parts of a value that is not lazy. -/
def partsOf (h : Heap) : Value → List Value
  | .list (some c) => [(h.cell c).head, (h.cell c).tail]
  | .record r => (h.record r).fields.map (·.2)
  | .variant v => [(h.variant v).payload]
  | _ => []

/-- What is listed as a part is one. -/
theorem part_of_mem_partsOf {v u : Value} (hu : u ∈ h.partsOf v) : h.Part v u := by
  unfold partsOf at hu
  split at hu
  · next c =>
    rcases List.mem_pair.mp hu with rfl | rfl
    · exact .head c
    · exact .tail c
  · obtain ⟨x, hx, rfl⟩ := List.mem_map.mp hu
    exact .field hx
  · next v =>
    cases List.mem_singleton.mp hu
    exact .payload v
  · cases hu

/-- Plain recursion answers if it answers on the parts of one side. -/
theorem isSome_plainEqual_succ {l : Value} {fuel : Nat}
    (hparts : ∀ u ∈ h.partsOf (h.resolve l), ∀ r, (h.plainEqual fuel u r).isSome) (r : Value) :
    (h.plainEqual (fuel + 1) l r).isSome := by
  unfold plainEqual
  split
  · next a b ha hb =>
    rw [ha] at hparts
    split
    · exact hparts _ (by simp [partsOf]) _
    · exact hparts _ (by simp [partsOf]) _
  · next a b ha hb =>
    rw [ha] at hparts
    exact isSome_plainFields fun x hx => hparts x.2 (List.mem_map_of_mem hx)
  · next a b ha hb =>
    rw [ha] at hparts
    split
    · rfl
    · exact hparts _ (by simp [partsOf]) _
  · rfl

/-- Plain recursion answers with enough fuel, if one side is acyclic. -/
theorem Acyclic.isSome_plainEqual {l : Value} (hl : h.Acyclic l) :
    ∃ enough, ∀ fuel, enough ≤ fuel → ∀ r, (h.plainEqual fuel l r).isSome := by
  have hacc := Acc.transGen hl
  clear hl
  induction hacc with
  | intro l _ ih =>
    obtain ⟨enough, henough⟩ := exists_enough (h.partsOf (h.resolve l)) fun u hu =>
      ih u (Relation.transGen_swap.mpr
        (.tail' (h.reaches_resolve l) (part_of_mem_partsOf hu)))
    refine ⟨enough + 1, fun fuel hfuel => ?_⟩
    obtain ⟨k, rfl⟩ := Nat.exists_eq_add_of_le' (Nat.le_of_add_left_le hfuel)
    exact isSome_plainEqual_succ (henough k (by omega))

/-- On acyclic data plain recursion decides bisimilarity. -/
theorem Acyclic.plainEqual_eq {l : Value} (hl : h.Acyclic l) {r : Value} {b : Bool}
    (hb : b = true ↔ h.Bisimilar l r) :
    ∃ enough, ∀ fuel, enough ≤ fuel → h.plainEqual fuel l r = some b := by
  obtain ⟨enough, henough⟩ := hl.isSome_plainEqual
  refine ⟨enough, fun fuel hfuel => ?_⟩
  obtain ⟨b', hb'⟩ := Option.isSome_iff_exists.mp (henough fuel hfuel r)
  rw [hb', Bool.eq_iff_iff.mpr ((plainEqual_eq_some hb').trans hb.symm)]

end Heap

end LazyMachine
