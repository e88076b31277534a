import LazyMachine.Inspect
import LazyMachine.Proofs.Equality
import Mathlib

/-!
# Host equality and equality

The host compares values by structure too, but numbers only within their class, and an object is
equal to itself without a look inside. On data that can be compared without evaluation and holds no
NaN, what is equal to the host is equal (`host_equality_refines`): the pairs that the host finds
equal, together with the bisimilar ones, are a bisimulation (`bisimulation_agreed`), since without
NaN an object is bisimilar to itself (`Heap.Comparable.bisimilar_self`).

On acyclic data the host's comparison ends (`exists_endsFrom`). There the two differ only
where numbers of different classes stand in the same place (`Heap.InOneClass`): otherwise the host
finds no difference between bisimilar values (`findsNoDifference`).
-/

namespace LazyMachine

open Inspect

/-! ### Numbers without promotion -/

/-- Whether this is a floating-point number that is not a number. -/
def Value.isNaN : Value → Bool
  | .single x => x.isNaN
  | .double x => x.isNaN
  | _ => false

section Numbers

open Float.Model

/-- A floating-point number other than NaN compares equal to itself. -/
theorem unpackedFloat_compare_self {a : UnpackedFloat} (ha : a.isNaN = false) :
    a.compare a = some .eq := by
  rcases a with (_ | _) | _ | (_ | _) | ⟨_ | _, m, e, h⟩
  case notANumber => cases ha
  all_goals first | rfl | simp [UnpackedFloat.compare]

/-- Integers are alike if they are equal. -/
theorem alike_int_iff (x y : Int32) :
    (Value.int x).alike (.int y) = true ↔ (x == y) = true := by
  simp [Value.alike, Value.numeric?, Numeric.promote, Numeric.Pair.order?, Int32.toInt_inj]

theorem alike_long_iff (x y : Int64) :
    (Value.long x).alike (.long y) = true ↔ (x == y) = true := by
  simp [Value.alike, Value.numeric?, Numeric.promote, Numeric.Pair.order?, Int64.toInt_inj]

/-- The host finds two numbers equal if they compare so. -/
theorem beq_single_iff (x y : Float32) :
    (x == y) = true ↔ x.toModel.unpack.compare y.toModel.unpack = some .eq :=
  beq_iff_eq (a := x.toModel.unpack.compare y.toModel.unpack)

theorem beq_double_iff (x y : Float) :
    (x == y) = true ↔ x.toModel.unpack.compare y.toModel.unpack = some .eq :=
  beq_iff_eq (a := x.toModel.unpack.compare y.toModel.unpack)

/-- Numbers of the same class are alike if the host finds them equal. -/
theorem alike_single_iff (x y : Float32) :
    (Value.single x).alike (.single y) = true ↔ (x == y) = true := by
  rw [beq_single_iff, ← Numeric.order?_single_eq_iff]
  exact beq_iff_eq

theorem alike_double_iff (x y : Float) :
    (Value.double x).alike (.double y) = true ↔ (x == y) = true := by
  rw [beq_double_iff, ← Numeric.order?_double_eq_iff]
  exact beq_iff_eq

/-- A value that is evaluated, no structure, no foreign value and not NaN is like itself. -/
theorem Value.alike_self {v : Value} (hnan : v.isNaN = false) (hlazy : v.isLazy = false)
    (hforeign : ∀ f, v ≠ .foreign f) (hpair : pairOf? v v = none) : v.alike v = true := by
  cases v with
  | int i => exact (alike_int_iff i i).mpr (beq_self_eq_true i)
  | long i => exact (alike_long_iff i i).mpr (beq_self_eq_true i)
  | single x =>
    exact (alike_single_iff x x).mpr ((beq_single_iff x x).mpr (unpackedFloat_compare_self hnan))
  | double x =>
    exact (alike_double_iff x x).mpr ((beq_double_iff x x).mpr (unpackedFloat_compare_self hnan))
  | list first => cases first with
    | none => rfl
    | some c => cases hpair
  | record r => cases hpair
  | variant r => cases hpair
  | lazy t => cases hlazy
  | foreign f => exact absurd rfl (hforeign f)
  | _ => simp [alike]

end Numbers

/-! ### An object and itself -/

namespace Heap

variable {h : Heap} {l r v u : Value}

/-- No NaN is reachable from `v`. -/
def Numerical (h : Heap) (v : Value) : Prop :=
  ∀ u, h.Reaches v u → u.isNaN = false

/-- What is reached from numerical data is numerical. -/
theorem Numerical.of_reaches (hv : h.Numerical v) (hu : h.Reaches v u) : h.Numerical u :=
  fun x hx => hv x (hu.trans hx)

/-- The parts of numerical data are numerical. -/
theorem Numerical.part (hv : h.Numerical v) (hu : h.Part v u) : h.Numerical u :=
  hv.of_reaches (.single hu)

/-- Without NaN a value is bisimilar to itself. -/
theorem Comparable.bisimilar_self (hv : h.Comparable v) (hnum : h.Numerical v) :
    h.Bisimilar v v := by
  refine ⟨fun x y => x = y ∧ h.Comparable x ∧ h.Numerical x, ?_, rfl, hv, hnum⟩
  rintro x _ ⟨rfl, hx, hnum⟩
  have hlazy := hx.evaluated x .refl
  replace hx := hx.of_reaches (reaches_resolve h x)
  replace hnum := hnum.of_reaches (reaches_resolve h x)
  generalize h.resolve x = x at hx hnum hlazy
  have hparts {u : Value} (hu : h.Part x u) : u = u ∧ h.Comparable u ∧ h.Numerical u :=
    ⟨rfl, hx.part hu, hnum.part hu⟩
  cases hpair : pairOf? x x with
  -- a value is its own partner as a whole, and so is each of its parts
  | none =>
    refine (matches_of_pairOf?_eq_none hpair).mpr (Value.alike_self (hnum x .refl) hlazy ?_ hpair)
    rintro f rfl
    exact hx.native f .refl
  | some p =>
    cases x with
    | list first => cases first with
      | none => cases hpair
      | some c => exact ⟨hparts (.head c), hparts (.tail c)⟩
    | record r => exact List.forall₂_same.mpr fun x hx => ⟨rfl, hparts (.field hx)⟩
    | variant r => exact ⟨rfl, hparts (.payload r)⟩
    | _ => cases hpair

end Heap

/-! ### What the host finds equal -/

section HostEqual

variable {h : Heap} {l r v : Value} {fuel : Nat} {a b : Option (Ref .cell)}

/-- Only what values resolve to counts. -/
theorem same?_resolve (hl : (h.resolve l).isLazy = false) (hr : (h.resolve r).isLazy = false) :
    same? h (fuel + 1) l r = same? h (fuel + 1) (h.resolve l) (h.resolve r) := by
  simp only [same?, Heap.resolve?_of_evaluated hl, Heap.resolve?_of_evaluated hr,
    Heap.resolve?_of_not_lazy hl, Heap.resolve?_of_not_lazy hr]

/-- The host finds the two values equal. -/
def HostEqual (h : Heap) (l r : Value) : Prop :=
  ∃ fuel, same? h fuel l r = some true

/-- Lists with their first cells are equal to the host if the heads and the tails are. -/
theorem sameLists?_cons {x y : Ref .cell} {ra rb : Option (Ref .cell)} (hxy : x ≠ y)
    (ha : h.resolve (h.cell x).tail = .list ra) (hb : h.resolve (h.cell y).tail = .list rb) :
    sameLists? h (fuel + 1) (some x) (some y) =
      match same? h fuel (h.cell x).head (h.cell y).head with
      | some true => sameLists? h fuel ra rb
      | other => other := by
  have hra : h.resolve? (h.cell x).tail = some (.list ra) := by
    rw [Heap.resolve?_of_evaluated (by rw [ha]; rfl), ha]
  have hrb : h.resolve? (h.cell y).tail = some (.list rb) := by
    rw [Heap.resolve?_of_evaluated (by rw [hb]; rfl), hb]
  -- no answer, a difference, or none
  rcases hhead : same? h fuel (h.cell x).head (h.cell y).head with _ | _ | _ <;>
    simp only [sameLists?, if_neg hxy, hhead, hra, hrb, Option.bind_eq_bind, Option.bind_some]

/-- Lists are compared cell by cell. -/
theorem same?_list (a b : Option (Ref .cell)) :
    same? h (fuel + 1) (.list a) (.list b) = sameLists? h fuel a b := by
  simp only [same?, Heap.resolve?_of_not_lazy (h := h) (v := .list a) rfl,
    Heap.resolve?_of_not_lazy (h := h) (v := .list b) rfl, Option.bind_eq_bind, Option.bind_some]

/-- What a comparison of comparable lists without a difference has found. -/
theorem of_sameLists? (ha : h.Comparable (.list a)) (hb : h.Comparable (.list b))
    (hsame : sameLists? h fuel a b = some true) :
    a = b ∨ ∃ x y, a = some x ∧ b = some y ∧ HostEqual h (h.cell x).head (h.cell y).head ∧
      HostEqual h (h.cell x).tail (h.cell y).tail := by
  cases fuel with
  | zero => cases hsame
  | succ fuel =>
    match a, b with
    | none, none => exact .inl rfl
    | none, some y => cases hsame
    | some x, none => cases hsame
    | some x, some y =>
      by_cases hxy : x = y
      · exact .inl (congrArg some hxy)
      · obtain ⟨ra, hra⟩ := ha.spine x .refl
        obtain ⟨rb, hrb⟩ := hb.spine y .refl
        rw [sameLists?_cons hxy hra hrb] at hsame
        split at hsame
        · next hhead =>
          refine .inr ⟨x, y, rfl, rfl, ⟨fuel, hhead⟩, fuel + 1, ?_⟩
          rw [same?_resolve (by rw [hra]; rfl) (by rw [hrb]; rfl), hra, hrb, same?_list]
          exact hsame
        · next hhead => exact absurd hsame hhead

/-- Records that the host finds equal have equal fields under the same names. -/
theorem forall₂_of_sameFields? {a b : List (String × Value)}
    (hsame : sameFields? h fuel a b = some true) :
    List.Forall₂ (fun x y => x.1 = y.1 ∧ HostEqual h x.2 y.2) a b := by
  induction fuel generalizing a b with
  | zero => cases hsame
  | succ fuel ih =>
    match a, b with
    | [], [] => exact .nil
    | [], _ :: _ => cases hsame
    | _ :: _, [] => cases hsame
    | (n, x) :: a, (m, y) :: b =>
      rw [sameFields?] at hsame
      split at hsame
      · cases hsame
      · next hnm =>
        have hname : n = m := (not_or.mp hnm).2 |> not_not.mp
        split at hsame
        · next hxy => exact .cons ⟨hname, fuel, hxy⟩ (ih hsame)
        · next hxy => exact absurd hsame hxy

/-- Two comparable values, the first without NaN, that the host finds equal. -/
structure Agreed (h : Heap) (l r : Value) : Prop where
  left : h.Comparable l
  right : h.Comparable r
  numerical : h.Numerical l
  same : HostEqual h l r

/-- The pairs that the host finds equal are a bisimulation, but for the objects that it compares
with themselves: these are bisimilar without a look inside. -/
theorem bisimulation_agreed (h : Heap) :
    h.Bisimulation fun l r => Agreed h l r ∨ h.Bisimilar l r := by
  rintro l r (⟨hl, hr, hnum, fuel, hsame⟩ | hlr)
  · have hnl := hl.evaluated l .refl
    have hnr := hr.evaluated r .refl
    cases fuel with
    | zero => cases hsame
    | succ fuel =>
      rw [same?_resolve hnl hnr] at hsame
      replace hl := hl.of_reaches (h.reaches_resolve l)
      replace hr := hr.of_reaches (h.reaches_resolve r)
      replace hnum := hnum.of_reaches (h.reaches_resolve l)
      generalize h.resolve l = l at *
      generalize h.resolve r = r at *
      -- an object met with itself is not entered: here the values have to equal themselves
      have hself {r : Value} (hlr : l = r) :
          h.Matches (fun l r => Agreed h l r ∨ h.Bisimilar l r) l r := by
        subst hlr
        have hm := (hl.bisimilar_self hnum).matches
        rw [Heap.resolve_of_not_lazy hnl] at hm
        exact hm.mono fun _ _ => .inr
      -- else the parts were found equal with less fuel
      have hparts {x y : Value} (hx : h.Part l x) (hy : h.Part r y) (hxy : HostEqual h x y) :
          Agreed h x y ∨ h.Bisimilar x y :=
        .inl ⟨hl.part hx, hr.part hy, hnum.part hx, hxy⟩
      simp only [same?, Heap.resolve?_of_not_lazy hnl, Heap.resolve?_of_not_lazy hnr,
        Option.bind_eq_bind, Option.bind_some] at hsame
      split at hsame
      · exact rfl
      · exact (alike_int_iff _ _).mpr (Option.some.inj hsame)
      · exact (alike_long_iff _ _).mpr (Option.some.inj hsame)
      · exact (alike_single_iff _ _).mpr (Option.some.inj hsame)
      · exact (alike_double_iff _ _).mpr (Option.some.inj hsame)
      · exact Option.some.inj hsame
      · exact Option.some.inj hsame
      · exact Option.some.inj hsame
      · rcases of_sameLists? hl hr hsame with rfl | ⟨x, y, rfl, rfl, hhead, htail⟩
        · exact hself rfl
        · exact ⟨hparts (.head x) (.head y) hhead, hparts (.tail x) (.tail y) htail⟩
      · next a b =>
        split at hsame
        · next hab => exact hself (congrArg _ hab)
        · obtain ⟨hlength, hzip⟩ := List.forall₂_iff_zip.mp (forall₂_of_sameFields? hsame)
          refine List.forall₂_iff_zip.mpr ⟨hlength, fun hxy => ?_⟩
          obtain ⟨hx, hy⟩ := List.of_mem_zip hxy
          exact ⟨(hzip hxy).1, hparts (.field hx) (.field hy) (hzip hxy).2⟩
      · next a b =>
        split at hsame
        · next hab => exact hself (congrArg _ hab)
        · split at hsame
          · cases hsame
          · next htag =>
            exact ⟨by simpa using htag, hparts (.payload a) (.payload b) ⟨fuel, hsame⟩⟩
      · cases hnl
      · exact Option.some.inj hsame
      · exact Option.some.inj hsame
      · exact Option.some.inj hsame
      · next f _ => exact absurd .refl (hl.native f)
      · cases hsame
  · exact hlr.matches.mono fun _ _ => .inr

/-- What the host finds equal is bisimilar. -/
theorem Agreed.bisimilar (hlr : Agreed h l r) : h.Bisimilar l r :=
  ⟨_, bisimulation_agreed h, .inl hlr⟩

end HostEqual

/-! ### Numbers in the same place -/

namespace Heap

variable {h : Heap} {l r x y : Value}

/-- The second pair of values stands in one place within the first: as the heads or the tails of two
lists, in fields of one position and name, or as the payloads of one tag. -/
inductive Counterparts (h : Heap) : Value × Value → Value × Value → Prop
  | head {l r : Value} {a b : Ref .cell} (hl : h.resolve l = .list (some a))
      (hr : h.resolve r = .list (some b)) :
      Counterparts h (l, r) ((h.cell a).head, (h.cell b).head)
  | tail {l r : Value} {a b : Ref .cell} (hl : h.resolve l = .list (some a))
      (hr : h.resolve r = .list (some b)) :
      Counterparts h (l, r) ((h.cell a).tail, (h.cell b).tail)
  | field {l r : Value} {a b : Ref .record} {n : String} {x y : Value}
      (hl : h.resolve l = .record a) (hr : h.resolve r = .record b)
      (hxy : ((n, x), (n, y)) ∈ (h.record a).fields.zip (h.record b).fields) :
      Counterparts h (l, r) (x, y)
  | payload {l r : Value} {a b : Ref .variant} (hl : h.resolve l = .variant a)
      (hr : h.resolve r = .variant b) (htag : (h.variant a).tag.text = (h.variant b).tag.text) :
      Counterparts h (l, r) ((h.variant a).payload, (h.variant b).payload)

/-- Numbers that stand in one place of the two values are of one class. -/
def InOneClass (h : Heap) (l r : Value) : Prop :=
  ∀ x y, Relation.ReflTransGen h.Counterparts (l, r) (x, y) →
    ∀ a b, (h.resolve x).numeric? = some a → (h.resolve y).numeric? = some b →
      a.numericClass = b.numericClass

/-- Counterparts belong to what the values resolve to. -/
theorem Counterparts.congr {l' r' : Value} {p : Value × Value}
    (hl : h.resolve l' = h.resolve l) (hr : h.resolve r' = h.resolve r)
    (hp : h.Counterparts (l', r') p) : h.Counterparts (l, r) p := by
  cases hp with
  | head ha hb => exact .head (hl ▸ ha) (hr ▸ hb)
  | tail ha hb => exact .tail (hl ▸ ha) (hr ▸ hb)
  | field ha hb hxy => exact .field (hl ▸ ha) (hr ▸ hb) hxy
  | payload ha hb htag => exact .payload (hl ▸ ha) (hr ▸ hb) htag

theorem InOneClass.congr {l' r' : Value} (hlr : h.InOneClass l r)
    (hl : h.resolve l' = h.resolve l) (hr : h.resolve r' = h.resolve r) : h.InOneClass l' r' := by
  intro x y hxy
  cases hxy using Relation.ReflTransGen.head_induction_on with
  | refl => exact hl ▸ hr ▸ hlr l r .refl
  | head hp hpath => exact hlr x y (.head (hp.congr hl hr) hpath)

/-- In counterparts the numbers have the same classes again. -/
theorem InOneClass.counterparts (hlr : h.InOneClass l r) (hxy : h.Counterparts (l, r) (x, y)) :
    h.InOneClass x y :=
  fun u v huv => hlr u v (.head hxy huv)

end Heap

section Differences

variable {h : Heap}

/-- With this amount of fuel the host finds no difference between bisimilar values whose numbers are
of one class. -/
structure FindsNoDifference (h : Heap) (fuel : Nat) : Prop where
  value : ∀ l r, h.Comparable l → h.Comparable r → h.Bisimilar l r → h.InOneClass l r →
    same? h fuel l r ≠ some false
  fields : ∀ a b : List (String × Value), (∀ x ∈ a, h.Comparable x.2) →
    (∀ y ∈ b, h.Comparable y.2) →
    List.Forall₂ (fun x y => x.1 = y.1 ∧ h.Bisimilar x.2 y.2 ∧ h.InOneClass x.2 y.2) a b →
    sameFields? h fuel a b ≠ some false
  lists : ∀ a b, h.Comparable (.list a) → h.Comparable (.list b) →
    h.Bisimilar (.list a) (.list b) → h.InOneClass (.list a) (.list b) →
    sameLists? h fuel a b ≠ some false

/-- Numbers of one class that are alike are of one kind, so the host compares them. -/
theorem exists_pair_of_numericClass {l r : Value} {a b : Numeric} (hl : l.numeric? = some a)
    (hr : r.numeric? = some b) (hab : a.numericClass = b.numericClass) :
    (∃ x y, l = .int x ∧ r = .int y) ∨ (∃ x y, l = .long x ∧ r = .long y) ∨
      (∃ x y, l = .single x ∧ r = .single y) ∨ ∃ x y, l = .double x ∧ r = .double y := by
  cases l <;> cases hl <;> cases r <;> cases hr <;> first | (cases hab; done) | simp

/-- Values that are no two structures of one kind have no pair. -/
theorem pairOf?_eq_none {l r : Value} (hlist : ∀ a b, l = .list a → r = .list b → False)
    (hrecord : ∀ a b, l = .record a → r = .record b → False)
    (hvariant : ∀ a b, l = .variant a → r = .variant b → False) : pairOf? l r = none := by
  unfold pairOf?
  split
  · exact (hlist _ _ rfl rfl).elim
  · exact (hrecord _ _ rfl rfl).elim
  · exact (hvariant _ _ rfl rfl).elim
  · rfl

/-- In bisimilar lists the host finds no difference. -/
theorem lists_findNoDifference {fuel : Nat} (ih : FindsNoDifference h fuel)
    {a b : Option (Ref .cell)} (ha : h.Comparable (.list a)) (hb : h.Comparable (.list b))
    (hab : h.Bisimilar (.list a) (.list b)) (hclass : h.InOneClass (.list a) (.list b)) :
    sameLists? h (fuel + 1) a b ≠ some false := by
  match a, b with
  | none, none => nofun
  | none, some y => exact nomatch hab.matches
  | some x, none => exact nomatch hab.matches
  | some x, some y =>
    by_cases hxy : x = y
    · simp [sameLists?, hxy]
    · obtain ⟨ra, hra⟩ := ha.spine x .refl
      obtain ⟨rb, hrb⟩ := hb.spine y .refl
      obtain ⟨hhead, htail⟩ := hab.matches
      rw [sameLists?_cons hxy hra hrb]
      split
      · -- the walk goes on along resolved tails; the relation is about the tails as they stand
        have hresolved {c : Ref .cell} {rest : Option (Ref .cell)}
            (hc : h.resolve (h.cell c).tail = .list rest) :
            h.resolve (.list rest) = h.resolve (h.cell c).tail := by rw [hc]; rfl
        refine ih.lists ra rb ?_ ?_ (htail.congr (hresolved hra) (hresolved hrb)) ?_
        · exact hra ▸ (ha.part (.tail x)).of_reaches (h.reaches_resolve _)
        · exact hrb ▸ (hb.part (.tail y)).of_reaches (h.reaches_resolve _)
        · exact (hclass.counterparts (.tail rfl rfl)).congr (hresolved hra) (hresolved hrb)
      · exact ih.value _ _ (ha.part (.head x)) (hb.part (.head y)) hhead
          (hclass.counterparts (.head rfl rfl))

/-- Nor in fields that are bisimilar one by one. -/
theorem fields_findNoDifference {fuel : Nat} (ih : FindsNoDifference h fuel)
    {a b : List (String × Value)} (ha : ∀ x ∈ a, h.Comparable x.2) (hb : ∀ y ∈ b, h.Comparable y.2)
    (hab : List.Forall₂ (fun x y => x.1 = y.1 ∧ h.Bisimilar x.2 y.2 ∧ h.InOneClass x.2 y.2) a b) :
    sameFields? h (fuel + 1) a b ≠ some false := by
  match a, b, hab with
  | [], [], _ => nofun
  | (n, x) :: a, (m, y) :: b, .cons hxy hab =>
    obtain ⟨hname, hsame, hclass⟩ := hxy
    have hname : n = m := hname
    have hgo : ¬ (a.length ≠ b.length ∨ n ≠ m) := by simp [hab.length_eq, hname]
    rw [sameFields?, if_neg hgo]
    split
    · exact ih.fields a b (fun u hu => ha u (List.mem_cons_of_mem _ hu))
        (fun u hu => hb u (List.mem_cons_of_mem _ hu)) hab
    · exact ih.value x y (ha _ List.mem_cons_self) (hb _ List.mem_cons_self) hsame hclass

/-- Nor in bisimilar values. -/
theorem value_findNoDifference {fuel : Nat} (ih : FindsNoDifference h fuel) {l r : Value}
    (hl : h.Comparable l) (hr : h.Comparable r) (hlr : h.Bisimilar l r)
    (hclass : h.InOneClass l r) : same? h (fuel + 1) l r ≠ some false := by
  have hnl := hl.evaluated l .refl
  have hnr := hr.evaluated r .refl
  have hml := Heap.resolve_of_not_lazy (h := h) hnl
  have hmr := Heap.resolve_of_not_lazy (h := h) hnr
  rw [same?_resolve hnl hnr]
  replace hlr := hlr.congr hml hmr
  replace hclass := hclass.congr hml hmr
  replace hl := hl.of_reaches (h.reaches_resolve l)
  replace hr := hr.of_reaches (h.reaches_resolve r)
  generalize h.resolve l = l at *
  generalize h.resolve r = r at *
  have hm := hlr.matches
  rw [hml, hmr] at hm
  simp only [same?, Heap.resolve?_of_not_lazy hnl, Heap.resolve?_of_not_lazy hnr,
    Option.bind_eq_bind, Option.bind_some]
  have found {b : Bool} (hb : b = true) : some b ≠ some false := by simp [hb]
  split
  · exact found rfl
  · exact found ((alike_int_iff _ _).mp hm)
  · exact found ((alike_long_iff _ _).mp hm)
  · exact found ((alike_single_iff _ _).mp hm)
  · exact found ((alike_double_iff _ _).mp hm)
  · exact found hm
  · exact found hm
  · exact found hm
  · exact ih.lists _ _ hl hr hlr hclass
  · next a b =>
    split
    · exact found rfl
    · obtain ⟨hlength, hzip⟩ := List.forall₂_iff_zip.mp hm
      refine ih.fields _ _ (fun x hx => hl.part (.field hx)) (fun y hy => hr.part (.field hy)) ?_
      refine List.forall₂_iff_zip.mpr ⟨hlength, ?_⟩
      rintro ⟨n, x⟩ ⟨m, y⟩ hxy
      obtain ⟨hname, hsame⟩ := hzip hxy
      obtain rfl : n = m := hname
      exact ⟨rfl, hsame, hclass.counterparts (.field hml hmr hxy)⟩
  · next a b =>
    split
    · exact found rfl
    · rw [if_neg (by simpa using hm.1)]
      exact ih.value _ _ (hl.part (.payload a)) (hr.part (.payload b)) hm.2
        (hclass.counterparts (.payload rfl rfl hm.1))
  · cases hnl
  · exact found hm
  · exact found hm
  · exact found hm
  · next f _ => exact absurd .refl (hl.native f)
  · next hunit hint hlong hsingle hdouble hbool hchar hstr hlist hrecord hvariant _ hfunction
      hmodule htype _ =>
    rw [matches_of_pairOf?_eq_none (pairOf?_eq_none hlist hrecord hvariant),
      alike_of_numeric hunit hbool hchar hstr hlist hfunction hmodule htype] at hm
    split at hm
    · next a b ha hb =>
      -- two numbers in one place are of one class, and such pairs have been compared
      have hab := hclass l r .refl a b (hml.symm ▸ ha) (hmr.symm ▸ hb)
      rcases exists_pair_of_numericClass ha hb hab with
        ⟨x, y, hx, hy⟩ | ⟨x, y, hx, hy⟩ | ⟨x, y, hx, hy⟩ | ⟨x, y, hx, hy⟩
      · exact (hint x y hx hy).elim
      · exact (hlong x y hx hy).elim
      · exact (hsingle x y hx hy).elim
      · exact (hdouble x y hx hy).elim
    · cases hm

/-- With any fuel the host finds no difference between bisimilar values. -/
theorem findsNoDifference (h : Heap) (fuel : Nat) : FindsNoDifference h fuel := by
  induction fuel with
  | zero => exact ⟨fun _ _ _ _ _ _ => nofun, fun _ _ _ _ _ => nofun, fun _ _ _ _ _ _ => nofun⟩
  | succ fuel ih =>
    exact ⟨fun _ _ hl hr hlr hclass => value_findNoDifference ih hl hr hlr hclass,
      fun _ _ ha hb hab => fields_findNoDifference ih ha hb hab,
      fun _ _ ha hb hab hclass => lists_findNoDifference ih ha hb hab hclass⟩

end Differences

/-! ### Acyclic data -/

section Acyclic

variable {h : Heap} {enough fuel : Nat} {l r : Value}

/-- From this amount of fuel on, the host's comparison of `x` with comparable values ends. -/
def EndsFrom (h : Heap) (enough : Nat) (x : Value) : Prop :=
  ∀ fuel, enough ≤ fuel → ∀ y, h.Comparable y → (same? h fuel x y).isSome

/-- The comparison of fields ends if those of their values do. -/
theorem isSome_sameFields? {a b : List (String × Value)} (ha : ∀ x ∈ a, EndsFrom h enough x.2)
    (hb : ∀ y ∈ b, h.Comparable y.2) (hfuel : enough + a.length < fuel) :
    (sameFields? h fuel a b).isSome := by
  induction a generalizing b fuel with
  | nil =>
    obtain ⟨fuel, rfl⟩ := Nat.exists_eq_succ_of_ne_zero (Nat.ne_zero_of_lt hfuel)
    cases b <;> rfl
  | cons x a ih =>
    obtain ⟨fuel, rfl⟩ := Nat.exists_eq_succ_of_ne_zero (Nat.ne_zero_of_lt hfuel)
    rw [List.length_cons] at hfuel
    cases b with
    | nil => rfl
    | cons y b =>
      rw [sameFields?]
      split
      · rfl
      · split
        · exact ih (fun u hu => ha u (List.mem_cons_of_mem _ hu))
            (fun u hu => hb u (List.mem_cons_of_mem _ hu)) (by omega)
        · exact ha x List.mem_cons_self fuel (by omega) y.2 (hb y List.mem_cons_self)

/-- The comparison of lists ends if those of head and tail do. -/
theorem isSome_sameLists? {c : Ref .cell} {b : Option (Ref .cell)}
    (hl : h.Comparable (.list (some c))) (hr : h.Comparable (.list b))
    (hhead : EndsFrom h enough (h.cell c).head) (htail : EndsFrom h enough (h.cell c).tail)
    (hfuel : enough < fuel) : (sameLists? h fuel (some c) b).isSome := by
  obtain ⟨fuel, rfl⟩ := Nat.exists_eq_succ_of_ne_zero (Nat.ne_zero_of_lt hfuel)
  cases b with
  | none => rfl
  | some d =>
    by_cases hcd : c = d
    · simp [sameLists?, hcd]
    · obtain ⟨rc, hrc⟩ := hl.spine c .refl
      obtain ⟨rd, hrd⟩ := hr.spine d .refl
      rw [sameLists?_cons hcd hrc hrd]
      split
      · -- the walk along the spine is a comparison of the tails
        have htails := htail (fuel + 1) (by omega) _ (hr.part (.tail d))
        rwa [same?_resolve (by rw [hrc]; rfl) (by rw [hrd]; rfl), hrc, hrd, same?_list] at htails
      · exact hhead fuel (by omega) _ (hr.part (.head d))

/-- The comparison of evaluated values ends if the comparisons of the parts of one do. -/
theorem isSome_same?_of_parts (hl : h.Comparable l) (hr : h.Comparable r)
    (hnl : l.isLazy = false) (hnr : r.isLazy = false)
    (hparts : ∀ u ∈ h.partsOf l, EndsFrom h enough u)
    (hfuel : enough + (h.partsOf l).length + 2 ≤ fuel) : (same? h fuel l r).isSome := by
  obtain ⟨fuel, rfl⟩ := Nat.exists_eq_succ_of_ne_zero (Nat.ne_zero_of_lt hfuel)
  simp only [same?, Heap.resolve?_of_not_lazy hnl, Heap.resolve?_of_not_lazy hnr,
    Option.bind_eq_bind, Option.bind_some]
  -- only lists, records and variants need what is known of the parts
  split
  case h_9 a b =>
    cases a with
    | none =>
      obtain ⟨fuel, rfl⟩ := Nat.exists_eq_succ_of_ne_zero (Nat.ne_zero_of_lt (by omega : 0 < fuel))
      cases b <;> rfl
    | some c =>
      exact isSome_sameLists? hl hr (hparts _ (by simp [Heap.partsOf]))
        (hparts _ (by simp [Heap.partsOf])) (by omega)
  case h_10 a b =>
    split
    · rfl
    · refine isSome_sameFields? (fun x hx => hparts _ (List.mem_map_of_mem hx))
        (fun y hy => hr.part (.field hy)) ?_
      rw [Heap.partsOf, List.length_map] at hfuel
      omega
  case h_11 a b =>
    split
    · rfl
    · split
      · rfl
      · exact hparts _ (by simp [Heap.partsOf]) fuel (by omega) _ (hr.part (.payload b))
  all_goals rfl

/-- On acyclic data the host's comparison ends. -/
theorem exists_endsFrom (hacyclic : h.Acyclic l) (hl : h.Comparable l) :
    ∃ enough, EndsFrom h enough l := by
  have hacc := Acc.transGen hacyclic
  clear hacyclic
  induction hacc with
  | intro l _ ih =>
    have hpart {u : Value} (hu : u ∈ h.partsOf (h.resolve l)) :
        Relation.TransGen h.Part l u :=
      .tail' (h.reaches_resolve l) (Heap.part_of_mem_partsOf hu)
    obtain ⟨enough, henough⟩ := Heap.exists_enough (h.partsOf (h.resolve l)) fun u hu =>
      ih u (Relation.transGen_swap.mpr (hpart hu)) (hl.of_reaches (hpart hu).to_reflTransGen)
    refine ⟨enough + (h.partsOf (h.resolve l)).length + 2, fun fuel hfuel r hr => ?_⟩
    have hnl := hl.evaluated l .refl
    have hnr := hr.evaluated r .refl
    obtain ⟨fuel, rfl⟩ := Nat.exists_eq_succ_of_ne_zero (Nat.ne_zero_of_lt hfuel)
    rw [same?_resolve hnl hnr]
    exact isSome_same?_of_parts (hl.of_reaches (h.reaches_resolve l))
      (hr.of_reaches (h.reaches_resolve r)) hnl hnr (fun u hu k hk y hy => henough k hk u hu y hy)
      hfuel

/-- If numbers are of one class place by place, an answer of the host tells whether comparable
values without NaN are bisimilar. -/
theorem same?_eq_some_iff (hl : h.Comparable l) (hr : h.Comparable r) (hnum : h.Numerical l)
    (hclass : h.InOneClass l r) {b : Bool} (hb : same? h fuel l r = some b) :
    b = true ↔ h.Bisimilar l r := by
  constructor
  · rintro rfl
    exact Agreed.bisimilar ⟨hl, hr, hnum, fuel, hb⟩
  · intro hlr
    cases b with
    | true => rfl
    | false => exact absurd hb ((findsNoDifference h fuel).value l r hl hr hlr hclass)

end Acyclic

/-- Host equality implies equality. Of two values that can be compared without evaluation, the first
of them without NaN, with whatever sharing and cycles: if the host finds them equal, then the
comparison on a live context ends and finds them equal. If the first is acyclic and numbers that
stand in one place are of one class, then both comparisons end with the same answer. -/
theorem host_equality_refines (w : World) (hlive : w.context.interrupt? = none) (l r : Value)
    (hl : w.heap.Comparable l) (hr : w.heap.Comparable r) (hnum : w.heap.Numerical l) :
    (∀ fuel, same? w.heap fuel l r = some true →
      ∃ enough, ∀ level, enough ≤ level → engine level (.equal l r) w = .ok (.bool true) w) ∧
    (w.heap.Acyclic l → w.heap.InOneClass l r →
      ∃ b, (∃ enough, ∀ fuel, enough ≤ fuel → same? w.heap fuel l r = some b) ∧
        ∃ enough, ∀ level, enough ≤ level → engine level (.equal l r) w = .ok (.bool b) w) := by
  constructor
  · intro fuel hsame
    have hlr : w.heap.Bisimilar l r := Agreed.bisimilar ⟨hl, hr, hnum, fuel, hsame⟩
    exact ⟨_, fun level hlevel => engine_equal hlive hl hr (iff_of_true rfl hlr) hlevel⟩
  · intro hacyclic hclass
    obtain ⟨enough, henough⟩ := exists_endsFrom hacyclic hl
    obtain ⟨b, hb⟩ := Option.isSome_iff_exists.mp (henough enough (Nat.le_refl _) r hr)
    have hbisimilar := same?_eq_some_iff hl hr hnum hclass hb
    refine ⟨b, ⟨enough, fun fuel hfuel => ?_⟩,
      _, fun level hlevel => engine_equal hlive hl hr hbisimilar hlevel⟩
    obtain ⟨b', hb'⟩ := Option.isSome_iff_exists.mp (henough fuel hfuel r hr)
    have hbisimilar' := same?_eq_some_iff hl hr hnum hclass hb'
    rw [hb', Bool.eq_iff_iff.mpr (hbisimilar'.trans hbisimilar.symm)]

/-- What is reached from a member of a list that is closed under steps is a member. -/
theorem mem_of_closed {α : Type} {R : α → α → Prop} {xs : List α}
    (hclosed : ∀ x ∈ xs, ∀ y, R x y → y ∈ xs) {x y : α} (hx : x ∈ xs)
    (hxy : Relation.ReflTransGen R x y) : y ∈ xs := by
  induction hxy with
  | refl => exact hx
  | tail _ hstep ih => exact hclosed _ ih _ hstep

/-- There is no NaN in the list. -/
theorem circularOnes_numerical : circularOnes.Numerical (.list (some ⟨0⟩)) := by
  intro u hu
  have hmem : u ∈ [.list (some ⟨0⟩), .lazy ⟨0⟩, .int 1] := by
    refine mem_of_closed (fun v hv u hu => ?_) List.mem_cons_self hu
    simp only [List.mem_cons, List.not_mem_nil, or_false] at hv
    rcases hv with rfl | rfl | rfl
    · cases hu <;> simp [circularOnes, Heap.cell]
    · cases hu with
      | memo ht =>
        cases ht
        simp
    · cases hu
  simp only [List.mem_cons, List.not_mem_nil, or_false] at hmem
  rcases hmem with rfl | rfl | rfl <;> rfl

/-- Two lists of a zero. The second zero is negative, and the tail behind it was evaluated later. -/
def signedZeros : Heap where
  cells := #[⟨.double 0.0, .list none⟩, ⟨.double (-0.0), .lazy ⟨0⟩⟩]
  thunks := #[.forced (.list none)]

namespace signedZeros

/-- The two lists and their parts. -/
def values : List Value :=
  [.list (some ⟨0⟩), .list (some ⟨1⟩), .double 0.0, .double (-0.0), .list none, .lazy ⟨0⟩]

/-- The values are all that is reached from them. -/
theorem closed : ∀ v ∈ values, ∀ u, signedZeros.Part v u → u ∈ values := by
  intro v hv u hu
  simp only [values, List.mem_cons, List.not_mem_nil, or_false] at hv
  rcases hv with rfl | rfl | rfl | rfl | rfl | rfl
  · cases hu <;> simp [values, signedZeros, Heap.cell]
  · cases hu <;> simp [values, signedZeros, Heap.cell]
  · cases hu
  · cases hu
  · cases hu
  · cases hu with
    | memo ht =>
      cases ht
      simp [values]

/-- There are neither functions nor thunks among them. -/
theorem comparable {v : Value} (hv : v ∈ values) : signedZeros.Comparable v := by
  refine .of_closed values closed ?_ hv
  intro v hv
  simp only [values, List.mem_cons, List.not_mem_nil, or_false] at hv
  rcases hv with rfl | rfl | rfl | rfl | rfl | rfl
  · exact ⟨Nat.zero_lt_two, rfl, fun c hc => by cases hc; exact ⟨_, rfl⟩, by simp⟩
  · exact ⟨Nat.one_lt_two, rfl, fun c hc => by cases hc; exact ⟨_, rfl⟩, by simp⟩
  all_goals exact ⟨trivial, rfl, by simp, by simp⟩

/-- There is no NaN among them. -/
theorem numerical {v : Value} (hv : v ∈ values) : signedZeros.Numerical v := by
  intro u hu
  have hmem := mem_of_closed closed hv hu
  simp only [values, List.mem_cons, List.not_mem_nil, or_false] at hmem
  rcases hmem with rfl | rfl | rfl | rfl | rfl | rfl <;> decide +kernel

/-- The list comes to an end. -/
theorem acyclic : signedZeros.Acyclic (.list (some ⟨0⟩)) := by
  refine .intro _ fun u hu => ?_
  cases hu <;> exact .intro _ nofun

/-- Both zeros are of the same class. -/
theorem inOneClass : signedZeros.InOneClass (.list (some ⟨0⟩)) (.list (some ⟨1⟩)) := by
  intro x y hxy
  -- the heap is small: three pairs of counterparts are all there are
  have hmem : (x, y) ∈ [(Value.list (some ⟨0⟩), Value.list (some ⟨1⟩)),
      (.double 0.0, .double (-0.0)), (.list none, .lazy ⟨0⟩)] := by
    refine mem_of_closed (fun p hp q hq => ?_) List.mem_cons_self hxy
    simp only [List.mem_cons, List.not_mem_nil, or_false] at hp
    rcases hp with rfl | rfl | rfl
    · cases hq with
      | head ha hb =>
        cases ha
        cases hb
        simp [signedZeros, Heap.cell]
      | tail ha hb =>
        cases ha
        cases hb
        simp [signedZeros, Heap.cell]
      | field ha => cases ha
      | payload ha => cases ha
    · cases hq with
      | head ha | tail ha | field ha | payload ha => cases ha
    · cases hq with
      | head ha | tail ha | field ha | payload ha => cases ha
  simp only [List.mem_cons, List.not_mem_nil, or_false, Prod.mk.injEq] at hmem
  rcases hmem with ⟨rfl, rfl⟩ | ⟨rfl, rfl⟩ | ⟨rfl, rfl⟩
  · rintro a b ⟨⟩
  · rintro a b ⟨⟩ ⟨⟩
    rfl
  · rintro a b ⟨⟩

end signedZeros

/-- A list that goes round and the thunk it goes through; and zeros of both signs. -/
theorem host_equality_refines_zeros :
    (∃ enough, ∀ level, enough ≤ level →
      engine level (.equal (.list (some ⟨0⟩)) (.lazy ⟨0⟩)) { heap := circularOnes } =
        .ok (.bool true) { heap := circularOnes }) ∧
    ∃ b, (∃ enough, ∀ fuel, enough ≤ fuel →
        same? signedZeros fuel (.list (some ⟨0⟩)) (.list (some ⟨1⟩)) = some b) ∧
      ∃ enough, ∀ level, enough ≤ level →
        engine level (.equal (.list (some ⟨0⟩)) (.list (some ⟨1⟩))) { heap := signedZeros } =
          .ok (.bool b) { heap := signedZeros } := by
  have hcircular := circularOnes_comparable
  have hfirst : .list (some ⟨0⟩) ∈ signedZeros.values := List.mem_cons_self
  have hsecond : .list (some ⟨1⟩) ∈ signedZeros.values :=
    List.mem_cons_of_mem _ List.mem_cons_self
  exact ⟨(host_equality_refines { heap := circularOnes } rfl _ _ hcircular
      (hcircular.part (.tail ⟨0⟩)) circularOnes_numerical).1 2 rfl,
    (host_equality_refines { heap := signedZeros } rfl _ _ (signedZeros.comparable hfirst)
      (signedZeros.comparable hsecond) (signedZeros.numerical hfirst)).2
      signedZeros.acyclic signedZeros.inOneClass⟩

end LazyMachine
