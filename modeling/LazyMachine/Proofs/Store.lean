import LazyMachine.Proofs.Ownership
import Mathlib.Algebra.Order.Field.Basic
import Mathlib.Algebra.Order.Field.Rat
import Mathlib.Data.Finset.Card
import Mathlib.Data.Finset.Union
import Mathlib.Order.CountableDenseLinearOrder

/-!
# Heaps made by code

The heap of a program that runs without host code is special: it holds no foreign values and no
modules, every thunk and every function runs a chunk of the program, and it is acyclic, because code
can refer only to what is there already.

`Store p` is such a heap with a witness of its acyclicity, a rank for each object that is above the
ranks of everything the object refers to. Ranks are rational numbers, so that there is room for new
objects between old ones: what a thunk under evaluation makes has to rank below the thunk, since it
may become part of its value. `Fits` carries these bounds for a single value.

A store changes only by new objects and by claiming, completing and releasing thunks, which is what
`Store.Later` keeps track of.
-/

namespace LazyMachine

/-- The object that a value refers to. -/
def Value.node? : Value → Option (NodeKind × Nat)
  | .list (some c) => some (.cell, c.index)
  | .record r => some (.record, r.index)
  | .variant v => some (.variant, v.index)
  | .lazy t => some (.thunk, t.index)
  | .function f => some (.function, f.index)
  | .module m => some (.module, m.index)
  | _ => none

/-- Whether the value comes from the host: code cannot make it. -/
def Value.isExternal : Value → Bool
  | .module _ | .foreign _ => true
  | _ => false

namespace Heap

/-- The number of objects of a kind. -/
def count (h : Heap) : NodeKind → Nat
  | .cell => h.cells.size
  | .record => h.records.size
  | .variant => h.variants.size
  | .thunk => h.thunks.size
  | .function => h.functions.size
  | .module => h.modules.size

/-- What the computation of a thunk or its value refers to. -/
def thunkParts : Thunk → List Value
  | .waiting (.call f) | .running (.call f) => [.function f]
  | .forced v => [v]
  | _ => []

/-- What a function refers to. -/
def functionParts (f : Function) : List Value :=
  match f.body with
  | .code _ _ captures => captures ++ f.applied
  | _ => f.applied

/-- What an object refers to. -/
def partsAt (h : Heap) (kind : NodeKind) (i : Nat) : List Value :=
  match kind with
  | .cell => h.cells[i]?.elim [] fun c => [c.head, c.tail]
  | .record => h.records[i]?.elim [] fun r => r.fields.map (·.2)
  | .variant => h.variants[i]?.elim [] fun v => [v.payload]
  | .thunk => h.thunks[i]?.elim [] thunkParts
  | .function => h.functions[i]?.elim [] functionParts
  | .module => []

/-- All objects. -/
def objects (h : Heap) : Finset (NodeKind × Nat) :=
  [NodeKind.cell, .record, .variant, .thunk, .function, .module].toFinset.biUnion fun kind =>
    (Finset.range (h.count kind)).image (Prod.mk kind)

/-- The objects are those below the counts. -/
theorem mem_objects {h : Heap} {n : NodeKind × Nat} : n ∈ h.objects ↔ n.2 < h.count n.1 := by
  have hkind : n.1 ∈ [NodeKind.cell, .record, .variant, .thunk, .function, .module] := by
    cases n.1 <;> simp
  simp only [objects, Finset.mem_biUnion, List.mem_toFinset, Finset.mem_image, Finset.mem_range]
  constructor
  · rintro ⟨kind, -, i, hi, rfl⟩
    exact hi
  · exact fun hi => ⟨n.1, hkind, n.2, hi, rfl⟩

/-- A heap that retains objects has no fewer of them. -/
theorem Retains.count_le {h h' : Heap} (hr : h.Retains h') (ht : h.thunks.size ≤ h'.thunks.size)
    (kind : NodeKind) : h.count kind ≤ h'.count kind := by
  have size_le {α : Type} {xs ys : Array α} (hk : Kept xs ys) : xs.size ≤ ys.size := by
    by_contra hlt
    obtain ⟨i, hi⟩ := Nat.exists_eq_add_of_lt (Nat.lt_of_not_le hlt)
    have := hk ys.size xs[ys.size] (by simp)
    simp at this
  cases kind with
  | cell => exact size_le hr.cells
  | record => exact size_le hr.records
  | variant => exact size_le hr.variants
  | thunk => exact ht
  | function => exact size_le hr.functions
  | module => exact size_le hr.modules

end Heap

/-- A rank for each object. -/
abbrev Rank := NodeKind → Nat → ℚ

/-- The value is one that code can make, and the object that it refers to is on the heap and ranks
below the bounds. -/
structure Fits (h : Heap) (rank : Rank) (bounds : List ℚ) (v : Value) : Prop where
  internal : v.isExternal = false
  held : ∀ n ∈ v.node?, n.2 < h.count n.1
  below : ∀ n ∈ v.node?, ∀ b ∈ bounds, rank n.1 n.2 < b

namespace Fits

variable {h h' : Heap} {rank rank' : Rank} {bounds bounds' : List ℚ} {v : Value}

/-- Scalars fit everywhere. -/
theorem scalar (hv : v.isExternal = false) (hn : v.node? = none) : Fits h rank bounds v := by
  refine ⟨hv, ?_, ?_⟩ <;> simp [hn]

/-- A value still fits when there are more objects. -/
theorem mono (hv : Fits h rank bounds v) (hcount : ∀ kind, h.count kind ≤ h'.count kind)
    (hrank : ∀ kind i, i < h.count kind → rank' kind i = rank kind i) :
    Fits h' rank' bounds v where
  internal := hv.internal
  held n hn := Nat.lt_of_lt_of_le (hv.held n hn) (hcount n.1)
  below n hn b hb := by
    rw [hrank n.1 n.2 (hv.held n hn)]
    exact hv.below n hn b hb

/-- What fits below an object fits below whatever the object fits below. -/
theorem trans {u : Value} {kind : NodeKind} {i : Nat} (hu : Fits h rank [rank kind i] u)
    (hv : Fits h rank bounds v) (hn : v.node? = some (kind, i)) : Fits h rank bounds u where
  internal := hu.internal
  held := hu.held
  below n hn' b hb := by
    have hlt := hu.below n hn' _ (List.mem_singleton_self _)
    exact hlt.trans (hv.below (kind, i) (by simp [hn]) b hb)

/-- What fits below some bounds fits below fewer. -/
theorem subset (hv : Fits h rank bounds v) (hb : bounds' ⊆ bounds) : Fits h rank bounds' v :=
  { hv with below := fun n hn b hb' => hv.below n hn b (hb hb') }

/-- Below all that values have to fit below there is room for an object that refers to them. -/
theorem exists_rank {vs : List Value} (hvs : ∀ v ∈ vs, Fits h rank bounds v) :
    ∃ q : ℚ, (∀ v ∈ vs, Fits h rank [q] v) ∧ ∀ b ∈ bounds, q < b := by
  let ranks := (vs.filterMap Value.node?).map fun n => rank n.1 n.2
  obtain ⟨q, hlo, hhi⟩ := Order.exists_between_finsets ranks.toFinset bounds.toFinset (by
    intro x hx b hb
    simp only [ranks, List.mem_toFinset, List.mem_map, List.mem_filterMap] at hx hb
    obtain ⟨n, ⟨v, hv, hn⟩, rfl⟩ := hx
    exact (hvs v hv).below n (by simp [hn]) b hb)
  refine ⟨q, fun v hv => ?_, fun b hb => hhi b (List.mem_toFinset.mpr hb)⟩
  refine ⟨(hvs v hv).internal, (hvs v hv).held, fun n hn b hb => ?_⟩
  cases List.mem_singleton.mp hb
  refine hlo _ ?_
  simp only [ranks, List.mem_toFinset, List.mem_map, List.mem_filterMap]
  exact ⟨n, ⟨v, hv, hn⟩, rfl⟩

end Fits

/-- The computation of the thunk is a function, its value is not lazy, and it has one exactly when
it is done. -/
def Thunk.OfCode : Thunk → Prop
  | .waiting d | .running d => ∃ f, d = .call f
  | .forced v => v.isLazy = false
  | _ => False

/-- A thunk made by code that has a value is forced. -/
theorem Thunk.OfCode.eq_forced {t : Thunk} (ht : t.OfCode) {v : Value} (hv : t.memo? = some v) :
    t = .forced v := by
  obtain ⟨_ | _ | _, _ | u⟩ := t
  · cases hv
  · exact ht.elim
  · cases hv
  · exact ht.elim
  · cases hv
  · cases hv
    rfl

/-- The function runs a chunk of the program. -/
def Function.OfCode (p : Program) (f : Function) : Prop :=
  ∃ chunk captures c, f.body = .code p chunk captures ∧ p.chunk? chunk = some c

/-- A heap made by code of a program, with ranks that show it acyclic. -/
structure Store (p : Program) where
  /-- The heap. -/
  heap : Heap
  /-- The ranks. -/
  rank : Rank
  /-- An object ranks above what it refers to. -/
  ranked : ∀ kind i, ∀ v ∈ heap.partsAt kind i, Fits heap rank [rank kind i] v
  /-- The thunks were made by code. -/
  thunks : ∀ t ∈ heap.thunks, t.OfCode
  /-- The functions were made by code. -/
  functions : ∀ f ∈ heap.functions, f.OfCode p

namespace Store

variable {p : Program}

/-- The store has the objects of an earlier one and perhaps more, and whatever was evaluated is so
still. -/
structure Later (s s' : Store p) : Prop where
  retains : s.heap.Retains s'.heap
  size : s.heap.thunks.size ≤ s'.heap.thunks.size
  forced : ∀ (i : Nat) (v : Value), s.heap.thunks[i]? = some (.forced v) →
    s'.heap.thunks[i]? = some (.forced v)
  rank : ∀ kind i, i < s.heap.count kind → s'.rank kind i = s.rank kind i

theorem Later.refl (s : Store p) : s.Later s :=
  ⟨.refl _, Nat.le_refl _, fun _ _ h => h, fun _ _ _ => rfl⟩

/-- A later store has no fewer objects. -/
theorem Later.count_le {s s' : Store p} (hs : s.Later s') (kind : NodeKind) :
    s.heap.count kind ≤ s'.heap.count kind :=
  hs.retains.count_le hs.size kind

theorem Later.trans {s s' s'' : Store p} (hs : s.Later s') (hs' : s'.Later s'') : s.Later s'' where
  retains := hs.retains.trans hs'.retains
  size := Nat.le_trans hs.size hs'.size
  forced i v hi := hs'.forced i v (hs.forced i v hi)
  rank kind i hi := by
    rw [hs'.rank kind i (Nat.lt_of_lt_of_le hi (hs.count_le kind)), hs.rank kind i hi]

/-- The value fits the store below the bounds. -/
abbrev Fits (s : Store p) (bounds : List ℚ) (v : Value) : Prop :=
  LazyMachine.Fits s.heap s.rank bounds v

/-- What fits a store fits later ones. -/
theorem Later.fits {s s' : Store p} (hs : s.Later s') {bounds : List ℚ} {v : Value}
    (hv : s.Fits bounds v) : s'.Fits bounds v :=
  hv.mono hs.count_le hs.rank

/-- `u` fits below the object that `v` refers to. -/
def Under (s : Store p) (u v : Value) : Prop :=
  ∃ n, v.node? = some n ∧ s.Fits [s.rank n.1 n.2] u

/-- A part is under what it is a part of. -/
theorem under_part (s : Store p) {v u : Value} {kind : NodeKind} {i : Nat}
    (hn : v.node? = some (kind, i)) (hu : u ∈ s.heap.partsAt kind i) : s.Under u v :=
  ⟨_, hn, s.ranked kind i u hu⟩

/-- What is under a value that fits does so as well. -/
theorem Under.fits {s : Store p} {bounds : List ℚ} {u v : Value} (hu : s.Under u v)
    (hv : s.Fits bounds v) : s.Fits bounds u := by
  obtain ⟨n, hn, hfits⟩ := hu
  exact hfits.trans hv hn

theorem Under.trans {s : Store p} {u v top : Value} (hu : s.Under u v) (hv : s.Under v top) :
    s.Under u top := by
  obtain ⟨n, hn, hfits⟩ := hv
  exact ⟨n, hn, hu.fits hfits⟩

/-- What is under a value stays there. -/
theorem Later.under {s s' : Store p} (hs : s.Later s') {bounds : List ℚ} {u v : Value}
    (hv : s.Fits bounds v) (hu : s.Under u v) : s'.Under u v := by
  obtain ⟨n, hn, hfits⟩ := hu
  refine ⟨n, hn, ?_⟩
  rw [hs.rank n.1 n.2 (hv.held n hn)]
  exact hs.fits hfits

/-! ### New objects -/

/-- One more object, which refers only to what fits, makes a later store. -/
theorem exists_later (s : Store p) (kind : NodeKind) {vs : List Value} {h : Heap}
    {bounds : List ℚ} (hvs : ∀ v ∈ vs, s.Fits bounds v) (hretains : s.heap.Retains h)
    (hsize : s.heap.thunks.size ≤ h.thunks.size)
    (hforced : ∀ (i : Nat) (v : Value), s.heap.thunks[i]? = some (.forced v) →
      h.thunks[i]? = some (.forced v))
    (hcount : s.heap.count kind < h.count kind)
    (hold : ∀ k i, (k, i) ≠ (kind, s.heap.count kind) → h.partsAt k i = s.heap.partsAt k i)
    (hnew : h.partsAt kind (s.heap.count kind) = vs)
    (hthunks : ∀ t ∈ h.thunks, t.OfCode) (hfunctions : ∀ f ∈ h.functions, f.OfCode p) :
    ∃ s' : Store p, s'.heap = h ∧ s.Later s' ∧ ∀ v : Value, v.isExternal = false →
      v.node? = some (kind, s.heap.count kind) → s'.Fits bounds v := by
  obtain ⟨q, hq, hqb⟩ := Fits.exists_rank hvs
  -- the new object is ranked above what it refers to and below the bounds; the others keep their
  -- ranks
  let rank : Rank := fun k i => if (k, i) = (kind, s.heap.count kind) then q else s.rank k i
  have hle := hretains.count_le hsize
  have hrank (k : NodeKind) (i : Nat) (hi : i < s.heap.count k) : rank k i = s.rank k i := by
    refine if_neg ?_
    rintro ⟨⟩
    exact Nat.lt_irrefl _ hi
  refine ⟨⟨h, rank, fun k i v hv => ?_, hthunks, hfunctions⟩, rfl,
    ⟨hretains, hsize, hforced, hrank⟩, fun v hv hn => ⟨hv, ?_, ?_⟩⟩
  · by_cases hki : (k, i) = (kind, s.heap.count kind)
    · cases hki
      rw [hnew] at hv
      have hself : rank kind (s.heap.count kind) = q := if_pos rfl
      rw [hself]
      exact (hq v hv).mono hle hrank
    · rw [hold k i hki] at hv
      have hother : rank k i = s.rank k i := if_neg hki
      rw [hother]
      exact (s.ranked k i v hv).mono hle hrank
  · simp only [hn, Option.mem_some_iff, forall_eq']
    exact hcount
  · simp only [hn, Option.mem_some_iff, forall_eq']
    intro b hb
    have hself : rank kind (s.heap.count kind) = q := if_pos rfl
    rw [hself]
    exact hqb b hb

/-- An array with one more entry has it at the end and is the same elsewhere. -/
theorem elim_push {α : Type} (xs : Array α) (a : α) (f : α → List Value) (i : Nat) :
    (xs.push a)[i]?.elim [] f = if i = xs.size then f a else xs[i]?.elim [] f := by
  rw [Array.getElem?_push]
  split <;> rfl

section Making

variable (s : Store p) {bounds : List ℚ}

/-- A new stamp changes no object. -/
theorem exists_later_stamp (n : Nat) :
    ∃ s' : Store p, s'.heap = { s.heap with nextStamp := n } ∧ s.Later s' := by
  refine ⟨⟨{ s.heap with nextStamp := n }, s.rank, fun kind i v hv => ?_, s.thunks, s.functions⟩,
    rfl, ⟨{ Heap.Retains.refl s.heap with }, Nat.le_refl _, fun _ _ h => h, fun _ _ _ => rfl⟩⟩
  refine (s.ranked kind i v ?_).mono (fun k => ?_) fun _ _ _ => rfl
  · cases kind <;> exact hv
  · cases k <;> exact Nat.le_refl _

/-- A cell of values that fit makes a later store. -/
theorem exists_later_cell {head tail : Value} (hhead : s.Fits bounds head)
    (htail : s.Fits bounds tail) :
    ∃ s' : Store p, s'.heap = (s.heap.addCell ⟨head, tail⟩).2 ∧ s.Later s' ∧
      s'.Fits bounds (.list (some ⟨s.heap.cells.size⟩)) := by
  have hvs : ∀ v ∈ [head, tail], s.Fits bounds v := by simp [hhead, htail]
  obtain ⟨s', hheap, hlater, hfits⟩ := s.exists_later .cell hvs
    (s.heap.extends_addCell ⟨head, tail⟩).toRetains (Nat.le_refl _) (fun _ _ h => h)
    (by simp [Heap.count, Heap.addCell])
    (fun k i hki => by
      cases k with
      | cell =>
        rw [Heap.partsAt, Heap.addCell, elim_push, if_neg fun h => hki (by rw [h]; rfl)]
        rfl
      | _ => rfl)
    (by simp [Heap.partsAt, Heap.addCell, Heap.count]) s.thunks s.functions
  exact ⟨s', hheap, hlater, hfits _ rfl rfl⟩

/-- A record of values that fit makes a later store. -/
theorem exists_later_record {r : Record} (hr : ∀ x ∈ r.fields, s.Fits bounds x.2) :
    ∃ s' : Store p, s'.heap = (s.heap.addRecord r).2 ∧ s.Later s' ∧
      s'.Fits bounds (.record ⟨s.heap.records.size⟩) := by
  have hvs : ∀ v ∈ r.fields.map (·.2), s.Fits bounds v := by
    intro v hv
    obtain ⟨x, hx, rfl⟩ := List.mem_map.mp hv
    exact hr x hx
  obtain ⟨s', hheap, hlater, hfits⟩ := s.exists_later .record hvs
    (s.heap.extends_addRecord r).toRetains (Nat.le_refl _) (fun _ _ h => h)
    (by simp [Heap.count, Heap.addRecord])
    (fun k i hki => by
      cases k with
      | record =>
        rw [Heap.partsAt, Heap.addRecord, elim_push, if_neg fun h => hki (by rw [h]; rfl)]; rfl
      | _ => rfl)
    (by simp [Heap.partsAt, Heap.addRecord, Heap.count]) s.thunks s.functions
  exact ⟨s', hheap, hlater, hfits _ rfl rfl⟩

/-- A variant of a value that fits makes a later store. -/
theorem exists_later_variant {v : Variant} (hv : s.Fits bounds v.payload) :
    ∃ s' : Store p, s'.heap = (s.heap.addVariant v).2 ∧ s.Later s' ∧
      s'.Fits bounds (.variant ⟨s.heap.variants.size⟩) := by
  have hvs : ∀ u ∈ [v.payload], s.Fits bounds u := by simpa using hv
  obtain ⟨s', hheap, hlater, hfits⟩ := s.exists_later .variant hvs
    (h := (s.heap.addVariant v).2) (s.heap.extends_addVariant v).toRetains (Nat.le_refl _)
    (fun _ _ h => h)
    (by simp [Heap.count, Heap.addVariant])
    (fun k i hki => by
      cases k with
      | variant =>
        rw [Heap.partsAt, Heap.addVariant, elim_push, if_neg fun h => hki (by rw [h]; rfl)]; rfl
      | _ => rfl)
    (by simp [Heap.partsAt, Heap.addVariant, Heap.count]) s.thunks s.functions
  exact ⟨s', hheap, hlater, hfits _ rfl rfl⟩

/-- A function over code makes a later store, if what it has captured fits. -/
theorem exists_later_function {f : Function} (hf : f.OfCode p)
    (hparts : ∀ v ∈ Heap.functionParts f, s.Fits bounds v) :
    ∃ s' : Store p, s'.heap = (s.heap.addFunction f).2 ∧ s.Later s' ∧
      s'.Fits bounds (.function ⟨s.heap.functions.size⟩) := by
  obtain ⟨s', hheap, hlater, hfits⟩ := s.exists_later .function hparts
    (s.heap.extends_addFunction f).toRetains (Nat.le_refl _) (fun _ _ h => h)
    (by simp [Heap.count, Heap.addFunction])
    (fun k i hki => by
      cases k with
      | function =>
        rw [Heap.partsAt, Heap.addFunction, elim_push, if_neg fun h => hki (by rw [h]; rfl)]; rfl
      | _ => rfl)
    (by simp [Heap.partsAt, Heap.addFunction, Heap.count]) s.thunks
    (by
      intro g hg
      rcases Array.mem_push.mp hg with hg | rfl
      · exact s.functions g hg
      · exact hf)
  exact ⟨s', hheap, hlater, hfits _ rfl rfl⟩

/-- A thunk over a function that fits makes a later store. -/
theorem exists_later_thunk {f : Ref .function} (hf : s.Fits bounds (.function f)) :
    ∃ s' : Store p, s'.heap = (s.heap.addThunk (.waiting (.call f))).2 ∧ s.Later s' ∧
      s'.Fits bounds (.lazy ⟨s.heap.thunks.size⟩) := by
  have hvs : ∀ u ∈ [Value.function f], s.Fits bounds u := by simpa using hf
  obtain ⟨s', hheap, hlater, hfits⟩ := s.exists_later .thunk hvs
    (h := (s.heap.addThunk (.waiting (.call f))).2) (s.heap.retains_withThunks _)
    (by simp [Heap.addThunk])
    (fun i v hi => Kept.push _ _ i _ hi) (by simp [Heap.count, Heap.addThunk])
    (fun k i hki => by
      cases k with
      | thunk =>
        rw [Heap.partsAt, Heap.addThunk, elim_push, if_neg fun h => hki (by rw [h]; rfl)]; rfl
      | _ => rfl)
    (by simp [Heap.partsAt, Heap.addThunk, Heap.count, Heap.thunkParts])
    (by
      intro t ht
      rcases Array.mem_push.mp ht with ht | rfl
      · exact s.thunks t ht
      · exact ⟨f, rfl⟩)
    s.functions
  exact ⟨s', hheap, hlater, hfits _ rfl rfl⟩

end Making

/-! ### Changing thunks -/

section Thunks

variable {s : Store p} {t : Ref .thunk}

/-- A thunk that is not forced yet may change to one that refers to nothing above itself. -/
theorem exists_later_setThunk (u' : Thunk) {u : Thunk} (hu : s.heap.thunks[t.index]? = some u)
    (hunforced : u.memo? = none) (hcode : u'.OfCode)
    (hparts : ∀ v ∈ Heap.thunkParts u', s.Fits [s.rank .thunk t.index] v) :
    ∃ s' : Store p, s'.heap = s.heap.setThunk t u' ∧ s'.rank = s.rank ∧ s.Later s' := by
  have hsize : (s.heap.setThunk t u').thunks.size = s.heap.thunks.size := by simp [Heap.setThunk]
  have hcount (kind : NodeKind) : (s.heap.setThunk t u').count kind = s.heap.count kind := by
    cases kind with
    | thunk => exact hsize
    | _ => rfl
  -- ranks are kept and nothing is made, so what fitted fits
  have hmono {bounds : List ℚ} {v : Value} (hv : s.Fits bounds v) :
      LazyMachine.Fits (s.heap.setThunk t u') s.rank bounds v :=
    hv.mono (fun kind => by rw [hcount]) fun _ _ _ => rfl
  refine ⟨⟨s.heap.setThunk t u', s.rank, fun kind i v hv => hmono ?_, ?_, s.functions⟩, rfl, rfl,
    ⟨s.heap.retains_setThunk t u', Nat.le_of_eq hsize.symm, ?_, fun _ _ _ => rfl⟩⟩
  · cases kind with
    | thunk =>
      rw [Heap.partsAt, Heap.getElem?_setThunk] at hv
      split at hv
      · next hi =>
        rw [← hi.1]
        exact hparts v hv
      · exact s.ranked .thunk i v hv
    | _ => exact s.ranked _ i v hv
  · intro x hx
    rcases Array.mem_or_eq_of_mem_setIfInBounds hx with hx | rfl
    · exact s.thunks x hx
    · exact hcode
  · intro i v hi
    rw [Heap.getElem?_setThunk]
    split
    · next hti =>
      rw [← hti.1, hu] at hi
      cases hi
      cases hunforced
    · exact hi

/-- A waiting thunk may be claimed. -/
theorem exists_later_claim {d : Deferred} (ht : s.heap.thunks[t.index]? = some (.waiting d)) :
    ∃ s' : Store p, s'.heap = s.heap.setThunk t (.running d) ∧ s'.rank = s.rank ∧ s.Later s' := by
  obtain ⟨f, rfl⟩ := s.thunks _ (Array.mem_of_getElem? ht)
  refine exists_later_setThunk _ ht rfl ⟨f, rfl⟩ fun v hv => s.ranked .thunk t.index v ?_
  rw [Heap.partsAt, ht]
  exact hv

/-- A thunk may be released. -/
theorem exists_later_release (s : Store p) (t : Ref .thunk) :
    ∃ s' : Store p, s'.heap = s.heap.release t ∧ s'.rank = s.rank ∧ s.Later s' := by
  unfold Heap.release
  split
  · next d hd =>
    have ht := s.heap.getElem?_of_thunk t hd rfl
    obtain ⟨f, rfl⟩ := s.thunks _ (Array.mem_of_getElem? ht)
    refine exists_later_setThunk _ ht rfl ⟨f, rfl⟩ fun v hv => s.ranked .thunk t.index v ?_
    rw [Heap.partsAt, ht]
    exact hv
  · exact ⟨s, rfl, rfl, .refl s⟩

/-- Released thunks make a later store with the ranks it had. -/
theorem exists_later_releaseChain (s : Store p) (chain : List (Ref .thunk)) :
    ∃ s' : Store p, s'.heap = s.heap.releaseChain chain ∧ s'.rank = s.rank ∧ s.Later s' := by
  induction chain generalizing s with
  | nil => exact ⟨s, rfl, rfl, .refl s⟩
  | cons t chain ih =>
    obtain ⟨s₁, hheap₁, hrank₁, hlater₁⟩ := s.exists_later_release t
    obtain ⟨s₂, hheap₂, hrank₂, hlater₂⟩ := ih s₁
    exact ⟨s₂, by rw [hheap₂, hheap₁]; rfl, hrank₂.trans hrank₁, hlater₁.trans hlater₂⟩

/-- The bounds that a chain of thunks puts on their value. -/
def boundsOf (s : Store p) (chain : List (Ref .thunk)) : List ℚ :=
  chain.map fun t => s.rank .thunk t.index

/-- The thunks of a chain, each of which waits for the one after it. -/
def Descends (s : Store p) (chain : List (Ref .thunk)) : Prop :=
  (∀ t ∈ chain, t.index < s.heap.thunks.size) ∧
    chain.Pairwise fun t u => s.rank .thunk u.index < s.rank .thunk t.index

/-- Completing a thunk of a chain with a value below the chain gives a value below the chain. -/
theorem exists_later_complete (s : Store p) {v : Value} {bounds : List ℚ}
    (ht : t.index < s.heap.thunks.size) (hlazy : v.isLazy = false)
    (hv : s.Fits (s.rank .thunk t.index :: bounds) v)
    (hbounds : ∀ b ∈ bounds, s.rank .thunk t.index < b) :
    ∃ s' : Store p, s'.heap = (s.heap.complete t v).2 ∧ s'.rank = s.rank ∧ s.Later s' ∧
      (s.heap.complete t v).1.isLazy = false ∧ s'.Fits bounds (s.heap.complete t v).1 ∧
      s'.heap.thunks[t.index]? = some (.forced (s.heap.complete t v).1) := by
  obtain ⟨u, hu⟩ : ∃ u, s.heap.thunks[t.index]? = some u :=
    ⟨_, Array.getElem?_eq_getElem ht⟩
  have hthunk := s.heap.thunk_of_getElem? t hu
  -- the first value of a thunk stays: then it is this one that is handed on
  cases hmemo : u.memo? with
  | some first =>
    obtain rfl := (s.thunks u (Array.mem_of_getElem? hu)).eq_forced hmemo
    have hcomplete : s.heap.complete t v = (first, s.heap) := s.heap.complete_of_forced t hthunk v
    have hfirst : s.Fits [s.rank .thunk t.index] first :=
      s.ranked .thunk t.index first (by rw [Heap.partsAt, hu]; simp [Heap.thunkParts])
    rw [hcomplete]
    refine ⟨s, rfl, rfl, .refl s, s.thunks _ (Array.mem_of_getElem? hu), ?_, hu⟩
    refine ⟨hfirst.internal, hfirst.held, fun n hn b hb => ?_⟩
    exact (hfirst.below n hn _ (List.mem_singleton_self _)).trans (hbounds b hb)
  | none =>
    have hcomplete : s.heap.complete t v = (v, s.heap.setThunk t (.forced v)) :=
      s.heap.complete_of_unforced t (by rw [Heap.memo?, hthunk, hmemo])
    obtain ⟨s', hheap, hrank, hlater⟩ := exists_later_setThunk (.forced v) hu hmemo hlazy
      (by simpa [Heap.thunkParts] using hv.subset (by simp))
    rw [hcomplete]
    refine ⟨s', hheap, hrank, hlater, hlazy, hlater.fits (hv.subset (by simp)), ?_⟩
    rw [hheap, Heap.getElem?_setThunk, if_pos ⟨rfl, ht⟩]

/-- Publishing a value in the thunks of a chain that it fits below. -/
theorem exists_later_completeChain (s : Store p) {chain : List (Ref .thunk)} {v : Value}
    {bounds : List ℚ} (hchain : s.Descends chain)
    (hbounds : ∀ t ∈ chain, ∀ b ∈ bounds, s.rank .thunk t.index < b) (hlazy : v.isLazy = false)
    (hv : s.Fits (s.boundsOf chain ++ bounds) v) :
    ∃ s' : Store p, s'.heap = (s.heap.completeChain chain v).2 ∧ s'.rank = s.rank ∧ s.Later s' ∧
      (s.heap.completeChain chain v).1.isLazy = false ∧
      s'.Fits bounds (s.heap.completeChain chain v).1 ∧
      ∀ t ∈ chain.head?, s'.heap.thunks[t.index]? =
        some (.forced (s.heap.completeChain chain v).1) := by
  induction chain generalizing bounds with
  | nil => exact ⟨s, rfl, rfl, .refl s, hlazy, hv, by simp⟩
  | cons t chain ih =>
    obtain ⟨hheld, hpairwise⟩ := hchain
    obtain ⟨hbelow, hpairwise⟩ := List.pairwise_cons.mp hpairwise
    -- the rest of the chain is completed first, and what it gives fits below `t`
    obtain ⟨s₁, hheap₁, hrank₁, hlater₁, hlazy₁, hfits₁, -⟩ :=
      @ih (s.rank .thunk t.index :: bounds)
        ⟨fun u hu => hheld u (List.mem_cons_of_mem t hu), hpairwise⟩
        (by
          intro u hu b hb
          rcases List.mem_cons.mp hb with rfl | hb
          · exact hbelow u hu
          · exact hbounds u (List.mem_cons_of_mem t hu) b hb)
        (hv.subset (by intro b hb; simp only [boundsOf, List.map_cons, List.cons_append,
          List.mem_append, List.mem_cons] at hb ⊢; tauto))
    have ht : t.index < s₁.heap.thunks.size :=
      Nat.lt_of_lt_of_le (hheld t List.mem_cons_self) hlater₁.size
    rw [← hrank₁] at hfits₁
    obtain ⟨s₂, hheap₂, hrank₂, hlater₂, hlazy₂, hfits₂, hforced⟩ :=
      s₁.exists_later_complete ht hlazy₁ hfits₁
        (by rw [hrank₁]; exact hbounds t List.mem_cons_self)
    have hfold : s.heap.completeChain (t :: chain) v =
        s₁.heap.complete t (s.heap.completeChain chain v).1 := by rw [hheap₁]; rfl
    rw [hfold]
    exact ⟨s₂, hheap₂, hrank₂.trans hrank₁, hlater₁.trans hlater₂, hlazy₂, hfits₂, by
      simpa using hforced⟩

/-- A lazy value that fits refers to a thunk that is there. -/
theorem exists_thunk (s : Store p) {bounds : List ℚ} (ht : s.Fits bounds (.lazy t)) :
    ∃ u, s.heap.thunks[t.index]? = some u ∧ s.heap.thunk t = u := by
  have hlt : t.index < s.heap.thunks.size := ht.held (.thunk, t.index) rfl
  have hget := Array.getElem?_eq_getElem hlt
  exact ⟨_, hget, s.heap.thunk_of_getElem? t hget⟩

/-- The value of a thunk that fits is under the thunk, and is not lazy. -/
theorem under_memo (s : Store p) {bounds : List ℚ} {v : Value} (ht : s.Fits bounds (.lazy t))
    (hmemo : s.heap.memo? t = some v) :
    s.heap.thunks[t.index]? = some (.forced v) ∧ v.isLazy = false ∧ s.Under v (.lazy t) := by
  obtain ⟨u, hu, hthunk⟩ := s.exists_thunk ht
  rw [Heap.memo?, hthunk] at hmemo
  obtain rfl := (s.thunks u (Array.mem_of_getElem? hu)).eq_forced hmemo
  refine ⟨hu, s.thunks _ (Array.mem_of_getElem? hu), s.under_part rfl ?_⟩
  rw [Heap.partsAt, hu]
  simp [Heap.thunkParts]

/-- A value that fits resolves to one that is not lazy, or is a thunk without a value. -/
theorem resolve_cases (s : Store p) {bounds : List ℚ} {v : Value} (hv : s.Fits bounds v) :
    ((s.heap.resolve v).isLazy = false ∧ s.Fits bounds (s.heap.resolve v)) ∨
      ∃ t, v = .lazy t ∧ s.heap.resolve v = v ∧ s.heap.memo? t = none := by
  by_cases hlazy : v.isLazy = false
  · left
    have hresolve : s.heap.resolve v = v := by cases v <;> first | rfl | cases hlazy
    rw [hresolve]
    exact ⟨hlazy, hv⟩
  · obtain ⟨t, rfl⟩ : ∃ t, v = .lazy t := by cases v <;> simp_all [Value.isLazy]
    cases hmemo : s.heap.memo? t with
    | none => exact .inr ⟨t, rfl, by simp [Heap.resolve, Heap.follow, hmemo], hmemo⟩
    | some u =>
      obtain ⟨-, hu, hunder⟩ := s.under_memo hv hmemo
      have hresolve : s.heap.resolve (.lazy t) = u := by
        rw [Heap.resolve, Heap.follow, hmemo]
        cases s.heap.thunks.size <;> cases u <;> first | rfl | cases hu
      rw [hresolve]
      exact .inl ⟨hu, hunder.fits hv⟩

/-- Forced thunks of the store do not go round in a circle. -/
theorem resolve?_eq (s : Store p) {bounds : List ℚ} {v : Value} (hv : s.Fits bounds v) :
    s.heap.resolve? v = some (s.heap.resolve v) := by
  rcases s.resolve_cases hv with ⟨hevaluated, -⟩ | ⟨t, rfl, hresolve, hmemo⟩
  · exact Heap.resolve?_of_evaluated hevaluated
  · rw [Heap.resolve?_of_memo?_eq_none hresolve hmemo, hresolve]

end Thunks

/-! ### Looking at objects -/

section Looking

variable {s s' : Store p} {bounds : List ℚ}

/-- An object that is held is the same on later stores. -/
theorem Later.cell_eq (hs : s.Later s') {c : Ref .cell} (hc : s.Fits bounds (.list (some c))) :
    s'.heap.cell c = s.heap.cell c := by
  have hlt : c.index < s.heap.cells.size := hc.held (.cell, c.index) rfl
  have hget := Array.getElem?_eq_getElem hlt
  rw [Heap.cell, Heap.cell, Array.getD_eq_getD_getElem?, Array.getD_eq_getD_getElem?,
    hs.retains.cells _ _ hget, hget]

/-- A record stays as it is. -/
theorem Later.record_eq (hs : s.Later s') {r : Ref .record} (hr : s.Fits bounds (.record r)) :
    s'.heap.record r = s.heap.record r := by
  have hlt : r.index < s.heap.records.size := hr.held (.record, r.index) rfl
  have hget := Array.getElem?_eq_getElem hlt
  rw [Heap.record, Heap.record, Array.getD_eq_getD_getElem?, Array.getD_eq_getD_getElem?,
    hs.retains.records _ _ hget, hget]

/-- A variant stays as it is. -/
theorem Later.variant_eq (hs : s.Later s') {v : Ref .variant} (hv : s.Fits bounds (.variant v)) :
    s'.heap.variant v = s.heap.variant v := by
  have hlt : v.index < s.heap.variants.size := hv.held (.variant, v.index) rfl
  have hget := Array.getElem?_eq_getElem hlt
  rw [Heap.variant, Heap.variant, Array.getD_eq_getD_getElem?, Array.getD_eq_getD_getElem?,
    hs.retains.variants _ _ hget, hget]

/-- The parts of a cell are under it. -/
theorem under_cell {r : Ref .cell} (hr : s.Fits bounds (.list (some r))) {u : Value}
    (hu : u = (s.heap.cell r).head ∨ u = (s.heap.cell r).tail) : s.Under u (.list (some r)) := by
  have hlt : r.index < s.heap.cells.size := hr.held (.cell, r.index) rfl
  have hget := Array.getElem?_eq_getElem hlt
  refine s.under_part rfl ?_
  rw [Heap.cell, Array.getD_eq_getD_getElem?, hget] at hu
  rw [Heap.partsAt, hget]
  rcases hu with rfl | rfl <;> simp

/-- The fields of a record are under it. -/
theorem under_record {r : Ref .record} (hr : s.Fits bounds (.record r)) {x : String × Value}
    (hx : x ∈ (s.heap.record r).fields) : s.Under x.2 (.record r) := by
  have hlt : r.index < s.heap.records.size := hr.held (.record, r.index) rfl
  have hget := Array.getElem?_eq_getElem hlt
  refine s.under_part rfl ?_
  rw [Heap.record, Array.getD_eq_getD_getElem?, hget] at hx
  rw [Heap.partsAt, hget]
  exact List.mem_map_of_mem hx

/-- The payload of a variant is under it. -/
theorem under_variant {v : Ref .variant} (hv : s.Fits bounds (.variant v)) :
    s.Under (s.heap.variant v).payload (.variant v) := by
  have hlt : v.index < s.heap.variants.size := hv.held (.variant, v.index) rfl
  have hget := Array.getElem?_eq_getElem hlt
  refine s.under_part rfl ?_
  rw [Heap.partsAt, Heap.variant, Array.getD_eq_getD_getElem?, hget]
  simp

/-- A function that is held runs a chunk of the program. -/
theorem function_ofCode {f : Ref .function} (hf : s.Fits bounds (.function f)) :
    (s.heap.function f).OfCode p ∧
      ∀ v ∈ Heap.functionParts (s.heap.function f), s.Fits bounds v := by
  have hlt : f.index < s.heap.functions.size := hf.held (.function, f.index) rfl
  have hget := Array.getElem?_eq_getElem hlt
  have hfunction : s.heap.function f = s.heap.functions[f.index] := by
    rw [Heap.function, Array.getD_eq_getD_getElem?, hget, Option.getD_some]
  rw [hfunction]
  refine ⟨s.functions _ (Array.getElem_mem hlt), fun v hv => (s.under_part rfl ?_).fits hf⟩
  rw [Heap.partsAt, hget]
  exact hv

end Looking

/-! ### Heights -/

section Heights

variable {s : Store p}

/-- The number of objects up to the one that a value refers to, in the order of their ranks. -/
def height (s : Store p) (v : Value) : Nat :=
  match v.node? with
  | none => 0
  | some n => (s.heap.objects.filter fun m => s.rank m.1 m.2 ≤ s.rank n.1 n.2).card

/-- No height is above the number of objects. -/
theorem height_le (s : Store p) (v : Value) : s.height v ≤ s.heap.objects.card := by
  unfold height
  split
  · exact Nat.zero_le _
  · exact Finset.card_filter_le _ _

/-- What is under a value is lower. -/
theorem Under.height_lt {bounds : List ℚ} {u v : Value} (hu : s.Under u v) (hv : s.Fits bounds v) :
    s.height u < s.height v := by
  obtain ⟨n, hn, hfits⟩ := hu
  have hself : n ∈ s.heap.objects.filter fun m => s.rank m.1 m.2 ≤ s.rank n.1 n.2 :=
    Finset.mem_filter.mpr ⟨Heap.mem_objects.mpr (hv.held n hn), le_refl _⟩
  have hheight : s.height v =
      (s.heap.objects.filter fun m => s.rank m.1 m.2 ≤ s.rank n.1 n.2).card := by
    rw [height, hn]
  rw [hheight]
  unfold height
  split
  · exact Finset.card_pos.mpr ⟨_, hself⟩
  · next m hm =>
    have hlt := hfits.below m hm _ (List.mem_singleton_self _)
    refine Finset.card_lt_card (Finset.ssubset_iff_of_subset ?_ |>.mpr ⟨_, hself, ?_⟩)
    · intro k hk
      rw [Finset.mem_filter] at hk ⊢
      exact ⟨hk.1, hk.2.trans hlt.le⟩
    · rw [Finset.mem_filter]
      exact fun hk => absurd hk.2 (not_le.mpr hlt)

end Heights

end Store

end LazyMachine
