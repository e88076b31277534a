import LazyMachine.Proofs.Atoms
import LazyMachine.Proofs.Rendering
import LazyMachine.Proofs.Spines

/-!
# Plain data

Data that is made of scalars, strings and type descriptors by strict lists, records and variants.
`Heap.Plain` says so, case by case, and thereby that there is no lazy value, function, module or
foreign value anywhere in it.

Plain data stays plain as the heap grows (`Plain.retains`). A plain list is a row of cells
(`Plain.chain`), and everything plain can be compared and rendered without evaluation
(`Plain.comparable`).
-/

namespace LazyMachine

namespace Heap

/-- The value is made of atoms by strict lists, records and variants on the heap. It contains no
lazy value, function, module or foreign value. -/
inductive Plain (h : Heap) : Value → Prop
  | atom {v : Value} (hv : v.isAtom = true) : Plain h v
  | nil : Plain h (.list none)
  | cell {c : Ref .cell} {rest : Option (Ref .cell)} (hc : c.index < h.cells.size)
      (htail : (h.cell c).tail = .list rest) (hhead : Plain h (h.cell c).head)
      (hrest : Plain h (.list rest)) : Plain h (.list (some c))
  | record {r : Ref .record} (hr : r.index < h.records.size)
      (hfields : ∀ x ∈ (h.record r).fields, Plain h x.2) : Plain h (.record r)
  | variant {c : Ref .variant} (hc : c.index < h.variants.size)
      (hpayload : Plain h (h.variant c).payload) : Plain h (.variant c)

variable {h k : Heap} {v u : Value} {first rest : Option (Ref .cell)} {vs : List Value}

namespace Plain

/-- Plain data are not lazy. -/
theorem isLazy (hv : h.Plain v) : v.isLazy = false := by
  cases hv with
  | atom hatom => cases v <;> first | rfl | cases hatom
  | _ => rfl

/-- A foreign value is not plain. -/
theorem not_foreign {f : Foreign} : ¬ h.Plain (.foreign f) := by
  rintro (h | _)
  cases h

/-- Nothing plain is waiting to be run. -/
theorem kind?_ne (hv : h.Plain v) :
    v.kind? ≠ some .lazy ∧ v.kind? ≠ some .function ∧ v.kind? ≠ some .module := by
  cases hv with
  | atom hatom => cases v <;> simp [Value.isAtom, Value.kind?] at hatom ⊢
  | _ => simp [Value.kind?]

/-- Plain data are what they resolve to. -/
theorem resolve_eq (hv : h.Plain v) : h.resolve v = v :=
  resolve_of_not_lazy hv.isLazy

/-- The objects that plain data is made of stay as they are. -/
theorem retains (hv : h.Plain v) (hk : h.Retains k) : k.Plain v := by
  induction hv with
  | atom hatom => exact .atom hatom
  | nil => exact .nil
  | cell hc htail _ _ ihHead ihRest =>
    have hcell := hk.cell_eq hc
    exact .cell (hk.cells.size_le hc) (hcell ▸ htail) (hcell ▸ ihHead) ihRest
  | @record r hr _ ih =>
    have hrecord : k.record r = h.record r := hk.records.getD_eq hr default
    exact .record (hk.records.size_le hr) (hrecord ▸ ih)
  | @variant c hc _ ih =>
    have hvariant : k.variant c = h.variant c := hk.variants.getD_eq hc default
    exact .variant (hk.variants.size_le hc) (hvariant ▸ ih)

/-! ### Lists -/

/-- Behind the head of a plain list stands a plain list. -/
theorem tail {c : Ref .cell} (hv : h.Plain (.list (some c))) :
    ∃ rest, (h.cell c).tail = .list rest ∧ h.Plain (.list rest) := by
  rcases hv with hatom | _ | ⟨-, htail, -, hrest⟩
  · cases hatom
  · exact ⟨_, htail, hrest⟩

/-- Induction along the cells of a plain list. -/
@[elab_as_elim]
theorem list_induction {motive : Option (Ref .cell) → Prop} (nil : motive none)
    (cell : ∀ c rest, c.index < h.cells.size → h.cell c = ⟨(h.cell c).head, .list rest⟩ →
      h.Plain (h.cell c).head → h.Plain (.list rest) → motive rest → motive (some c))
    (hv : h.Plain (.list first)) : motive first := by
  generalize hlist : Value.list first = v at hv
  induction hv generalizing first with
  | atom hatom =>
    subst hlist
    cases hatom
  | nil =>
    cases hlist
    exact nil
  | cell hc htail hhead hrest _ ih =>
    cases hlist
    exact cell _ _ hc (by rw [← htail]) hhead hrest (ih rfl)
  | record => cases hlist
  | variant => cases hlist

/-- A plain list is a row of cells with plain heads. -/
theorem chain (hv : h.Plain (.list first)) :
    ∃ vs, h.Chain first vs none ∧ ∀ v ∈ vs, h.Plain v := by
  refine list_induction ?_ ?_ hv
  · exact ⟨[], .nil none, by simp⟩
  · rintro c rest hc hcell hhead - ⟨vs, hcells, hvs⟩
    exact ⟨_ :: vs, .cons hc hcell hcells, List.forall_mem_cons.mpr ⟨hhead, hvs⟩⟩

/-- Cells with plain heads in front of a plain list. -/
theorem of_chain (hcells : h.Chain first vs rest) (hvs : ∀ v ∈ vs, h.Plain v)
    (hrest : h.Plain (.list rest)) : h.Plain (.list first) := by
  induction hcells with
  | nil => exact hrest
  | cons hlt hcell _ ih =>
    obtain ⟨hhead, hvs⟩ := List.forall_mem_cons.mp hvs
    exact .cell hlt (congrArg Cell.tail hcell) (by rwa [hcell]) (ih hvs hrest)

/-! ### Parts -/

/-- The parts of plain data are plain. -/
theorem part (hv : h.Plain v) (hu : h.Part v u) : h.Plain u := by
  cases hu with
  | memo _ => cases hv.isLazy
  | head c =>
    rcases hv with hatom | _ | ⟨-, -, hhead, -⟩
    · cases hatom
    · exact hhead
  | tail c =>
    obtain ⟨rest, htail, hrest⟩ := hv.tail
    rwa [htail]
  | field hx =>
    rcases hv with hatom | _ | _ | ⟨-, hfields⟩
    · cases hatom
    · exact hfields _ hx
  | payload c =>
    rcases hv with hatom | _ | _ | _ | ⟨-, hpayload⟩
    · cases hatom
    · exact hpayload

/-- All that plain data reach is plain. -/
theorem reaches (hv : h.Plain v) (hu : h.Reaches v u) : h.Plain u := by
  induction hu with
  | refl => exact hv
  | tail _ hpart ih => exact ih.part hpart

/-- Plain data are on the heap. -/
theorem holds (hv : h.Plain v) : h.Holds v := by
  cases hv with
  | atom hatom => cases v <;> trivial
  | nil => trivial
  | cell hc => exact hc
  | record hr => exact hr
  | variant hc => exact hc

/-- Plain data are comparable. -/
theorem comparable (hv : h.Plain v) : h.Comparable v where
  held u hu := (hv.reaches hu).holds
  evaluated u hu := by
    rw [(hv.reaches hu).resolve_eq]
    exact (hv.reaches hu).isLazy
  spine c hc := by
    obtain ⟨rest, htail, -⟩ := (hv.reaches hc).tail
    exact ⟨rest, by rw [htail]; rfl⟩
  native f hf := not_foreign (hv.reaches hf)

end Plain

end Heap

end LazyMachine
