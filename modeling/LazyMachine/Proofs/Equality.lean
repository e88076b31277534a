import LazyMachine.Proofs.Bisimilarity
import LazyMachine.Proofs.Outcome
import Mathlib.Data.Finset.Lattice.Fold
import Mathlib.Data.Finset.Prod
import Mathlib.Order.Lattice.Nat

/-!
# Equality decides bisimilarity

On data that can be compared without evaluation, the comparison of two values ends and finds them
equal exactly if they are bisimilar (`equal_decides_bisimilarity`).

The comparison never forgets a pair of objects that it met, and takes it for equal when it meets it
again. `Verdict` is what makes this sound: as long as no difference is found, every pair met since
the start of a comparison matches with parts that are alike or have been met themselves. At the end
of the whole comparison the pairs met are therefore a bisimulation. A difference, on the other hand,
is found without looking at the pairs met. The comparison ends because each pair is entered once;
`Heap.budget` says how much fuel that takes.
-/

namespace LazyMachine

/-! ### Forcing what is evaluated -/

/-- Forcing a value whose thunks are evaluated gives what it resolves to and changes nothing. -/
def Evaluator.Reads (ev : Evaluator) (w : World) : Prop :=
  ∀ v, (w.heap.resolve v).isLazy = false → ∀ Q : Except Interrupt Value → World → Prop,
    Q (.ok (w.heap.resolve v)) w → Leads (ev.force v) w Q

/-- Forcing on and on comes to what the memos lead to. -/
theorem leads_forceFrom (E : Engine) {w : World} {v : Value} {steps fuel : Nat}
    (hv : (w.heap.follow steps v).isLazy = false) (hfuel : steps < fuel)
    {Q : Except Interrupt Value → World → Prop} (hQ : Q (.ok (w.heap.follow steps v)) w) :
    Leads (forceFrom E fuel v) w Q := by
  induction steps generalizing v fuel with
  | zero =>
    obtain ⟨fuel, rfl⟩ := Nat.exists_eq_succ_of_ne_zero (Nat.ne_of_gt hfuel)
    cases v <;> first | exact hQ | cases hv
  | succ steps ih =>
    obtain ⟨fuel, rfl⟩ := Nat.exists_eq_succ_of_ne_zero (Nat.ne_zero_of_lt hfuel)
    cases v with
    | lazy t =>
      rw [Heap.follow] at hv hQ
      simp only [forceFrom, forceThunk, leads_bind, leads_heap]
      cases ht : w.heap.memo? t with
      | none => simp [ht, Value.isLazy] at hv
      | some u =>
        simp only [ht] at hv hQ
        exact ih hv (by omega) hQ
    | _ => exact hQ

/-- On a live context, forces with enough fuel read what is evaluated. -/
theorem force_reads (E : Engine) {w : World} (hlive : w.context.interrupt? = none) (fuel : Nat)
    (hfuel : w.heap.thunks.size + 1 < fuel) : Evaluator.Reads ⟨fuel, force E fuel, E⟩ w := by
  intro v hv Q hQ
  simp only [force, Eval.ensureLive, leads_bind, leads_context, hlive, leads_pure]
  exact leads_forceFrom E hv hfuel hQ

/-! ### Pairs of objects -/

/-- The pair under which the comparison of two structures of one kind is recorded. -/
def pairOf? : Value → Value → Option (Address × Address)
  | .list (some a), .list (some b) => some (.node .cell a.index, .node .cell b.index)
  | .record a, .record b => some (.node .record a.index, .node .record b.index)
  | .variant a, .variant b => some (.node .variant a.index, .node .variant b.index)
  | _, _ => none

/-- A pair tells the structures that it stands for. -/
theorem pairOf?_inj {l r l' r' : Value} {p : Address × Address} (h : pairOf? l r = some p)
    (h' : pairOf? l' r' = some p) : l' = l ∧ r' = r := by
  have ref_eq {kind : NodeKind} {a b : Ref kind} (hab : a.index = b.index) : a = b := by
    cases a
    cases b
    exact congrArg _ hab
  unfold pairOf? at h h'
  split at h <;> split at h' <;> cases h <;> simp at h' <;> simp [ref_eq h'.1, ref_eq h'.2]

/-- Values that are not a pair of structures match if they are alike. -/
theorem matches_of_pairOf?_eq_none {h : Heap} {R : Value → Value → Prop} {l r : Value}
    (hlr : pairOf? l r = none) : h.Matches R l r ↔ l.alike r := by
  refine Heap.matches_iff_alike ?_ ?_ ?_ <;> rintro a b rfl rfl <;> cases hlr

namespace Heap

variable (h : Heap)

/-- The objects that can be parts of a pair. -/
def nodes : Finset Address :=
  (Finset.range h.cells.size).image (.node .cell) ∪
    (Finset.range h.records.size).image (.node .record) ∪
    (Finset.range h.variants.size).image (.node .variant)

/-- The number of pairs of objects that have not been met. -/
def unmet (met : Equality.Met) : Nat :=
  (h.nodes ×ˢ h.nodes \ met.toFinset).card

/-- The largest number of fields of a record. -/
def widest : Nat :=
  (Finset.range h.records.size).sup fun i => (h.record ⟨i⟩).fields.length

/-- The fuel for entering every pair that has not been met, and for the fields in between. -/
def budget (met : Equality.Met) : Nat :=
  h.unmet met * (h.widest + 3)

variable {h}

/-- The more pairs are met, the fewer are left. -/
theorem budget_mono {met met' : Equality.Met} (hmet : met ⊆ met') :
    h.budget met' ≤ h.budget met := by
  refine Nat.mul_le_mul_right _ (Finset.card_le_card (Finset.sdiff_subset_sdiff subset_rfl ?_))
  intro p hp
  rw [List.mem_toFinset] at *
  exact hmet hp

/-- Entering a pair takes its share of the budget. -/
theorem budget_cons {met : Equality.Met} {l r : Value} {p : Address × Address}
    (hp : pairOf? l r = some p) (hl : h.Holds l) (hr : h.Holds r) (hmet : p ∉ met) :
    h.budget (p :: met) + h.widest + 3 ≤ h.budget met := by
  have hnodes : p ∈ h.nodes ×ˢ h.nodes := by
    unfold pairOf? at hp
    split at hp <;> cases hp <;> simp_all [nodes, Holds]
  have hlt : h.unmet (p :: met) < h.unmet met := by
    refine Finset.card_lt_card ?_
    rw [List.toFinset_cons, Finset.sdiff_insert]
    exact Finset.erase_ssubset (Finset.mem_sdiff.mpr ⟨hnodes, by simpa using hmet⟩)
  calc h.budget (p :: met) + h.widest + 3 = (h.unmet (p :: met) + 1) * (h.widest + 3) := by
        rw [budget, Nat.succ_mul, Nat.add_assoc]
    _ ≤ h.budget met := Nat.mul_le_mul_right _ hlt

/-- No record is wider than the widest. -/
theorem length_fields_le {r : Ref .record} (hr : h.Holds (.record r)) :
    (h.record r).fields.length ≤ h.widest :=
  Finset.le_sup (f := fun i => (h.record ⟨i⟩).fields.length) (Finset.mem_range.mpr hr)

end Heap

/-! ### Verdicts -/

section Verdicts

variable {h : Heap} {met met' : Equality.Met} {l r : Value} {p : Address × Address}

/-- The two values resolve to structures that have been met as a pair, or are alike. -/
def Vouched (h : Heap) (met : Equality.Met) (l r : Value) : Prop :=
  match pairOf? (h.resolve l) (h.resolve r) with
  | some p => p ∈ met
  | none => (h.resolve l).alike (h.resolve r)

/-- The structures that the pair stands for match with parts that are vouched for. -/
def Expanded (h : Heap) (met : Equality.Met) (p : Address × Address) : Prop :=
  ∀ l r, pairOf? l r = some p → h.Matches (Vouched h met) l r

/-- The answer to the question `G` of the parts of two values, with the pairs met before and
after. -/
structure Verdict (h : Heap) (G : (Value → Value → Prop) → Prop) (met : Equality.Met)
    (answer : Bool × Equality.Met) : Prop where
  /-- No pair is forgotten. -/
  grows : met ⊆ answer.2
  /-- If no difference is found, every pair met on the way is accounted for. -/
  sound : answer.1 = true →
    G (Vouched h answer.2) ∧ ∀ p ∈ answer.2, p ∉ met → Expanded h answer.2 p
  /-- A difference is one that no bisimulation tolerates. -/
  refutes : answer.1 = false → ¬ G h.Bisimilar

theorem Vouched.mono (hmet : met ⊆ met') (hv : Vouched h met l r) : Vouched h met' l r := by
  unfold Vouched at *
  split at hv
  · exact hmet hv
  · exact hv

theorem Expanded.mono (hmet : met ⊆ met') (he : Expanded h met p) : Expanded h met' p :=
  fun l r hp => (he l r hp).mono fun _ _ => Vouched.mono hmet

/-- If all pairs are accounted for, they are a bisimulation. -/
theorem bisimulation_vouched (hmet : ∀ p ∈ met, Expanded h met p) :
    h.Bisimulation (Vouched h met) := by
  intro l r hlr
  unfold Vouched at hlr
  split at hlr
  · next p hp => exact hmet p hlr _ _ hp
  · next hp => exact (matches_of_pairOf?_eq_none hp).mpr hlr

namespace Verdict

variable {G G' : (Value → Value → Prop) → Prop} {b : Bool}

/-- A comparison meets more pairs. -/
theorem budget_le {answer : Bool × Equality.Met} (v : Verdict h G met answer) :
    h.budget answer.2 ≤ h.budget met :=
  Heap.budget_mono v.grows

/-- Only what values resolve to counts. -/
theorem congr {l' r' : Value} {answer : Bool × Equality.Met}
    (hl : h.resolve l' = h.resolve l) (hr : h.resolve r' = h.resolve r)
    (v : Verdict h (fun R => R l' r') met answer) : Verdict h (fun R => R l r) met answer where
  grows := v.grows
  sound hb := by
    obtain ⟨hvouched, hexpanded⟩ := v.sound hb
    refine ⟨?_, hexpanded⟩
    rwa [Vouched, hl, hr] at hvouched
  refutes hb hlr := v.refutes hb (hlr.congr hl hr)

/-- A question with an equivalent one. -/
theorem iff (hG : ∀ R, G R ↔ G' R) {answer : Bool × Equality.Met} (v : Verdict h G met answer) :
    Verdict h G' met answer where
  grows := v.grows
  sound hb := ⟨(hG _).mp (v.sound hb).1, (v.sound hb).2⟩
  refutes hb hlr := v.refutes hb ((hG _).mpr hlr)

/-- Values without common parts are compared at once. -/
theorem scalar (hp : pairOf? l r = none) (hl : l.isLazy = false) (hr : r.isLazy = false) :
    Verdict h (fun R => R l r) met (l.alike r, met) where
  grows := List.Subset.refl _
  sound hb := by
    refine ⟨?_, fun p hp hnot => absurd hp hnot⟩
    rw [Vouched, Heap.resolve_of_not_lazy hl, Heap.resolve_of_not_lazy hr, hp]
    exact hb
  refutes hb hlr := by
    have hm := hlr.matches
    rw [Heap.resolve_of_not_lazy hl, Heap.resolve_of_not_lazy hr,
      matches_of_pairOf?_eq_none hp] at hm
    rw [hm] at hb
    cases hb

/-- A pair that was met before is taken for equal. -/
theorem again (hp : pairOf? l r = some p) (hl : l.isLazy = false) (hr : r.isLazy = false)
    (hmem : p ∈ met) : Verdict h (fun R => R l r) met (true, met) where
  grows := List.Subset.refl _
  sound _ := by
    refine ⟨?_, fun p hp hnot => absurd hp hnot⟩
    rw [Vouched, Heap.resolve_of_not_lazy hl, Heap.resolve_of_not_lazy hr, hp]
    exact hmem
  refutes hb := by cases hb

/-- A pair that is met for the first time is entered, and its parts are compared. -/
theorem enter {answer : Bool × Equality.Met} (hp : pairOf? l r = some p)
    (hl : l.isLazy = false) (hr : r.isLazy = false)
    (v : Verdict h (fun R => h.Matches R l r) (p :: met) answer) :
    Verdict h (fun R => R l r) met answer where
  grows q hq := v.grows (List.mem_cons_of_mem p hq)
  sound hb := by
    obtain ⟨hmatches, hexpanded⟩ := v.sound hb
    constructor
    · rw [Vouched, Heap.resolve_of_not_lazy hl, Heap.resolve_of_not_lazy hr, hp]
      exact v.grows List.mem_cons_self
    · intro q hq hnot
      by_cases hqp : q = p
      · subst hqp
        intro l' r' hp'
        obtain ⟨rfl, rfl⟩ := pairOf?_inj hp hp'
        exact hmatches
      · exact hexpanded q hq (by simp [hqp, hnot])
  refutes hb hlr := by
    have hm := hlr.matches
    rw [Heap.resolve_of_not_lazy hl, Heap.resolve_of_not_lazy hr] at hm
    exact v.refutes hb hm

/-- The second of two questions is asked only if the answer to the first is yes. -/
theorem and (hG : ∀ {met met' : Equality.Met}, met ⊆ met' → G (Vouched h met) → G (Vouched h met'))
    {met₁ : Equality.Met} {answer : Bool × Equality.Met} (v : Verdict h G met (true, met₁))
    (v' : Verdict h G' met₁ answer) : Verdict h (fun R => G R ∧ G' R) met answer where
  grows := List.Subset.trans v.grows v'.grows
  sound hb := by
    obtain ⟨h₁, hexpanded₁⟩ := v.sound rfl
    obtain ⟨h₂, hexpanded₂⟩ := v'.sound hb
    refine ⟨⟨hG v'.grows h₁, h₂⟩, fun q hq hnot => ?_⟩
    by_cases hmem : q ∈ met₁
    · exact (hexpanded₁ q hmem hnot).mono v'.grows
    · exact hexpanded₂ q hq hmem
  refutes hb hlr := v'.refutes hb hlr.2

/-- The answer no settles a question with more parts. -/
theorem no (hG : G' h.Bisimilar → G h.Bisimilar) {met₁ : Equality.Met}
    (v : Verdict h G met (false, met₁)) : Verdict h G' met (false, met₁) where
  grows := v.grows
  sound hb := by cases hb
  refutes _ hlr := v.refutes rfl (hG hlr)

end Verdict

end Verdicts

/-! ### The comparison -/

section Comparison

variable {ev : Evaluator} {w : World}

/-- On `w` the comparison `x` answers the question `G` and changes nothing, unless the fuel is
short. -/
def Decides (w : World) (G : (Value → Value → Prop) → Prop) (met : Equality.Met) (short : Prop)
    (x : Eval (Bool × Equality.Met)) : Prop :=
  Leads x w fun r w' => w' = w ∧ match r with
    | .ok answer => Verdict w.heap G met answer
    | .error _ => short

/-- The lists of fields agree on their names, and their values are related by `R`. -/
def FieldsRelated (a b : List (String × Value)) (R : Value → Value → Prop) : Prop :=
  List.Forall₂ (fun x y => x.1 = y.1 ∧ R x.2 y.2) a b

/-- What the comparison does with an amount of fuel. -/
structure DecidesWith (ev : Evaluator) (w : World) (fuel : Nat) : Prop where
  value : ∀ l r met, w.heap.Comparable l → w.heap.Comparable r →
    Decides w (fun R => R l r) met (fuel < w.heap.budget met + 2)
      (Equality.value ev fuel l r met)
  fields : ∀ a b met, (∀ x ∈ a, w.heap.Comparable x.2) → (∀ x ∈ b, w.heap.Comparable x.2) →
    a.length = b.length →
    Decides w (FieldsRelated a b) met (fuel < w.heap.budget met + a.length + 3)
      (Equality.fields ev fuel a b met)
  lists : ∀ a b met, w.heap.Comparable (.list a) → w.heap.Comparable (.list b) →
    Decides w (fun R => R (.list a) (.list b)) met (fuel < w.heap.budget met + 1)
      (Equality.lists ev fuel a b met)

/-- Going on along the spine of a comparable list changes nothing. -/
theorem leads_next (hev : ev.Reads w) {c : Ref .cell} (hc : w.heap.Comparable (.list (some c)))
    {Q : Except Interrupt (Option (Ref .cell)) → World → Prop}
    (hQ : ∀ rest, w.heap.resolve (w.heap.cell c).tail = .list rest →
      w.heap.Comparable (.list rest) → Q (.ok rest) w) :
    Leads (Spine.next ev c) w Q := by
  obtain ⟨rest, hrest⟩ := hc.spine c .refl
  have htail := hc.part (.tail c)
  simp only [Spine.next, leads_bind, leads_heap]
  refine hev _ (htail.evaluated _ .refl) _ ?_
  rw [hrest]
  refine hQ rest hrest ?_
  rw [← hrest]
  exact htail.of_reaches (Heap.reaches_resolve _ _)

/-- The comparison of lists decides, cell by cell. -/
theorem lists_decides {fuel : Nat} (hev : ev.Reads w) (ih : DecidesWith ev w fuel)
    {a b : Option (Ref .cell)} {met : Equality.Met} (ha : w.heap.Comparable (.list a))
    (hb : w.heap.Comparable (.list b)) :
    Decides w (fun R => R (.list a) (.list b)) met (fuel + 1 < w.heap.budget met + 1)
      (Equality.lists ev (fuel + 1) a b met) := by
  cases a with
  | none =>
    cases b with
    | none => exact ⟨rfl, .scalar rfl rfl rfl⟩
    | some b => exact ⟨rfl, .scalar rfl rfl rfl⟩
  | some a =>
    cases b with
    | none => exact ⟨rfl, .scalar rfl rfl rfl⟩
    | some b =>
      simp only [Decides, Equality.lists]
      -- a pair met before is vouched for; a new one lowers the budget that the fuel has to cover
      split
      · next hmem => exact ⟨rfl, .again rfl rfl rfl (by simpa using hmem)⟩
      · next hmem =>
        have hbudget := Heap.budget_cons (h := w.heap) (l := .list (some a)) (r := .list (some b))
          rfl (ha.held _ .refl) (hb.held _ .refl) (by simpa using hmem)
        simp only [leads_bind, leads_heap]
        refine (ih.value _ _ _ (ha.part (.head a)) (hb.part (.head b))).imp fun r w' hr => ?_
        obtain ⟨rfl, hr⟩ := hr
        rcases r with i | ⟨_ | _, met₁⟩
        · -- a walk cut short lacked the fuel: so did this one
          exact ⟨rfl, by dsimp only at hr; omega⟩
        · exact ⟨rfl, .enter rfl rfl rfl (hr.no fun hlr => hlr.1)⟩
        · simp only [Bool.not_true, Bool.false_eq_true, if_false, leads_bind]
          refine leads_next hev ha fun ra hra hca => ?_
          dsimp only
          refine leads_next hev hb fun rb hrb hcb => ?_
          refine (ih.lists ra rb met₁ hca hcb).imp fun r w' hr' => ?_
          obtain ⟨rfl, hr'⟩ := hr'
          have hle := hr.budget_le
          cases r with
          | error i => exact ⟨rfl, by dsimp only at hr' hle; omega⟩
          | ok answer =>
            refine ⟨rfl, .enter rfl rfl rfl (hr.and (fun hmet => Vouched.mono hmet) ?_)⟩
            exact hr'.congr (by rw [hra]; rfl) (by rw [hrb]; rfl)

/-- So does that of fields. -/
theorem fields_decides {fuel : Nat} (ih : DecidesWith ev w fuel)
    {a b : List (String × Value)} {met : Equality.Met} (ha : ∀ x ∈ a, w.heap.Comparable x.2)
    (hb : ∀ x ∈ b, w.heap.Comparable x.2) (hlength : a.length = b.length) :
    Decides w (FieldsRelated a b) met (fuel + 1 < w.heap.budget met + a.length + 3)
      (Equality.fields ev (fuel + 1) a b met) := by
  match a, b with
  | [], [] =>
    refine ⟨rfl, ⟨List.Subset.refl _, fun _ => ⟨.nil, fun p hp hnot => absurd hp hnot⟩, ?_⟩⟩
    intro hfalse
    cases hfalse
  | (n, v) :: a, (m, u) :: b =>
    simp only [Decides, Equality.fields]
    split
    · next hnm =>
      refine ⟨rfl, ⟨List.Subset.refl _, fun hb => (by cases hb), fun _ hlr => ?_⟩⟩
      cases hlr with
      | cons hxy _ => exact hnm hxy.1
    · next hnm =>
      have hnm : n = m := by simpa using hnm
      rw [leads_bind]
      refine (ih.value v u met (ha _ List.mem_cons_self) (hb _ List.mem_cons_self)).imp
        fun r w' hr => ?_
      obtain ⟨rfl, hr⟩ := hr
      match r with
      | .error i => exact ⟨rfl, by dsimp only at hr; simp only [List.length_cons]; omega⟩
      | .ok (false, met₁) =>
        refine ⟨rfl, hr.no fun hlr => ?_⟩
        cases hlr with
        | cons hxy _ => exact hxy.2
      | .ok (true, met₁) =>
        simp only [if_true]
        refine (ih.fields a b met₁ (fun x hx => ha x (List.mem_cons_of_mem _ hx))
          (fun x hx => hb x (List.mem_cons_of_mem _ hx)) (by simpa using hlength)).imp
          fun r w' hr' => ?_
        obtain ⟨rfl, hr'⟩ := hr'
        -- what was met along the first value is kept, so the budget has only fallen
        have hle := hr.budget_le
        match r with
        | .error i =>
          exact ⟨rfl, by dsimp only at hr' hle; simp only [List.length_cons]; omega⟩
        | .ok answer =>
          refine ⟨rfl, (hr.and (fun hmet => Vouched.mono hmet) hr').iff fun R => ?_⟩
          simp [FieldsRelated, hnm]

/-- Values other than structures are alike if their numbers are equal, where they have no better
reason to be. -/
theorem alike_of_numeric {l r : Value}
    (hunit : l = .unit → r = .unit → False)
    (hbool : ∀ x y, l = .bool x → r = .bool y → False)
    (hchar : ∀ x y, l = .char x → r = .char y → False)
    (hstr : ∀ x y, l = .str x → r = .str y → False)
    (hlist : ∀ x y, l = .list x → r = .list y → False)
    (hfunction : ∀ x y, l = .function x → r = .function y → False)
    (hmodule : ∀ x y, l = .module x → r = .module y → False)
    (htype : ∀ x y, l = .typeInfo x → r = .typeInfo y → False) :
    l.alike r = match l.numeric?, r.numeric? with
      | some a, some b => (a.promote b).order? == some .eq
      | _, _ => false := by
  unfold Value.alike
  split
  · exact (hunit rfl rfl).elim
  · exact (hbool _ _ rfl rfl).elim
  · exact (hchar _ _ rfl rfl).elim
  · exact (hstr _ _ rfl rfl).elim
  · exact (hlist _ _ rfl rfl).elim
  · exact (hfunction _ _ rfl rfl).elim
  · exact (hmodule _ _ rfl rfl).elim
  · exact (htype _ _ rfl rfl).elim
  · rfl

/-- Records are compared by their fields, once for each pair. -/
theorem records_decide {fuel : Nat} (ih : DecidesWith ev w fuel) {a b : Ref .record}
    {met : Equality.Met} (ha : w.heap.Comparable (.record a)) (hb : w.heap.Comparable (.record b)) :
    Decides w (fun R => R (.record a) (.record b)) met (fuel + 1 < w.heap.budget met + 2) (do
      let pair := (Address.node .record a.index, Address.node .record b.index)
      if met.contains pair then return (true, met)
      let h ← Eval.heap
      let a := (h.record a).fields
      let b := (h.record b).fields
      if a.length ≠ b.length then return (false, pair :: met)
      Equality.fields ev fuel a b (pair :: met)) := by
  dsimp only
  split
  · next hmem => exact ⟨rfl, .again rfl rfl rfl (by simpa using hmem)⟩
  · next hmem =>
    have hbudget := Heap.budget_cons (h := w.heap) (l := .record a) (r := .record b)
      rfl (ha.held _ .refl) (hb.held _ .refl) (by simpa using hmem)
    -- the fuel also pays for the walk along the fields, however many there are
    have hwidest := Heap.length_fields_le (ha.held _ .refl)
    simp only [Decides, leads_bind, leads_heap]
    split
    · next hlength =>
      refine ⟨rfl, .enter rfl rfl rfl ⟨List.Subset.refl _, fun hb => (by cases hb), ?_⟩⟩
      exact fun _ hlr => hlength hlr.length_eq
    · next hlength =>
      refine (ih.fields _ _ _ (fun x hx => ha.part (.field hx)) (fun x hx => hb.part (.field hx))
        (by simpa using hlength)).imp fun x w' hx => ?_
      obtain ⟨rfl, hx⟩ := hx
      cases x with
      | ok answer => exact ⟨rfl, .enter rfl rfl rfl hx⟩
      | error i => exact ⟨rfl, by dsimp only at hx; omega⟩

/-- Variants are compared by tag and payload, once for each pair. -/
theorem variants_decide {fuel : Nat} (ih : DecidesWith ev w fuel) {a b : Ref .variant}
    {met : Equality.Met} (ha : w.heap.Comparable (.variant a))
    (hb : w.heap.Comparable (.variant b)) :
    Decides w (fun R => R (.variant a) (.variant b)) met (fuel + 1 < w.heap.budget met + 2) (do
      let pair := (Address.node .variant a.index, Address.node .variant b.index)
      if met.contains pair then return (true, met)
      let h ← Eval.heap
      let a := h.variant a
      let b := h.variant b
      if a.tag.text ≠ b.tag.text then return (false, pair :: met)
      Equality.value ev fuel a.payload b.payload (pair :: met)) := by
  dsimp only
  split
  · next hmem => exact ⟨rfl, .again rfl rfl rfl (by simpa using hmem)⟩
  · next hmem =>
    have hbudget := Heap.budget_cons (h := w.heap) (l := .variant a) (r := .variant b)
      rfl (ha.held _ .refl) (hb.held _ .refl) (by simpa using hmem)
    simp only [Decides, leads_bind, leads_heap]
    split
    · next htag =>
      refine ⟨rfl, .enter rfl rfl rfl ⟨List.Subset.refl _, fun hb => (by cases hb), ?_⟩⟩
      exact fun _ hlr => htag hlr.1
    · next htag =>
      refine (ih.value _ _ _ (ha.part (.payload a)) (hb.part (.payload b))).imp fun x w' hx => ?_
      obtain ⟨rfl, hx⟩ := hx
      cases x with
      | ok answer =>
        refine ⟨rfl, .enter rfl rfl rfl (hx.iff fun R => ?_)⟩
        exact ⟨fun h => ⟨by simpa using htag, h⟩, fun h => h.2⟩
      | error i => exact ⟨rfl, by dsimp only at hx; omega⟩

/-- Values are compared by what they resolve to. -/
theorem value_decides {fuel : Nat} (hev : ev.Reads w) (ih : DecidesWith ev w fuel) {l r : Value}
    {met : Equality.Met} (hl : w.heap.Comparable l) (hr : w.heap.Comparable r) :
    Decides w (fun R => R l r) met (fuel + 1 < w.heap.budget met + 2)
      (Equality.value ev (fuel + 1) l r met) := by
  have hcl := hl.of_reaches (w.heap.reaches_resolve l)
  have hcr := hr.of_reaches (w.heap.reaches_resolve r)
  have hnl := hl.evaluated l .refl
  have hnr := hr.evaluated r .refl
  -- equality looks at what the values resolve to, and these are already forced
  have hresolved {x : Eval (Bool × Equality.Met)} {short : Prop}
      (hx : Decides w (fun R => R (w.heap.resolve l) (w.heap.resolve r)) met short x) :
      Decides w (fun R => R l r) met short x := by
    refine hx.imp fun a w' ha => ⟨ha.1, ?_⟩
    cases a with
    | error i => exact ha.2
    | ok answer =>
      exact ha.2.congr (Heap.resolve_of_not_lazy hnl) (Heap.resolve_of_not_lazy hnr)
  simp only [Equality.value, Decides, leads_bind]
  refine hev l hnl _ (hev r hnr _ (hresolved ?_))
  clear hresolved hl hr
  generalize w.heap.resolve l = l at *
  generalize w.heap.resolve r = r at *
  split
  · exact (hcl.native _ .refl).elim
  · exact (hcr.native _ .refl).elim
  · exact ⟨rfl, .scalar rfl rfl rfl⟩
  · exact ⟨rfl, .scalar rfl rfl rfl⟩
  · exact ⟨rfl, .scalar rfl rfl rfl⟩
  · exact ⟨rfl, .scalar rfl rfl rfl⟩
  · next a b =>
    refine (ih.lists a b met hcl hcr).imp fun x w' hx => ⟨hx.1, ?_⟩
    cases x with
    | ok answer => exact hx.2
    | error i => exact Nat.succ_lt_succ hx.2
  · next a b => exact records_decide ih hcl hcr
  · next a b => exact variants_decide ih hcl hcr
  · exact ⟨rfl, .scalar rfl rfl rfl⟩
  · exact ⟨rfl, .scalar rfl rfl rfl⟩
  · exact ⟨rfl, .scalar rfl rfl rfl⟩
  · next hunit hbool hchar hstr hlist hrecord hvariant hfunction hmodule htype =>
    have halike := alike_of_numeric hunit hbool hchar hstr hlist hfunction hmodule htype
    -- two values of no common kind are compared as numbers, which never enters a pair
    have hpair : pairOf? l r = none := by
      unfold pairOf?
      split
      · exact (hlist _ _ rfl rfl).elim
      · exact (hrecord _ _ rfl rfl).elim
      · exact (hvariant _ _ rfl rfl).elim
      · rfl
    have hv : Verdict w.heap (fun R => R l r) met (l.alike r, met) := .scalar hpair hnl hnr
    rw [halike] at hv
    revert hv
    cases l.numeric? <;> cases r.numeric? <;> exact fun hv => ⟨rfl, hv⟩

/-- With any fuel the comparison decides, unless there is too little. -/
theorem decidesWith (hev : ev.Reads w) (fuel : Nat) : DecidesWith ev w fuel := by
  induction fuel with
  | zero =>
    refine ⟨fun l r met _ _ => ⟨rfl, ?_⟩, fun a b met _ _ _ => ⟨rfl, ?_⟩,
      fun a b met _ _ => ⟨rfl, ?_⟩⟩ <;> dsimp only <;> omega
  | succ fuel ih =>
    exact ⟨fun l r met hl hr => value_decides hev ih hl hr,
      fun a b met ha hb hlength => fields_decides ih ha hb hlength,
      fun a b met ha hb => lists_decides hev ih ha hb⟩

end Comparison

/-- At a level that is high enough, the comparison of two comparable values ends and tells whether
they are bisimilar. -/
theorem engine_equal {w : World} (hlive : w.context.interrupt? = none) {l r : Value}
    (hl : w.heap.Comparable l) (hr : w.heap.Comparable r) {b : Bool}
    (hb : b = true ↔ w.heap.Bisimilar l r) {level : Nat}
    (hlevel : w.heap.thunks.size + w.heap.budget [] + 3 ≤ level) :
    engine level (.equal l r) w = .ok (.bool b) w := by
  obtain ⟨level, rfl⟩ := Nat.exists_eq_succ_of_ne_zero (Nat.ne_zero_of_lt hlevel)
  have hev := force_reads (engine level) hlive level (by omega)
  refine Leads.eq_ok ?_
  simp only [engine, perform, equal, Eval.ensureLive, leads_bind, leads_context, hlive, leads_pure]
  refine ((decidesWith hev level).value l r [] hl hr).imp fun x w' hx => ?_
  obtain ⟨rfl, hx⟩ := hx
  cases x with
  | error i => exact absurd hx (by dsimp only; omega)
  | ok result =>
    obtain ⟨answer, met⟩ := result
    -- the pairs met at the end are a bisimulation if no difference was found, and refute one if it
    -- was
    have hanswer : answer = true ↔ w'.heap.Bisimilar l r := by
      cases answer with
      | false => simpa using hx.refutes rfl
      | true =>
        obtain ⟨hvouched, hexpanded⟩ := hx.sound rfl
        refine iff_of_true rfl ⟨_, bisimulation_vouched fun p hp => ?_, hvouched⟩
        exact hexpanded p hp (by simp)
    rw [Bool.eq_iff_iff.mpr (hanswer.trans hb.symm)]
    exact ⟨rfl, rfl⟩

open Classical in
/-- Equality decides bisimilarity: on a live context the comparison of two values that can be
compared without evaluation ends, with the answer whether they are bisimilar. The answer does not
depend on the order of the two, and on acyclic data it is that of plain recursion. -/
theorem equal_decides_bisimilarity (w : World) (hlive : w.context.interrupt? = none) (l r : Value)
    (hl : w.heap.Comparable l) (hr : w.heap.Comparable r) :
    ∃ b : Bool, (b = true ↔ w.heap.Bisimilar l r) ∧
      (∃ enough, ∀ level, enough ≤ level →
        engine level (.equal l r) w = .ok (.bool b) w ∧
          engine level (.equal r l) w = .ok (.bool b) w) ∧
      (w.heap.Acyclic l →
        ∃ enough, ∀ fuel, enough ≤ fuel → w.heap.plainEqual fuel l r = some b) := by
  have hb : decide (w.heap.Bisimilar l r) = true ↔ w.heap.Bisimilar l r := decide_eq_true_iff
  have hsymm : decide (w.heap.Bisimilar l r) = true ↔ w.heap.Bisimilar r l :=
    hb.trans ⟨Heap.Bisimilar.symm, Heap.Bisimilar.symm⟩
  refine ⟨_, hb, ⟨w.heap.thunks.size + w.heap.budget [] + 3, fun level hlevel => ⟨?_, ?_⟩⟩,
    fun hacyclic => hacyclic.plainEqual_eq hb⟩
  · exact engine_equal hlive hl hr hb hlevel
  · exact engine_equal hlive hr hl hsymm hlevel

/-- A circular list of ones. -/
def circularOnes : Heap where
  cells := #[⟨.int 1, .lazy ⟨0⟩⟩]
  thunks := #[.forced (.list (some ⟨0⟩))]

/-- The circular list is of plain data. -/
theorem circularOnes_comparable : circularOnes.Comparable (.list (some ⟨0⟩)) := by
  refine .of_closed [.list (some ⟨0⟩), .lazy ⟨0⟩, .int 1] ?_ ?_ (by simp)
  · intro v hv u hu
    simp only [List.mem_cons, List.not_mem_nil, or_false] at hv
    rcases hv with rfl | rfl | rfl
    · cases hu <;> simp [circularOnes, Heap.cell]
    · cases hu with
      | memo ht =>
        cases ht
        simp
    · cases hu
  · intro v hv
    simp only [List.mem_cons, List.not_mem_nil, or_false] at hv
    rcases hv with rfl | rfl | rfl
    · exact ⟨Nat.zero_lt_one, rfl, fun c hc => by cases hc; exact ⟨_, rfl⟩, by simp⟩
    · exact ⟨trivial, rfl, by simp, by simp⟩
    · exact ⟨trivial, rfl, by simp, by simp⟩

/-- The circular list can be compared with itself. -/
theorem equal_decides_bisimilarity_circular :
    ∃ b : Bool, (b = true ↔ circularOnes.Bisimilar (.list (some ⟨0⟩)) (.list (some ⟨0⟩))) ∧
      ∃ enough, ∀ level, enough ≤ level →
        engine level (.equal (.list (some ⟨0⟩)) (.list (some ⟨0⟩))) { heap := circularOnes } =
          .ok (.bool b) { heap := circularOnes } :=
  have ⟨b, hb, ⟨enough, henough⟩, _⟩ := equal_decides_bisimilarity { heap := circularOnes } rfl
    (.list (some ⟨0⟩)) (.list (some ⟨0⟩)) circularOnes_comparable circularOnes_comparable
  ⟨b, hb, enough, fun level hlevel => (henough level hlevel).1⟩

end LazyMachine
