import LazyMachine.Proofs.Atoms
import LazyMachine.Proofs.Staged

/-!
# The operations of code work in stages

Every operation that an instruction performs works in stages: it walks along its operands and then
makes its result, which fits the store like the operands. Loops descend in the store, so the fuel
lasts if there is as much of it as the heap has objects and fields.
-/

namespace LazyMachine.Regime

variable {p : Program} {c : Regime p} {s : Store p}

/-! ### Lists -/

section Lists

variable {list : Option (Ref .cell)}

/-- The rest of a list is under it. -/
theorem Walk.next {r : Ref .cell} (hr : c.Fits s (.list (some r))) :
    c.Walk s (Spine.next c.evaluator r) fun s' rest => s'.Under (.list rest) (.list (some r)) := by
  refine .look (fun s' hs' => by rw [hs'.cell_eq hr]) ?_
  have htail := Store.under_cell hr (.inr rfl)
  refine (Walk.force (htail.fits hr)).andThen fun s' u hs' hu => ?_
  have hunder := hu.of_under (hs'.under hr htail)
  split
  · exact .pure fun s'' hs'' => hs''.under (hs'.fits hr) hunder
  · exact .fail _

/-- The fuel that is left when a loop descends. -/
theorem Allows.under {s' : Store p} {u v : Value} {n : Nat}
    (hn : c.Allows s (·.demand v) (n + 1)) (hs : s.Later s') (hv : c.Fits s' v)
    (hu : s'.Under u v) : c.Allows s' (·.demand u) n := by
  intro s'' hs'' henough
  have hle : s''.demand v ≤ n + 1 := hn s'' (hs.trans hs'') henough
  have hlt := (hs''.under hv hu).demand_le (hs''.fits hv)
  exact (by omega : s''.demand u ≤ n)

/-- Gathering the items of a list is a walk if the fuel is enough for the list. -/
theorem Walk.collectFrom {n : Nat} {gathered : List Value} (hlist : c.Fits s (.list list))
    (hgathered : ∀ v ∈ gathered, c.Fits s v)
    (hn : c.Allows s (·.demand (.list list)) n) :
    c.Walk s (Spine.collectFrom c.evaluator n list gathered) fun s' vs =>
      ∀ v ∈ vs, c.Fits s' v := by
  induction n generalizing s list gathered with
  | zero => exact .cut (fun s' => s'.demand_pos _) hn
  | succ n ih =>
    cases list with
    | none =>
      refine .pure fun s' hs' v hv => hs'.fits (hgathered v ?_)
      exact List.mem_reverse.mp hv
    | some r =>
      refine .look (fun s' hs' => by rw [hs'.cell_eq hlist]) ?_
      refine (Walk.next hlist).andThen fun s' rest hs' hrest => ?_
      have hlist' : c.Fits s' (.list (some r)) := hs'.fits hlist
      refine ih (hrest.fits hlist') ?_ (hn.under hs' hlist' hrest)
      intro v hv
      rcases List.mem_cons.mp hv with rfl | hv
      · exact hs'.fits ((Store.under_cell hlist (.inl rfl)).fits hlist)
      · exact hs'.fits (hgathered v hv)

/-- The fuel of the operations is enough for a loop that descends. -/
theorem allows_fuel (s : Store p) (v : Value) : c.Allows s (·.demand v) c.fuel :=
  fun s' _ henough => (s'.demand_le v).trans henough.1

/-- Gathering all items of a list is a walk. -/
theorem Walk.collect (hlist : c.Fits s (.list list)) :
    c.Walk s (Spine.collect c.evaluator list) fun s' vs => ∀ v ∈ vs, c.Fits s' v :=
  Walk.collectFrom hlist (by simp) (allows_fuel s _)

/-- Counting the items of a list is a walk if the fuel is enough for the list. -/
theorem Walk.lengthFrom {n counted : Nat} (hlist : c.Fits s (.list list))
    (hn : c.Allows s (·.demand (.list list)) n) :
    c.Walk s (Spine.lengthFrom c.evaluator n list counted) fun _ _ => True := by
  induction n generalizing s list counted with
  | zero => exact .cut (fun s' => s'.demand_pos _) hn
  | succ n ih =>
    cases list with
    | none => exact .pure fun _ _ => trivial
    | some r =>
      refine (Walk.next hlist).andThen fun s' rest hs' hrest => ?_
      have hlist' : c.Fits s' (.list (some r)) := hs'.fits hlist
      exact ih (hrest.fits hlist') (hn.under hs' hlist' hrest)

/-- Going to a position of a list is a walk. -/
theorem Walk.nth (i : Nat) (hlist : c.Fits s (.list list)) :
    c.Walk s (Spine.nth c.evaluator i list) fun s' found => ∀ v ∈ found, c.Fits s' v := by
  induction i generalizing s list with
  | zero =>
    cases list with
    | none => exact .pure fun _ _ => by simp
    | some r =>
      refine .look (fun s' hs' => by rw [hs'.cell_eq hlist]) (.pure fun s' hs' v hv => ?_)
      cases hv
      exact hs'.fits ((Store.under_cell hlist (.inl rfl)).fits hlist)
  | succ i ih =>
    cases list with
    | none => exact .pure fun _ _ => by simp
    | some r =>
      refine (Walk.next hlist).andThen fun s' rest hs' hrest => ?_
      exact ih (hrest.fits (hs'.fits hlist))

/-- The cells before the position are made once the walk has reached it. -/
theorem Staged.setNth {item : Value} (i : Nat) (hitem : c.Fits s item)
    (hlist : c.Fits s (.list list)) :
    c.Staged s (Spine.setNth c.evaluator item i list) fun s' updated =>
      c.Fits s' (.list updated) := by
  induction i generalizing s list with
  | zero =>
    cases list with
    | none => exact Prompt.staged fun _ _ => .pure (.scalar rfl rfl)
    | some r =>
      refine Prompt.staged fun s' hs' => .look ?_
      have hlist' : c.Fits s' (.list (some r)) := hs'.fits hlist
      refine (Prompt.makeCell (hs'.fits hitem) ?_).bind fun _ _ _ h => .pure h
      exact (Store.under_cell hlist' (.inr rfl)).fits hlist'
  | succ i ih =>
    cases list with
    | none => exact Prompt.staged fun _ _ => .pure (.scalar rfl rfl)
    | some r =>
      have hhead := (Store.under_cell hlist (.inl rfl)).fits hlist
      refine .look (fun s' hs' => by rw [hs'.cell_eq hlist]) ?_
      refine (Walk.next hlist).bind fun s' rest hs' hrest => ?_
      -- the cell in front is made only once the rest has been updated
      refine (ih (hs'.fits hitem) (hrest.fits (hs'.fits hlist))).bind fun s'' updated hs'' h => ?_
      cases updated with
      | none => exact .pure h
      | some updated =>
        refine (Prompt.makeCell (hs''.fits (hs'.fits hhead)) h).bind fun _ _ _ h => .pure h

end Lists

/-! ### Keys -/

/-- The value is one that a container may be indexed with. -/
def IsKey : Value → Prop
  | .int _ | .long _ | .str _ => True
  | _ => False

/-- An ordinal is a key. -/
theorem isKey_of_ordinal? {key : Value} {i : Int} (hi : ordinal? key = some i) : IsKey key := by
  cases key <;> trivial

/-- A string is a key. -/
theorem isKey_str (text : Str) : IsKey (.str text) := trivial

/-- A key is shown without a walk, the same on every world. -/
theorem exists_display (hfuel : 0 < c.fuel) {key : Value} (hkey : IsKey key) :
    ∃ text, ∀ w, display c.evaluator key w = .ok text w := by
  obtain ⟨fuel, hfuel⟩ := Nat.exists_eq_succ_of_ne_zero (Nat.ne_of_gt hfuel)
  have hevaluator : c.evaluator = ⟨fuel + 1, LazyMachine.force c.engine (fuel + 1), c.engine⟩ := by
    rw [evaluator, hfuel]
  rw [hevaluator]
  cases key with
  | int i => exact ⟨_, fun w => rfl⟩
  | long i => exact ⟨_, fun w => rfl⟩
  | str text => exact ⟨_, fun w => rfl⟩
  | _ => exact hkey.elim

/-- A missing entry is reported promptly. -/
theorem Prompt.indexOutOfRange {α : Type} {P : Store p → α → Prop} (hfuel : 0 < c.fuel)
    (container : Value) {key : Value} (hkey : IsKey key) :
    c.Prompt s (indexOutOfRange c.evaluator container key) P := by
  obtain ⟨text, htext⟩ := exists_display hfuel hkey
  refine .inr ⟨.indexOutOfRange container.typeName text key.typeName, s, .refl s, fun w hw => ?_⟩
  rw [LazyMachine.indexOutOfRange, bind_ok (htext w), ← hw.heap]

/-! ### Structures

Equality and rendering walk through structures alike: from a value to the fields of a record, one
after the other, and along the spine of a list. -/

section Structures

variable {n : Nat}

/-- The fuel for walking along a list, once it is known to be one. -/
def spineDemand (list : Option (Ref .cell)) (s : Store p) : Nat :=
  s.demand (.list list) - s.heap.widest - 2

/-- A walk along a list takes some fuel. -/
theorem spineDemand_pos (list : Option (Ref .cell)) (s : Store p) : 0 < spineDemand list s := by
  have hwidest := s.widest_le_demand (.list list)
  unfold spineDemand
  omega

/-- Fuel for a list and one step is enough for its spine. -/
theorem Allows.spine {list : Option (Ref .cell)} (hn : c.Allows s (·.demand (.list list)) (n + 1)) :
    c.Allows s (spineDemand list) n := by
  intro s' hs' henough
  have hdemand : s'.demand (.list list) ≤ n + 1 := hn s' hs' henough
  unfold spineDemand
  omega

/-- The fuel that is left for the head and the rest of a list. -/
theorem Allows.cell {r : Ref .cell} (hr : c.Fits s (.list (some r)))
    (hn : c.Allows s (spineDemand (some r)) (n + 1)) {s' : Store p} (hs : s.Later s') {u : Value}
    (hu : s'.Under u (.list (some r))) : c.Allows s' (·.demand u) n := by
  intro s'' hs'' henough
  have hr' : c.Fits s' (.list (some r)) := hs.fits hr
  have hdemand : s''.demand (.list (some r)) - s''.heap.widest - 2 ≤ n + 1 :=
    hn s'' (hs.trans hs'') henough
  have hlt := (hs''.under hr' hu).demand_le (hs''.fits hr')
  show s''.demand u ≤ n
  omega

/-- Fuel for a list is enough for its spine. -/
theorem Allows.rest {list : Option (Ref .cell)} (hn : c.Allows s (·.demand (.list list)) n) :
    c.Allows s (spineDemand list) n := by
  intro s' hs' henough
  have hdemand : s'.demand (.list list) ≤ n := hn s' hs' henough
  unfold spineDemand
  omega

/-- The fuel is enough for a list of fields. -/
structure AllowsFields (c : Regime p) (s : Store p) (fields : List (String × Value)) (n : Nat) :
    Prop where
  length : c.Allows s (fun _ => fields.length + 1) n
  values : ∀ x ∈ fields, c.Allows s (fun s' => s'.demand x.2 + fields.length) n

/-- Fuel for a record and one step is enough for its fields. -/
theorem Allows.fields {r : Ref .record} (hr : c.Fits s (.record r))
    (hn : c.Allows s (·.demand (.record r)) (n + 1)) :
    c.AllowsFields s (s.heap.record r).fields n := by
  have hlength (s' : Store p) (hs' : s.Later s') :
      (s.heap.record r).fields.length ≤ s'.heap.widest := by
    rw [← hs'.record_eq hr]
    exact s'.length_fields_le (hs'.fits hr)
  refine ⟨fun s' hs' henough => ?_, fun x hx s' hs' henough => ?_⟩
  · have hdemand : s'.demand (.record r) ≤ n + 1 := hn s' hs' henough
    have hwidest := s'.widest_le_demand (.record r)
    have hlength := hlength s' hs'
    show (s.heap.record r).fields.length + 1 ≤ n
    omega
  · have hdemand : s'.demand (.record r) ≤ n + 1 := hn s' hs' henough
    have hlength := hlength s' hs'
    have hlt := (hs'.under hr (Store.under_record hr hx)).demand_le (hs'.fits hr)
    show s'.demand x.2 + (s.heap.record r).fields.length ≤ n
    omega

/-- Fuel for fields is enough for the first of them. -/
theorem AllowsFields.head {name : String} {v : Value} {rest : List (String × Value)}
    (hn : c.AllowsFields s ((name, v) :: rest) (n + 1)) : c.Allows s (·.demand v) n := by
  intro s' hs' henough
  have hdemand : s'.demand v + (rest.length + 1) ≤ n + 1 :=
    hn.values (name, v) List.mem_cons_self s' hs' henough
  show s'.demand v ≤ n
  omega

/-- Fuel for fields is enough for the others, also later. -/
theorem AllowsFields.rest {x : String × Value} {rest : List (String × Value)}
    (hn : c.AllowsFields s (x :: rest) (n + 1)) {s' : Store p} (hs : s.Later s') :
    c.AllowsFields s' rest n where
  length s'' hs'' henough := Nat.le_of_succ_le_succ (hn.length s'' (hs.trans hs'') henough)
  values y hy s'' hs'' henough :=
    Nat.le_of_succ_le_succ (hn.values y (List.mem_cons_of_mem x hy) s'' (hs.trans hs'') henough)

/-- The fields of a record fit if the record does. -/
theorem fits_fields {r : Ref .record} (hr : c.Fits s (.record r)) :
    ∀ x ∈ (s.heap.record r).fields, c.Fits s x.2 :=
  fun _ hx => (Store.under_record hr hx).fits hr

end Structures

/-! ### Equality -/

/-- The walks of equality with an amount of fuel. -/
structure EqualityWalks (c : Regime p) (n : Nat) : Prop where
  value : ∀ s l r met, c.Fits s l → c.Fits s r → c.Allows s (·.demand l) n →
    c.Walk s (Equality.value c.evaluator n l r met) fun _ _ => True
  fields : ∀ s a b met, (∀ x ∈ a, c.Fits s x.2) → (∀ x ∈ b, c.Fits s x.2) →
    c.AllowsFields s a n → c.Walk s (Equality.fields c.evaluator n a b met) fun _ _ => True
  lists : ∀ s a b met, c.Fits s (.list a) → c.Fits s (.list b) →
    c.Allows s (spineDemand a) n → c.Walk s (Equality.lists c.evaluator n a b met) fun _ _ => True

/-- Without fuel there is nothing that the fuel would be enough for. -/
theorem EqualityWalks.zero : c.EqualityWalks 0 where
  value _ l _ _ _ _ hn := .cut (fun s' => s'.demand_pos l) hn
  fields _ _ _ _ _ _ hn := .cut (fun _ => Nat.succ_pos _) hn.length
  lists _ a _ _ _ _ hn := .cut (spineDemand_pos a) hn

/-- Comparisons are walks if those of the parts are with less fuel. -/
theorem EqualityWalks.succ {n : Nat} (ih : c.EqualityWalks n) : c.EqualityWalks (n + 1) where
  value s l r met hl hr hn := by
    simp only [Equality.value]
    refine (Walk.force hl).andThen fun s₁ l' hs₁ hl' => ?_
    refine (Walk.force (hs₁.fits hr)).andThen fun s₂ r' hs₂ hr' => ?_
    have hfits : c.Fits s₂ l' := hs₂.fits hl'.fits
    have hn' := (hl'.allows hs₁ hl hn).later hs₂
    -- scalars are settled by what is read: only pairs of the same compound kind go on
    split
    all_goals try exact .pure fun _ _ => trivial
    · exact ih.lists s₂ _ _ met hfits hr'.fits hn'.spine
    · split
      · exact .pure fun _ _ => trivial
      · refine .look (fun s' hs' => by rw [hs'.record_eq hfits, hs'.record_eq hr'.fits]) ?_
        split
        · exact .pure fun _ _ => trivial
        · exact ih.fields s₂ _ _ _ (fits_fields hfits) (fits_fields hr'.fits) (hn'.fields hfits)
    · split
      · exact .pure fun _ _ => trivial
      · refine .look (fun s' hs' => by rw [hs'.variant_eq hfits, hs'.variant_eq hr'.fits]) ?_
        split
        · exact .pure fun _ _ => trivial
        · have ha := Store.under_variant hfits
          exact ih.value s₂ _ _ _ (ha.fits hfits)
            ((Store.under_variant hr'.fits).fits hr'.fits) (hn'.under (.refl s₂) hfits ha)
    · split
      · exact .pure fun _ _ => trivial
      · exact .pure fun _ _ => trivial
  fields s a b met ha hb hn := by
    rcases a with _ | ⟨⟨name, v⟩, a⟩
    · simp only [Equality.fields]
      exact .pure fun _ _ => trivial
    · rcases b with _ | ⟨⟨name', u⟩, b⟩
      · simp only [Equality.fields]
        exact .pure fun _ _ => trivial
      · simp only [Equality.fields]
        split
        · exact .pure fun _ _ => trivial
        · refine (ih.value s v u met (ha _ List.mem_cons_self) (hb _ List.mem_cons_self)
            hn.head).andThen fun s' outcome hs' _ => ?_
          split
          · exact ih.fields s' a b _ (fun x hx => hs'.fits (ha x (List.mem_cons_of_mem _ hx)))
              (fun x hx => hs'.fits (hb x (List.mem_cons_of_mem _ hx))) (hn.rest hs')
          · exact .pure fun _ _ => trivial
  lists s a b met ha hb hn := by
    rcases a with _ | a <;> rcases b with _ | b <;> simp only [Equality.lists]
    · exact .pure fun _ _ => trivial
    · exact .pure fun _ _ => trivial
    · exact .pure fun _ _ => trivial
    · split
      · exact .pure fun _ _ => trivial
      · have hhead := Store.under_cell ha (.inl rfl)
        refine .look (fun s' hs' => by rw [hs'.cell_eq ha, hs'.cell_eq hb]) ?_
        refine (ih.value s _ _ _ (hhead.fits ha) ((Store.under_cell hb (.inl rfl)).fits hb)
          (hn.cell ha (.refl s) hhead)).andThen fun s₁ outcome hs₁ _ => ?_
        split
        · exact .pure fun _ _ => trivial
        · refine (Walk.next (hs₁.fits ha)).andThen fun s₂ a' hs₂ ha' => ?_
          have hs₂' := hs₁.trans hs₂
          refine (Walk.next (hs₂'.fits hb)).andThen fun s₃ b' hs₃ hb' => ?_
          exact ih.lists s₃ a' b' _ (hs₃.fits (ha'.fits (hs₂'.fits ha)))
            (hb'.fits ((hs₂'.trans hs₃).fits hb)) ((hn.cell ha hs₂' ha').rest.later hs₃)

/-- Comparisons are walks with every amount of fuel that is enough. -/
theorem equalityWalks (n : Nat) : c.EqualityWalks n := by
  induction n with
  | zero => exact .zero
  | succ n ih => exact ih.succ

/-- A comparison for equality is a walk. -/
theorem Walk.equal {l r : Value} (hl : c.Fits s l) (hr : c.Fits s r) :
    c.Walk s (equal c.evaluator l r) fun _ _ => True := by
  refine Walk.live.andThen fun s₁ _ hs₁ _ => ?_
  refine ((equalityWalks c.fuel).value s₁ l r [] (hs₁.fits hl) (hs₁.fits hr)
    (allows_fuel s₁ l)).andThen fun _ _ _ _ => ?_
  exact .pure fun _ _ => trivial

/-! ### Arithmetic and comparison -/

section Arithmetic

/-- An atom fits every store. -/
theorem fits_of_isAtom {v : Value} (hv : v.isAtom = true) : c.Fits s v := by
  cases v <;> first | exact .scalar rfl rfl | cases hv

/-- Arithmetic comes to its result promptly. -/
theorem Prompt.arithmetic (op : BinaryOp) (a : Numeric.Arith) (l r : Value) :
    c.Prompt s (arithmetic op a l r) c.Fits := by
  unfold LazyMachine.arithmetic
  split
  · dsimp only
    split
    · exact .fail _
    · exact .pure (fits_of_isAtom (Value.isAtom_ofNumeric _))
  · exact .fail _

/-- Bitwise operations come to their results promptly. -/
theorem Prompt.bitwise (op : BinaryOp) (b : Numeric.Bitwise) (l r : Value) :
    c.Prompt s (bitwise op b l r) c.Fits := by
  unfold LazyMachine.bitwise
  split
  · split
    · exact .pure (fits_of_isAtom (Value.isAtom_ofNumeric _))
    · exact .fail _
  · exact .fail _

/-- Orderings are decided promptly. -/
theorem Prompt.ordering (op : BinaryOp) (l r : Value) :
    c.Prompt s (ordering op l r) fun _ _ => True := by
  unfold LazyMachine.ordering
  split
  · exact .pure trivial
  · exact .pure trivial
  · exact .pure trivial
  · split
    · exact .pure trivial
    · exact .fail _

/-- Both operands are forced, and then something is made of them. -/
theorem Staged.forceBoth {l r : Value} {f : Value → Value → Eval Value} (hl : c.Fits s l)
    (hr : c.Fits s r)
    (hf : ∀ s' l' r', c.Fits s' l' → c.Fits s' r' → c.Staged s' (f l' r') c.Fits) :
    c.Staged s (c.evaluator.force l >>= fun l => c.evaluator.force r >>= fun r => f l r) c.Fits :=
  (Walk.force hl).bind fun _ l' hs₁ hl' => (Walk.force (hs₁.fits hr)).bind fun s₂ r' hs₂ hr' =>
    hf s₂ l' r' (hs₂.fits hl'.fits) hr'.fits

/-- Comparisons are staged. -/
theorem Staged.relation (op : BinaryOp) {l r : Value} (hl : c.Fits s l) (hr : c.Fits s r) :
    c.Staged s (relation c.evaluator op l r) c.Fits := by
  unfold LazyMachine.relation
  split
  · exact (Walk.equal hl hr).bind fun _ _ _ _ => Prompt.staged fun _ _ => .pure (.scalar rfl rfl)
  · exact (Walk.equal hl hr).bind fun _ _ _ _ => Prompt.staged fun _ _ => .pure (.scalar rfl rfl)
  · refine .forceBoth hl hr fun s' l' r' hl' hr' => Prompt.staged fun s'' _ => ?_
    split
    · exact absurd hl'.internal (by simp [Value.isExternal])
    · exact absurd hr'.internal (by simp [Value.isExternal])
    · refine (Prompt.ordering op l' r').bind fun _ order _ _ => ?_
      split
      · exact .pure (.scalar rfl rfl)
      · exact .fail _

/-- Unary operations are staged. -/
theorem Staged.unary (op : UnaryOp) {v : Value} (hv : c.Fits s v) :
    c.Staged s (unary c.evaluator op v) c.Fits := by
  refine (Walk.force hv).bind fun s' u _ hu => Prompt.staged fun s'' _ => ?_
  split
  · exact absurd hu.fits.internal (by simp [Value.isExternal])
  · exact .pure (.scalar rfl rfl)
  · split
    · exact .pure (.scalar rfl rfl)
    · exact .fail _
  · split
    · exact .pure (.scalar rfl rfl)
    · exact .fail _
  · split
    · exact .pure (fits_of_isAtom (Value.isAtom_ofNumeric _))
    · exact .fail _

end Arithmetic

/-! ### Containers and sequences -/

section Sequences

variable {v : Value}

/-- Lengths are staged. -/
theorem Staged.length (hv : c.Fits s v) : c.Staged s (length c.evaluator v) c.Fits := by
  refine (Walk.force hv).bind fun s' u _ hu => ?_
  split
  · exact Prompt.staged fun _ _ => .pure (fits_of_isAtom (isAtom_countValue _))
  · refine (Walk.lengthFrom hu.fits (allows_fuel s' _)).bind fun _ _ _ _ => ?_
    exact Prompt.staged fun _ _ => .pure (fits_of_isAtom (isAtom_countValue _))
  · exact Prompt.staged fun _ _ => .look (.pure (fits_of_isAtom (isAtom_countValue _)))
  · exact absurd hu.fits.internal (by simp [Value.isExternal])
  · exact absurd hu.fits.internal (by simp [Value.isExternal])
  · exact Prompt.staged fun _ _ => .fail _

/-- An entry or the report of its absence is found promptly. -/
theorem Prompt.foundAt (hfuel : 0 < c.fuel) (container : Value) {key : Value} (hkey : IsKey key)
    {found : Option Value} (hfound : ∀ v ∈ found, c.Fits s v) :
    c.Prompt s (foundAt c.evaluator container key found) c.Fits := by
  cases found with
  | some v => exact .pure (hfound v rfl)
  | none => exact .indexOutOfRange hfuel container hkey

/-- An entry of a record. -/
theorem Prompt.field (hfuel : 0 < c.fuel) {r : Ref .record} (hr : c.Fits s (.record r))
    (key : Value) :
    c.Prompt s (match key with
      | .str text =>
        LazyMachine.foundAt c.evaluator (.record r) key ((s.heap.record r).get? text.text)
      | _ =>
        match ordinal? key with
        | some i =>
          LazyMachine.foundAt c.evaluator (.record r) key ((position? i).bind (s.heap.record r).at?)
        | none => invalidIndexType (.record r) key) c.Fits := by
  have hfield (x : String × Value) (hx : x ∈ (s.heap.record r).fields) : c.Fits s x.2 :=
    (Store.under_record hr hx).fits hr
  split
  · refine .foundAt hfuel _ (isKey_str _) fun u hu => ?_
    obtain ⟨x, hx, rfl⟩ := Option.map_eq_some_iff.mp hu
    exact hfield x (List.mem_of_find?_eq_some hx)
  · split
    · next i hi =>
      refine .foundAt hfuel _ (isKey_of_ordinal? hi) fun u hu => ?_
      obtain ⟨j, -, hj⟩ := Option.bind_eq_some_iff.mp hu
      obtain ⟨x, hx, rfl⟩ := Option.map_eq_some_iff.mp hj
      exact hfield x (List.mem_of_getElem? hx)
    · exact .fail _

/-- Lookups are staged. -/
theorem Staged.get {key : Value} (hv : c.Fits s v) (hkey : c.Fits s key) :
    c.Staged s (getValue c.evaluator v key) c.Fits := by
  refine (Walk.force hv).bind fun s₁ container hs₁ hcontainer => ?_
  refine (Walk.force (hs₁.fits hkey)).bind fun s₂ key hs₂ hkey => ?_
  have hfuel := hkey.fueled
  have hcontainer : c.Fits s₂ container := hs₂.fits hcontainer.fits
  split
  -- a text, a list, a record; modules and foreign values fit no store
  · split
    · exact Prompt.staged fun _ _ => .fail _
    · next i hi =>
      refine Prompt.staged fun _ _ => .foundAt hfuel _ (isKey_of_ordinal? hi) fun u hu => ?_
      obtain ⟨j, -, hj⟩ := Option.bind_eq_some_iff.mp hu
      obtain ⟨ch, -, rfl⟩ := Option.map_eq_some_iff.mp hj
      exact .scalar rfl rfl
  · split
    · exact Prompt.staged fun _ _ => .fail _
    · next i hi =>
      split
      · refine (Walk.nth _ hcontainer).staged.bind fun s' found _ hfound => ?_
        exact .foundAt hfuel _ (isKey_of_ordinal? hi) hfound
      · exact Prompt.staged fun _ _ => .indexOutOfRange hfuel _ (isKey_of_ordinal? hi)
  · exact Prompt.staged fun _ hs' => .look (.field hfuel (hs'.fits hcontainer) key)
  · exact absurd hcontainer.internal (by simp [Value.isExternal])
  · exact absurd hcontainer.internal (by simp [Value.isExternal])
  · exact Prompt.staged fun _ _ => .fail _

/-- The record with a field replaced, unless there is no such field. -/
theorem Prompt.update (hfuel : 0 < c.fuel) {r : Ref .record} {key item : Value} (hkey : IsKey key)
    (hr : c.Fits s (.record r)) (hitem : c.Fits s item) (i : Option Nat) :
    c.Prompt s (match i.bind fun i => (s.heap.record r).setAt? i item with
      | some updated => Eval.makeRecord updated
      | none => LazyMachine.indexOutOfRange c.evaluator (.record r) key) c.Fits := by
  split
  · next updated hupdated =>
    refine .makeRecord fun x hx => ?_
    obtain ⟨j, -, hj⟩ := Option.bind_eq_some_iff.mp hupdated
    unfold Record.setAt? at hj
    split at hj
    · cases hj
      rcases List.mem_or_eq_of_mem_set hx with hx | rfl
      · exact (Store.under_record hr hx).fits hr
      · exact hitem
    · cases hj
  · exact .indexOutOfRange hfuel _ hkey

/-- Replacements are staged. -/
theorem Staged.set {key item : Value} (hv : c.Fits s v) (hkey : c.Fits s key)
    (hitem : c.Fits s item) : c.Staged s (setValue c.evaluator v key item) c.Fits := by
  refine (Walk.force hv).bind fun s₁ container hs₁ hcontainer => ?_
  refine (Walk.force (hs₁.fits hkey)).bind fun s₂ key hs₂ hkey => ?_
  have hfuel := hkey.fueled
  have hcontainer : c.Fits s₂ container := hs₂.fits hcontainer.fits
  have hitem : c.Fits s₂ item := hs₂.fits (hs₁.fits hitem)
  split
  · refine Prompt.staged fun s' hs' => .look ?_
    have hcontainer' := hs'.fits hcontainer
    have hitem' := hs'.fits hitem
    dsimp only
    split
    · exact .update hfuel (isKey_str _) hcontainer' hitem' _
    · split
      · next i hi => exact .update hfuel (isKey_of_ordinal? hi) hcontainer' hitem' _
      · exact .fail _
  · split
    · exact Prompt.staged fun _ _ => .fail _
    · next i hi =>
      split
      · exact Prompt.staged fun _ _ => .indexOutOfRange hfuel _ (isKey_of_ordinal? hi)
      · refine (Staged.setNth _ hitem hcontainer).bind fun s' updated hs' hupdated => ?_
        split
        · exact .pure hupdated
        · exact .indexOutOfRange hfuel _ (isKey_of_ordinal? hi)
  · exact Prompt.staged fun _ _ => .fail _

/-- The head is staged. -/
theorem Staged.head (hv : c.Fits s v) : c.Staged s (head c.evaluator v) c.Fits := by
  refine (Walk.force hv).bind fun s' u _ hu => Prompt.staged fun s'' hs'' => ?_
  split
  · refine .look (.pure ?_)
    exact (Store.under_cell (hs''.fits hu.fits) (.inl rfl)).fits (hs''.fits hu.fits)
  · split
    · exact .pure (.scalar rfl rfl)
    · exact .fail _
  · exact .fail _

/-- The tail is staged. -/
theorem Staged.tail (hv : c.Fits s v) : c.Staged s (tail c.evaluator v) c.Fits := by
  refine (Walk.force hv).bind fun s' u _ hu => Prompt.staged fun s'' hs'' => ?_
  split
  · refine .look (.pure ?_)
    exact (Store.under_cell (hs''.fits hu.fits) (.inr rfl)).fits (hs''.fits hu.fits)
  · split
    · exact .makeStr _
    · exact .fail _
  · exact .fail _

/-- The test for emptiness is a walk. -/
theorem Walk.isNil (hv : c.Fits s v) : c.Walk s (isNil c.evaluator v) fun _ _ => True := by
  refine (Walk.force hv).andThen fun s' u _ hu => ?_
  split
  · exact .pure fun _ _ => trivial
  · exact .pure fun _ _ => trivial
  · exact .fail _

/-- The empty sequence of a kind is staged. -/
theorem Staged.nilOf (hv : c.Fits s v) : c.Staged s (nilOf c.evaluator v) c.Fits := by
  refine (Walk.force hv).bind fun s' u _ hu => Prompt.staged fun s'' hs'' => ?_
  split
  · exact .pure (.scalar rfl rfl)
  · exact .makeStr _
  · exact .makeRecord (by simp)
  · exact .fail _

/-- The tag is staged. -/
theorem Staged.tagOf (hv : c.Fits s v) : c.Staged s (tagOf c.evaluator v) c.Fits := by
  refine (Walk.force hv).bind fun s' u _ hu => Prompt.staged fun s'' hs'' => ?_
  split
  · exact .look (.pure (.scalar rfl rfl))
  · exact .fail _

/-- The payload is staged. -/
theorem Staged.untag (hv : c.Fits s v) : c.Staged s (untag c.evaluator v) c.Fits := by
  refine (Walk.force hv).bind fun s' u _ hu => Prompt.staged fun s'' hs'' => ?_
  split
  · exact .look (.pure ((Store.under_variant (hs''.fits hu.fits)).fits (hs''.fits hu.fits)))
  · exact .fail _

end Sequences

/-! ### Operators -/

section Operators

variable {l r : Value}

/-- Following memos comes to an end promptly. -/
theorem Prompt.resolve {v : Value} (hv : c.Fits s v) : c.Prompt s (Eval.resolve v) c.Fits := by
  refine .look ?_
  dsimp only
  rw [s.resolve?_eq hv]
  refine .pure ?_
  rcases s.resolve_cases hv with ⟨-, hfits⟩ | ⟨t, -, heq, -⟩
  · exact hfits
  · rw [heq]
    exact hv

/-- Nothing is forced, so what is found behind the tail is the same in both modes. -/
theorem Prompt.cons (hl : c.Fits s l) (hr : c.Fits s r) :
    c.Prompt s (cons c.evaluator l r) c.Fits := by
  refine Prompt.live.bind fun s₁ _ hs₁ _ => ?_
  refine (Prompt.resolve (hs₁.fits hr)).bind fun s₂ u hs₂ hu => ?_
  have hs := hs₁.trans hs₂
  split
  · exact (Prompt.makeCell (hs.fits hl) hu).bind fun _ _ _ h => .pure h
  · exact (Prompt.makeCell (hs.fits hl) (hs.fits hr)).bind fun _ _ _ h => .pure h
  · refine (Prompt.resolve (hs.fits hl)).bind fun s₃ ch _ _ => ?_
    split
    · exact .makeStr _
    · exact .fail _
  · exact absurd hu.internal (by simp [Value.isExternal])
  · exact .fail _

/-- Concatenations are staged. -/
theorem Staged.concat (hl : c.Fits s l) (hr : c.Fits s r) :
    c.Staged s (concat c.evaluator l r) c.Fits := by
  unfold LazyMachine.concat
  split
  · exact Prompt.staged fun _ _ => .makeStr _
  · exact Prompt.staged fun _ _ => .makeStr _
  · exact Prompt.staged fun _ _ => .makeStr _
  · exact Prompt.staged fun _ _ => .makeStr _
  · exact Prompt.staged fun _ hs' => .pure (hs'.fits hl)
  · refine (Walk.collect hl).staged.bind fun s' items hs' hitems => ?_
    exact (Prompt.prepend hitems (hs'.fits hr)).bind fun _ _ _ h => .pure h
  · refine Prompt.staged fun s' hs' => .look (.makeRecord fun x hx => ?_)
    have hl : c.Fits s' _ := hs'.fits hl
    have hr : c.Fits s' _ := hs'.fits hr
    rcases List.mem_append.mp hx with hx | hx
    · exact (Store.under_record hl hx).fits hl
    · exact (Store.under_record hr hx).fits hr
  · exact Prompt.staged fun _ _ => .fail _

/-- What is done with two operands that have been forced. -/
theorem Staged.operands (op : BinaryOp) (hl : c.Fits s l) (hr : c.Fits s r) :
    c.Staged s (match l, r with
      | .foreign f, _ => Embedding.binary c.evaluator f op l r
      | _, .foreign f => Embedding.binary c.evaluator f op l r
      | _, _ =>
        match op.arith?, op.bitwise? with
        | some a, _ => arithmetic op a l r
        | none, some b => bitwise op b l r
        | none, none => LazyMachine.concat c.evaluator l r) c.Fits := by
  split
  · exact absurd hl.internal (by simp [Value.isExternal])
  · exact absurd hr.internal (by simp [Value.isExternal])
  · split
    · exact Prompt.staged fun _ _ => .arithmetic _ _ _ _
    · exact Prompt.staged fun _ _ => .bitwise _ _ _ _
    · exact .concat hl hr

/-- Binary operations are staged. -/
theorem Staged.binary (op : BinaryOp) (hl : c.Fits s l) (hr : c.Fits s r) :
    c.Staged s (binary c.evaluator op l r) c.Fits := by
  refine Walk.live.bind fun s' _ hs' _ => ?_
  have hl : c.Fits s' l := hs'.fits hl
  have hr : c.Fits s' r := hs'.fits hr
  cases op with
  | cons => exact Prompt.staged fun _ hs'' => .cons (hs''.fits hl) (hs''.fits hr)
  | eq | ne | gt | lt | ge | le => exact .relation _ hl hr
  | _ =>
    refine .forceBoth hl hr fun s'' l' r' hl' hr' => ?_
    exact .operands _ hl' hr'

end Operators

/-! ### Conversion and rendering -/

section Conversion

variable {v : Value}

/-- Gathering characters is a walk. -/
theorem Walk.charsOf? {items : List Value} (hitems : ∀ v ∈ items, c.Fits s v) :
    c.Walk s (charsOf? c.evaluator items) fun _ _ => True := by
  induction items generalizing s with
  | nil => exact .pure fun _ _ => trivial
  | cons v vs ih =>
    refine (Walk.force (hitems v List.mem_cons_self)).andThen fun s' u hs' hu => ?_
    split
    · refine (ih fun v hv => hs'.fits (hitems v (List.mem_cons_of_mem _ hv))).andThen ?_
      exact fun _ _ _ _ => .pure fun _ _ => trivial
    · exact .pure fun _ _ => trivial

/-- The walks of rendering with an amount of fuel. -/
structure RenderWalks (c : Regime p) (format : Format) (n : Nat) : Prop where
  value : ∀ s nested seen v, c.Fits s v → c.Allows s (·.demand v) n →
    c.Walk s (Render.value c.evaluator format n nested seen v) fun _ _ => True
  fields : ∀ s seen fields, (∀ x ∈ fields, c.Fits s x.2) → c.AllowsFields s fields n →
    c.Walk s (Render.fields c.evaluator format n seen fields) fun _ _ => True
  items : ∀ s shown seen list, c.Fits s (.list list) → c.Allows s (spineDemand list) n →
    c.Walk s (Render.items c.evaluator format n shown seen list) fun _ _ => True

/-- Whether a value that fits the store needs parentheses is found in its heap as it is. -/
theorem exists_needsParentheses? {u : Value} (hu : c.Fits s u) :
    ∃ wrap, Render.needsParentheses? s.heap u = some wrap := by
  cases u with
  | variant v =>
    have hpayload := (Store.under_variant hu).fits hu
    rw [Render.needsParentheses?, Heap.hasPayload?, s.resolve?_eq hpayload]
    exact ⟨_, rfl⟩
  | _ => exact ⟨false, rfl⟩

/-- Without fuel there is nothing that the fuel would be enough for. -/
theorem RenderWalks.zero (format : Format) : c.RenderWalks format 0 where
  value _ _ _ v _ hn := .cut (fun s' => s'.demand_pos v) hn
  fields _ _ _ _ hn := .cut (fun _ => Nat.succ_pos _) hn.length
  items _ _ _ list _ hn := .cut (spineDemand_pos list) hn

/-- Showing a floating-point number is a walk of no step. -/
theorem Walk.floatValue (format : Format) (v : Value) (shortest : String)
    (number : Decimal.Number) :
    c.Walk s (Render.floatValue format v shortest number) fun _ _ => True := by
  unfold Render.floatValue
  split
  · split
    · exact .crash
    · exact .pure fun _ _ => trivial
  · exact .fail _

/-- Renderings are walks if those of the parts are with less fuel. -/
theorem RenderWalks.succ (hlax : ¬ c.strict) {format : Format} {n : Nat}
    (ih : c.RenderWalks format n) : c.RenderWalks format (n + 1) where
  value s nested seen v hv hn := by
    simp only [Render.value]
    refine (Walk.force hv).andThen fun s₁ u hs₁ hu => ?_
    have hfits := hu.fits
    have hn' := hu.allows hs₁ hv hn
    -- a forced scalar is a text already: what is left are the two floats and the compounds
    split
    all_goals try exact .pure fun _ _ => trivial
    · exact .floatValue _ _ _ _
    · exact .floatValue _ _ _ _
    · refine (ih.items s₁ 0 seen _ hfits hn'.spine).andThen fun _ _ _ _ => ?_
      exact .pure fun _ _ => trivial
    · split
      · exact .pure fun _ _ => trivial
      · refine .look (fun s' hs' => by rw [hs'.record_eq hfits]) ?_
        refine (ih.fields s₁ _ _ (fits_fields hfits) (hn'.fields hfits)).andThen fun _ _ _ _ => ?_
        exact .pure fun _ _ => trivial
    · split
      · exact .pure fun _ _ => trivial
      · have hpayload := Store.under_variant hfits
        refine .look (fun s' hs' => by rw [hs'.variant_eq hfits]) ?_
        refine (Walk.force (hpayload.fits hfits)).andThen fun s₂ payload hs₂ hpayload₂ => ?_
        have hn₂ := hpayload₂.allows hs₂ (hpayload.fits hfits) (hn'.under (.refl s₁) hfits hpayload)
        split
        · exact .pure fun _ _ => trivial
        · refine .find hlax fun s₃ hs₃ => ?_
          obtain ⟨wrap, hwrap⟩ := exists_needsParentheses? (hs₃.fits hpayload₂.fits)
          refine ⟨wrap, hwrap, ?_⟩
          refine (ih.value s₃ true _ payload (hs₃.fits hpayload₂.fits) (hn₂.later hs₃)).andThen ?_
          exact fun _ _ _ _ => .pure fun _ _ => trivial
    · exact .peek hlax fun _ _ => .pure fun _ _ => trivial
    · exact .peek hlax fun _ _ => .pure fun _ _ => trivial
  fields s seen fields hfields hn := by
    cases fields with
    | nil =>
      simp only [Render.fields]
      exact .pure fun _ _ => trivial
    | cons x rest =>
      simp only [Render.fields]
      refine (ih.value s true seen x.2 (hfields x List.mem_cons_self) hn.head).andThen
        fun s₁ _ hs₁ _ => ?_
      refine (ih.fields s₁ seen rest (fun y hy => hs₁.fits (hfields y (List.mem_cons_of_mem x hy)))
        (hn.rest hs₁)).andThen fun _ _ _ _ => ?_
      exact .pure fun _ _ => trivial
  items s shown seen list hlist hn := by
    cases list with
    | none =>
      simp only [Render.items]
      exact .pure fun _ _ => trivial
    | some r =>
      simp only [Render.items]
      split
      · exact .pure fun _ _ => trivial
      · have hhead := Store.under_cell hlist (.inl rfl)
        refine .look (fun s' hs' => by rw [hs'.cell_eq hlist]) ?_
        refine (ih.value s true _ _ (hhead.fits hlist) (hn.cell hlist (.refl s) hhead)).andThen
          fun s₁ _ hs₁ _ => ?_
        refine (Walk.next (hs₁.fits hlist)).andThen fun s₂ rest hs₂ hrest => ?_
        have hs₂' := hs₁.trans hs₂
        refine (ih.items s₂ _ _ rest (hrest.fits (hs₂'.fits hlist))
          (hn.cell hlist hs₂' hrest).rest).andThen fun _ _ _ _ => ?_
        exact .pure fun _ _ => trivial

/-- Rendering looks at thunks without forcing them, so only the cooperative mode is considered. -/
theorem Walk.render (hlax : ¬ c.strict) (format : Format) (hv : c.Fits s v) :
    c.Walk s (render c.evaluator format v) fun _ _ => True := by
  have hwalks (n : Nat) : c.RenderWalks format n := by
    induction n with
    | zero => exact .zero format
    | succ n ih => exact ih.succ hlax
  refine Walk.live.andThen fun s' _ hs' _ => ?_
  exact (hwalks c.fuel).value s' false [] v (hs'.fits hv) (allows_fuel s' v)

/-- Conversions are staged. -/
theorem Staged.convert {target : Kind} (htarget : target = .string → ¬ c.strict)
    (hv : c.Fits s v) : c.Staged s (convert c.evaluator v target) c.Fits := by
  refine (Walk.force hv).bind fun s' u hs' hu => ?_
  have hfits := hu.fits
  split
  -- a foreign value fits no store
  · exact absurd hfits.internal (by simp [Value.isExternal])
  -- the kind that it is of, a text of characters or as it is shown, a type, the characters of a
  -- text
  · split
    · exact Prompt.staged fun _ hs'' => .pure (hs''.fits hfits)
    · split
      · have hlax := htarget rfl
        refine (Walk.collect hfits).bind fun s₁ items hs₁ hitems => ?_
        refine (Walk.charsOf? hitems).bind fun s₂ chars hs₂ _ => ?_
        split
        · exact Prompt.staged fun _ _ => .makeStr _
        · refine (Walk.render hlax {} ((hs₁.trans hs₂).fits hfits)).bind fun _ _ _ _ => ?_
          exact Prompt.staged fun _ _ => .makeStr _
      · refine (Walk.render (htarget rfl) {} hfits).bind fun _ _ _ _ => ?_
        exact Prompt.staged fun _ _ => .makeStr _
      · exact Prompt.staged fun _ _ => .typeInfo _
      · refine Prompt.staged fun _ _ => .makeList fun v hv => ?_
        obtain ⟨ch, -, rfl⟩ := List.mem_map.mp hv
        exact .scalar rfl rfl
      · split
        · next hconvert =>
          exact Prompt.staged fun _ _ => .pure (fits_of_isAtom (isAtom_convertScalar? hconvert))
        · exact Prompt.staged fun _ _ => .fail _

end Conversion

end LazyMachine.Regime
