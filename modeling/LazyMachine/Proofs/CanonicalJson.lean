import LazyMachine.Json.Basic
import Mathlib.Data.List.Forall2
import Mathlib.Data.List.Lex
import Mathlib.Data.String.Basic
import Mathlib.Order.Basic
import Mathlib.Tactic.Common

/-!
# JSON values as finite maps

The fields of an object stand in the order in which they are written; as a finite map the object has
a value for each name, whatever the order. `Json.Same` compares values in this way. `canonical`
keeps a value the same if no object has two fields of one name, and leaves it as it is if its fields
are in order already.

* `Json.induction`: what holds of a value if it holds of its parts holds of every value;
* `Json.Every`: a property of a value and of all parts of it;
* `Json.ordered_canonical`, `Json.canonical_of_ordered` and `Json.same_canonical`.
-/

namespace LazyMachine.Json

/-! ### Parts of a value -/

/-- The elements of an array or the values of the fields of an object. -/
def parts : Json → List Json
  | .arr items => items
  | .obj fields => fields.map (·.2)
  | _ => []

/-- The names of the fields of an object. -/
def names : Json → List String
  | .obj fields => fields.map (·.1)
  | _ => []

/-- Parts are smaller. -/
theorem sizeOf_lt_of_mem_parts {j k : Json} (hk : k ∈ j.parts) : sizeOf k < sizeOf j := by
  cases j with
  | arr items =>
    have hlt := List.sizeOf_lt_of_mem (show k ∈ items from hk)
    simp only [Json.arr.sizeOf_spec]
    omega
  | obj fields =>
    obtain ⟨⟨name, value⟩, hmem, rfl⟩ := List.mem_map.mp (show k ∈ fields.map (·.2) from hk)
    have hlt := List.sizeOf_lt_of_mem hmem
    simp only [Json.obj.sizeOf_spec, Prod.mk.sizeOf_spec] at hlt ⊢
    omega
  | _ => cases hk

/-- What holds of a value whenever it holds of its parts holds of every value. -/
theorem induction {P : Json → Prop} (step : ∀ j, (∀ k ∈ j.parts, P k) → P j) (j : Json) : P j :=
  step j fun k _ => induction step k
termination_by sizeOf j
decreasing_by exact sizeOf_lt_of_mem_parts ‹_›

/-- The property holds of a value, of its parts, of their parts and so on. -/
inductive Every (P : Json → Prop) : Json → Prop
  | intro {j : Json} (hj : P j) (hparts : ∀ k ∈ j.parts, Every P k) : Every P j

namespace Every

variable {P : Json → Prop} {j k : Json}

theorem here (h : j.Every P) : P j := by
  cases h with
  | intro hj _ => exact hj

/-- What holds everywhere in a document holds everywhere in its parts. -/
theorem part (h : j.Every P) (hk : k ∈ j.parts) : k.Every P := by
  cases h with
  | intro _ hparts => exact hparts k hk

theorem imp {Q : Json → Prop} (h : j.Every P) (hPQ : ∀ k, P k → Q k) : j.Every Q := by
  induction h with
  | intro hj _ ih => exact .intro (hPQ _ hj) ih

end Every

/-- In every object the names are in ascending order, and so each is there once. -/
def Ordered : Json → Prop :=
  Every fun j => j.names.Pairwise (· < ·)

/-- In every object each name is there once. -/
def Unique : Json → Prop :=
  Every fun j => j.names.Nodup

/-- The values are the same, if objects are taken as finite maps from names to values. -/
inductive Same : Json → Json → Prop
  | refl (j : Json) : Same j j
  | arr {xs ys : List Json} (hitems : List.Forall₂ Same xs ys) : Same (.arr xs) (.arr ys)
  | obj {xs ys : List (String × Json)}
      (hfields : ∀ name, Option.Rel Same ((Json.obj xs).field? name) ((Json.obj ys).field? name)) :
      Same (.obj xs) (.obj ys)

/-! ### Inserting a field -/

section Insert

variable {name : String} {fields : List (String × Json)}

/-- What is in an object after an insertion is the new field or was there before. -/
theorem mem_insertField {value : Json} {x : String × Json}
    (hx : x ∈ insertField name value fields) : x = (name, value) ∨ x ∈ fields := by
  induction fields with
  | nil => exact .inl (List.mem_singleton.mp hx)
  | cons y ys ih =>
    obtain ⟨other, old⟩ := y
    rw [insertField] at hx
    split at hx
    · exact List.mem_cons.mp hx
    · split at hx
      · exact (List.mem_cons.mp hx).imp_right (List.mem_cons_of_mem _)
      · rcases List.mem_cons.mp hx with rfl | hx
        · exact .inr List.mem_cons_self
        · exact (ih hx).imp_right (List.mem_cons_of_mem _)

/-- The first field of the name counts. -/
theorem field?_cons (value : Json) (other : String) :
    (Json.obj ((name, value) :: fields)).field? other =
      if name = other then some value else (Json.obj fields).field? other := by
  by_cases hname : name = other <;> simp [field?, hname]

/-- A name that no field has is not found. -/
theorem field?_eq_none (hname : name ∉ fields.map (·.1)) :
    (Json.obj fields).field? name = none := by
  have hfound : fields.find? (·.1 = name) = none := by
    refine List.find?_eq_none.mpr fun x hx heq => hname ?_
    exact List.mem_map.mpr ⟨x, hx, by simpa using heq⟩
  rw [field?, hfound, Option.map_none]

/-- The value of a field is a part. -/
theorem mem_parts_of_field? {value : Json} (hvalue : (Json.obj fields).field? name = some value) :
    value ∈ (Json.obj fields).parts := by
  obtain ⟨x, hx, rfl⟩ := Option.map_eq_some_iff.mp hvalue
  exact List.mem_map_of_mem (List.mem_of_find?_eq_some hx)

/-- The name stands for the new value, and every other name for what it stood for. -/
theorem field?_insertField (value : Json) (other : String) :
    (Json.obj (insertField name value fields)).field? other =
      if name = other then some value else (Json.obj fields).field? other := by
  induction fields with
  | nil => exact field?_cons value other
  | cons y ys ih =>
    obtain ⟨present, old⟩ := y
    rw [insertField]
    split
    · exact field?_cons value other
    · split
      · next heq =>
        -- the field that is replaced is found under the same name only
        subst heq
        rw [field?_cons, field?_cons]
        split <;> rfl
      · next hne =>
        rw [field?_cons, ih, field?_cons]
        by_cases hname : name = other
        · rw [if_pos hname, if_neg (by rintro rfl; exact hne hname), if_pos hname]
        · rw [if_neg hname, if_neg hname]

/-- An insertion keeps the names in order. -/
theorem pairwise_insertField (value : Json) (hfields : (fields.map (·.1)).Pairwise (· < ·)) :
    ((insertField name value fields).map (·.1)).Pairwise (· < ·) := by
  induction fields with
  | nil => exact List.pairwise_singleton _ _
  | cons y ys ih =>
    obtain ⟨other, old⟩ := y
    obtain ⟨hothers, hrest⟩ := List.pairwise_cons.mp hfields
    rw [insertField]
    split
    · next hlt =>
      refine List.pairwise_cons.mpr ⟨?_, hfields⟩
      rintro x (_ | ⟨_, hx⟩)
      · exact hlt
      · exact hlt.trans (hothers x hx)
    · next hge =>
      split
      · next heq =>
        subst heq
        exact hfields
      · next hne =>
        refine List.pairwise_cons.mpr ⟨fun x hx => ?_, ih hrest⟩
        -- what follows is an old field, above the first one, or the new one, which is neither below
        -- nor equal
        obtain ⟨⟨x, image⟩, hmem, rfl⟩ := List.mem_map.mp hx
        rcases mem_insertField hmem with heq | hmem
        · cases heq
          exact lt_of_le_of_ne (not_lt.mp hge) (Ne.symm hne)
        · exact hothers x (List.mem_map_of_mem hmem)

/-- In fields in order a name is after those that stand before it. -/
theorem lt_of_pairwise {before after : List (String × Json)} {value : Json}
    (hnames : ((before ++ (name, value) :: after).map (·.1)).Pairwise (· < ·)) :
    ∀ other ∈ before.map (·.1), other < name := by
  rw [List.map_append, List.pairwise_append] at hnames
  exact fun other hother => hnames.2.2 other hother name List.mem_cons_self

/-- A name after all others is inserted at the end. -/
theorem insertField_of_lt (hname : ∀ other ∈ fields.map (·.1), other < name) (value : Json) :
    insertField name value fields = fields ++ [(name, value)] := by
  induction fields with
  | nil => rfl
  | cons y ys ih =>
    obtain ⟨other, old⟩ := y
    rw [List.map_cons, List.forall_mem_cons] at hname
    obtain ⟨hlt, hrest⟩ := hname
    rw [insertField, if_neg hlt.asymm, if_neg hlt.ne', ih hrest]
    rfl

end Insert

/-! ### The canonical value -/

/-- Items are made canonical one by one. -/
theorem canonicalItems_eq (items : List Json) : canonicalItems items = items.map canonical := by
  induction items with
  | nil => rfl
  | cons item items ih => rw [canonicalItems, ih, List.map_cons]

/-- The fields of a canonical value come from the fields that it is made of. -/
theorem mem_canonicalFields {fields gathered : List (String × Json)} {x : String × Json}
    (hx : x ∈ canonicalFields fields gathered) :
    (∃ y ∈ fields, x = (y.1, canonical y.2)) ∨ x ∈ gathered := by
  induction fields generalizing gathered with
  | nil => exact .inr hx
  | cons y ys ih =>
    obtain ⟨name, value⟩ := y
    rcases ih hx with ⟨z, hz, rfl⟩ | hx
    · exact .inl ⟨z, List.mem_cons_of_mem _ hz, rfl⟩
    · rcases mem_insertField hx with rfl | hx
      · exact .inl ⟨(name, value), List.mem_cons_self, rfl⟩
      · exact .inr hx

/-- Canonical fields are in the order of their names. -/
theorem pairwise_canonicalFields {fields gathered : List (String × Json)}
    (hgathered : (gathered.map (·.1)).Pairwise (· < ·)) :
    ((canonicalFields fields gathered).map (·.1)).Pairwise (· < ·) := by
  induction fields generalizing gathered with
  | nil => exact hgathered
  | cons y ys ih => exact ih (pairwise_insertField _ hgathered)

/-- Where each name is there once, it stands in the canonical value for what it stands for. -/
theorem field?_canonicalFields {fields gathered : List (String × Json)}
    (hfields : (fields.map (·.1)).Nodup) (name : String) :
    (Json.obj (canonicalFields fields gathered)).field? name =
      (((Json.obj fields).field? name).map canonical).or ((Json.obj gathered).field? name) := by
  induction fields generalizing gathered with
  | nil => rfl
  | cons y ys ih =>
    obtain ⟨other, value⟩ := y
    obtain ⟨hother, hrest⟩ := List.nodup_cons.mp hfields
    rw [canonicalFields, ih hrest, field?_insertField, field?_cons]
    by_cases hname : other = name
    · subst hname
      simp [field?_eq_none hother]
    · simp [hname]

/-- The parts of a canonical value are the parts that it is made of, made canonical. -/
theorem parts_canonical {j k : Json} (hk : k ∈ j.canonical.parts) :
    ∃ i ∈ j.parts, k = i.canonical := by
  cases j with
  | arr items =>
    rw [canonical, parts, canonicalItems_eq] at hk
    obtain ⟨i, hi, rfl⟩ := List.mem_map.mp hk
    exact ⟨i, hi, rfl⟩
  | obj fields =>
    rw [canonical] at hk
    obtain ⟨x, hx, rfl⟩ := List.mem_map.mp hk
    rcases mem_canonicalFields hx with ⟨y, hy, rfl⟩ | hx
    · exact ⟨y.2, List.mem_map_of_mem hy, rfl⟩
    · cases hx
  | _ => cases hk

/-- What holds everywhere in a value holds so in its canonical value, if it survives there in one
place. -/
theorem Every.canonical {P Q : Json → Prop} (hPQ : ∀ j, P j → Q j.canonical) {j : Json}
    (hj : j.Every P) : j.canonical.Every Q := by
  induction j using Json.induction with
  | step j ih =>
    refine .intro (hPQ j hj.here) fun k hk => ?_
    obtain ⟨i, hi, rfl⟩ := parts_canonical hk
    exact ih i hi (hj.part hi)

/-- Every property that holds everywhere. -/
theorem Every.of_forall {P : Json → Prop} (hP : ∀ j, P j) (j : Json) : j.Every P := by
  induction j using Json.induction with
  | step j ih => exact .intro (hP j) ih

/-- A canonical document is ordered everywhere. -/
theorem ordered_canonical (j : Json) : j.canonical.Ordered := by
  refine Every.canonical (P := fun _ => True) (fun j _ => ?_) (.of_forall (fun _ => trivial) j)
  cases j with
  | obj fields => exact pairwise_canonicalFields .nil
  | _ => exact .nil

/-- What is in order is canonical. -/
theorem canonical_of_ordered {j : Json} (hj : j.Ordered) : j.canonical = j := by
  induction j using Json.induction with
  | step j ih =>
    cases j with
    | arr items =>
      rw [canonical, canonicalItems_eq]
      have hitems : items.map canonical = items.map id :=
        List.map_congr_left fun i hi => ih i hi (hj.part hi)
      rw [hitems, List.map_id]
    | obj fields =>
      -- fields in order are added at the end, one after the other
      have hgather : ∀ gathered rest : List (String × Json), gathered ++ rest = fields →
          canonicalFields rest gathered = fields := by
        intro gathered rest heq
        induction rest generalizing gathered with
        | nil => exact (List.append_nil gathered).symm.trans heq
        | cons y ys ihRest =>
          obtain ⟨name, value⟩ := y
          have hpart : value ∈ (Json.obj fields).parts :=
            List.mem_map.mpr ⟨(name, value), heq ▸ List.mem_append_right _ List.mem_cons_self, rfl⟩
          have hlt : ∀ other ∈ gathered.map (·.1), other < name := lt_of_pairwise (heq ▸ hj.here)
          rw [canonicalFields, ih value hpart (hj.part hpart), insertField_of_lt hlt]
          exact ihRest _ ((List.append_assoc _ _ _).trans heq)
      exact congrArg Json.obj (hgather [] fields rfl)
    | _ => rfl

/-- A document without repeated names says the same in canonical form. -/
theorem same_canonical {j : Json} (hj : j.Unique) : j.Same j.canonical := by
  induction j using Json.induction with
  | step j ih =>
    cases j with
    | arr items =>
      rw [canonical, canonicalItems_eq]
      refine .arr ?_
      rw [List.forall₂_map_right_iff, List.forall₂_same]
      exact fun i hi => ih i hi (hj.part hi)
    | obj fields =>
      refine .obj fun name => ?_
      rw [field?_canonicalFields hj.here]
      cases hfound : (Json.obj fields).field? name with
      | none => exact .none
      | some value =>
        have hpart := mem_parts_of_field? hfound
        exact .some (ih value hpart (hj.part hpart))
    | _ => exact .refl _

end LazyMachine.Json
