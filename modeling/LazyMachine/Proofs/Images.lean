import LazyMachine.Image
import LazyMachine.Proofs.Sequences

/-!
# Images of records

The image of a record has one field for each name, and holds there the image that was taken of the
value of the first field of that name (`fields_gathered`). Taking an image forces what it meets, so
the image of a part can be taken again when the whole is done: it is the same, and nothing is
evaluated then (`imagesAgain`). As for rendering, references to objects that have not been made are
kept out by guarded forces.
-/

namespace LazyMachine

open Heap (Evolves)

variable {α β : Type}

/-- A record stays as it is. -/
theorem Heap.Retains.record_eq {h k : Heap} (hk : h.Retains k) {a : Ref .record}
    (ha : h.has (.record a) = true) : k.record a = h.record a :=
  hk.records.getD_eq (by simpa [Heap.has] using ha) default

/-! ### Images by parallel evaluators -/

namespace Parallel

variable {ev ev' : Evaluator}

/-- The three walks of imaging together, by induction on the fuel. -/
theorem imageAll (hfuel : ev.fuel ≤ ev'.fuel) {fuel fuel' : Nat} (hle : fuel ≤ fuel') :
    (∀ v, Parallel .none ev ev' (Image.value ev fuel v) (Image.value ev' fuel' v)) ∧
    (∀ vs, Parallel .none ev ev' (Image.items ev fuel vs) (Image.items ev' fuel' vs)) ∧
    ∀ gathered fields, Parallel .none ev ev' (Image.fields ev fuel gathered fields)
      (Image.fields ev' fuel' gathered fields) := by
  induction fuel generalizing fuel' with
  | zero =>
    simp only [Image.value, Image.items, Image.fields]
    exact ⟨fun _ => .cut _, fun _ => .cut _, fun _ _ => .cut _⟩
  | succ fuel ih =>
    obtain ⟨k, rfl⟩ := Nat.exists_eq_add_of_lt hle
    -- each walk calls the others with less fuel, so the three are shown at once
    obtain ⟨ihValue, ihItems, ihFields⟩ := ih (Nat.le_add_right fuel k)
    refine ⟨fun v => ?_, fun vs => ?_, fun gathered fields => ?_⟩
    · simp only [Image.value]
      refine .bind (.force v) fun u => ?_
      split
      all_goals try exact .pure _
      · exact .bind (collectFrom hfuel _ _) fun _ => .bind (ihItems _) fun _ => .pure _
      · exact .bind .heap fun _ => .bind (ihFields _ _) fun _ => .pure _
      · exact .bind .heap fun _ => .bind (ihValue _) fun _ => .pure _
      · exact conversionFailed _ _
    · cases vs with
      | nil =>
        simp only [Image.items]
        exact .pure _
      | cons v vs =>
        simp only [Image.items]
        exact .bind (ihValue _) fun _ => .bind (ihItems _) fun _ => .pure _
    · cases fields with
      | nil =>
        simp only [Image.fields]
        exact .pure _
      | cons field rest =>
        simp only [Image.fields]
        split
        · exact ihFields _ _
        · exact .bind (ihValue _) fun _ => ihFields _ _

/-- The image of a value is composed of forces. -/
theorem image (hfuel : ev.fuel ≤ ev'.fuel) {fuel fuel' : Nat} (hle : fuel ≤ fuel') (v : Value) :
    Parallel .none ev ev' (Image.value ev fuel v) (Image.value ev' fuel' v) :=
  (imageAll hfuel hle).1 v

end Parallel

/-! ### Gathering the fields -/

/-- A new name is added to the fields. -/
theorem Json.insertField_perm {name : String} {fields : List (String × Json)}
    (hname : name ∉ fields.map (·.1)) (image : Json) :
    (insertField name image fields).Perm ((name, image) :: fields) := by
  induction fields with
  | nil => exact .refl _
  | cons x xs ih =>
    obtain ⟨other, old⟩ := x
    rw [List.map_cons, List.mem_cons, not_or] at hname
    have hrest := ih hname.2
    rw [insertField]
    split
    · exact .refl _
    · rw [if_neg hname.1]
      exact (hrest.cons _).trans (.swap _ _ _)

/-- The images of fields: one for each name, which `I` relates to the value of the first field of
the name if none was gathered before. -/
structure Gathered (I : Value → Json → Prop) (before : List (String × Json))
    (fields : List (String × Value)) (images : List (String × Json)) : Prop where
  nodup : (images.map (·.1)).Nodup
  names : ∀ name, name ∈ images.map (·.1) ↔ name ∈ before.map (·.1) ∨ name ∈ fields.map (·.1)
  image : ∀ name image, (name, image) ∈ images → (name, image) ∈ before ∨
    name ∉ before.map (·.1) ∧ ∃ v, (Record.mk fields).get? name = some v ∧ I v image

namespace Gathered

variable {I J : Value → Json → Prop} {fields : List (String × Value)}
  {gathered images : List (String × Json)} {name : String} {v : Value} {image : Json}

theorem imp (hg : Gathered I gathered fields images) (hIJ : ∀ v image, I v image → J v image) :
    Gathered J gathered fields images where
  nodup := hg.nodup
  names := hg.names
  image name image hmem := (hg.image name image hmem).imp_right <|
    And.imp_right (Exists.imp fun v => And.imp_right (hIJ v image))

theorem nil (hnodup : (gathered.map (·.1)).Nodup) : Gathered I gathered [] gathered :=
  ⟨hnodup, by simp, fun _ _ h => .inl h⟩

/-- The first field has its name. -/
theorem get?_cons_self (name : String) (v : Value) (fields : List (String × Value)) :
    (Record.mk ((name, v) :: fields)).get? name = some v := by
  simp [Record.get?]

/-- Another name is looked for behind the first field. -/
theorem get?_cons_of_ne {other : String} (hname : other ≠ name) (v : Value)
    (fields : List (String × Value)) :
    (Record.mk ((name, v) :: fields)).get? other = (Record.mk fields).get? other := by
  simp [Record.get?, hname.symm]

/-- A field whose name is taken is passed over. -/
theorem skip (hg : Gathered I gathered fields images) (hname : name ∈ gathered.map (·.1))
    (v : Value) : Gathered I gathered ((name, v) :: fields) images where
  nodup := hg.nodup
  names other := by
    rw [hg.names other, List.map_cons, List.mem_cons]
    constructor
    · exact Or.imp_right .inr
    · rintro (hother | rfl | hother)
      · exact .inl hother
      · exact .inl hname
      · exact .inr hother
  image other image hmem := by
    refine (hg.image other image hmem).imp_right ?_
    rintro ⟨hother, x, hx, himage⟩
    refine ⟨hother, x, ?_, himage⟩
    rwa [get?_cons_of_ne (by rintro rfl; exact hother hname)]

/-- The image of a field with a new name is added. -/
theorem insert (hname : name ∉ gathered.map (·.1)) (himage : I v image)
    (hg : Gathered I (Json.insertField name image gathered) fields images) :
    Gathered I gathered ((name, v) :: fields) images := by
  have hperm := Json.insertField_perm hname image
  have hmem (other : String) : other ∈ (Json.insertField name image gathered).map (·.1) ↔
      other = name ∨ other ∈ gathered.map (·.1) := by
    rw [(hperm.map _).mem_iff, List.map_cons, List.mem_cons]
  exact {
    nodup := hg.nodup
    names := fun other => by
      rw [hg.names other, hmem other, List.map_cons, List.mem_cons, or_assoc, or_left_comm]
    image := fun other image' hother => by
      rcases hg.image other image' hother with hin | ⟨hnew, x, hx, hximage⟩
      · rcases List.mem_cons.mp (hperm.mem_iff.mp hin) with heq | hin
        · cases heq
          exact .inr ⟨hname, v, get?_cons_self _ _ _, himage⟩
        · exact .inl hin
      · rw [hmem, not_or] at hnew
        refine .inr ⟨hnew.2, x, ?_, hximage⟩
        rwa [get?_cons_of_ne hnew.1] }

end Gathered

/-- A new name is inserted once. -/
theorem Json.nodup_insertField {name : String} {fields : List (String × Json)}
    (hname : name ∉ fields.map (·.1)) (image : Json) (hnodup : (fields.map (·.1)).Nodup) :
    ((insertField name image fields).map (·.1)).Nodup := by
  rw [((insertField_perm hname image).map _).nodup_iff, List.map_cons, List.nodup_cons]
  exact ⟨hname, hnodup⟩

/-! ### Images in the course of an evaluation -/

/-- Somewhere between two heaps the image of a value was taken. -/
def Imaged (ev : Evaluator) (fuel : Nat) (h h' : Heap) (v : Value) (image : Json) : Prop :=
  ∃ u u', h.Evolves u.heap ∧ Image.value ev fuel v u = .ok image u' ∧ u'.heap.Evolves h'

section Course

variable {ev : Evaluator} {fuel fuel' : Nat} {w w' : World} {h k h' : Heap} {v : Value}
  {image : Json}

/-- The walks that make images are sequences of moves. -/
theorem imageAll_evolves (hev : ∀ v, (ev.force v).Preserves Evolves) (fuel : Nat) :
    (∀ v, (Image.value ev fuel v).Preserves Evolves) ∧
    (∀ vs, (Image.items ev fuel vs).Preserves Evolves) ∧
    ∀ gathered fields, (Image.fields ev fuel gathered fields).Preserves Evolves := by
  have hall := @Parallel.imageAll ev ev (Nat.le_refl ev.fuel) fuel fuel (Nat.le_refl fuel)
  exact ⟨fun v => (hall.1 v).evolves hev, fun vs => (hall.2.1 vs).evolves hev,
    fun gathered fields => (hall.2.2 gathered fields).evolves hev⟩

/-- An image that was taken is the same with more fuel. -/
theorem image_mono (hle : fuel ≤ fuel') (himage : Image.value ev fuel v w = .ok image w') :
    Image.value ev fuel' v w = .ok image w' :=
  ((Parallel.image (Nat.le_refl ev.fuel) hle v).approximates fun _ => .refl _).eq_ok himage

theorem Imaged.mono (himage : Imaged ev fuel k h' v image) (hle : fuel ≤ fuel')
    (e : h.Evolves k) : Imaged ev fuel' h h' v image := by
  obtain ⟨u, u', hbefore, hvalue, hafter⟩ := himage
  exact ⟨u, u', e.trans hbefore, image_mono hle hvalue, hafter⟩

/-- Each image is taken when the first field of its name is met. -/
theorem fields_gathered (hev : ∀ v, (ev.force v).Preserves Evolves) {fields : List (String × Value)}
    {gathered images : List (String × Json)}
    (hrun : Image.fields ev fuel gathered fields w = .ok images w')
    (hnodup : (gathered.map (·.1)).Nodup) :
    Gathered (Imaged ev fuel w.heap w'.heap) gathered fields images := by
  induction fields generalizing fuel gathered w with
  | nil =>
    cases fuel with
    | zero => cases hrun
    | succ fuel =>
      cases hrun
      exact .nil hnodup
  | cons x xs ih =>
    obtain ⟨name, v⟩ := x
    cases fuel with
    | zero => cases hrun
    | succ fuel =>
      rw [Image.fields] at hrun
      split at hrun
      · next hknown =>
        -- an earlier field has the name already
        have hrest := (ih hrun hnodup).skip (by simpa using hknown) v
        exact hrest.imp fun _ _ himage => himage.mono (Nat.le_succ fuel) .refl
      · next hnew =>
        have hname : name ∉ gathered.map (·.1) := by simpa using hnew
        obtain ⟨image, w₁, hvalue, hrun⟩ := of_bind_ok hrun
        -- the image is taken on the way from the first heap to the last
        obtain ⟨hvalues, -, hfields⟩ := imageAll_evolves hev fuel
        have e := (hvalues v w).of_ok hvalue trivial
        have e' := (hfields _ xs w₁).of_ok hrun trivial
        have hrest := ih hrun (Json.nodup_insertField hname image hnodup)
        refine .insert hname ⟨w, w₁, .refl, image_mono (Nat.le_succ fuel) hvalue, e'⟩ ?_
        exact hrest.imp fun _ _ himage => himage.mono (Nat.le_succ fuel) e

end Course

/-! ### Taking an image again -/

namespace Repeats

variable {last h : Heap} {u : World} {R S : Heap → α → β → Prop} {x : Eval α} {y : Eval β}

theorem imp (hxy : Repeats last u h R x y) (hRS : ∀ h' a b, R h' a b → S h' a b) :
    Repeats last u h S x y where
  evolves := hxy.evolves
  again w a w' hx e hclosed hlast := by
    obtain ⟨hclosed', b, hb, hab⟩ := hxy.again w a w' hx e hclosed hlast
    exact ⟨hclosed', b, hb, hRS _ _ _ hab⟩

/-- What the repetition yields may be used later on. -/
theorem noted (hxy : Repeats last u h R x y) :
    Repeats last u h (fun h' a b => R h' a b ∧ y u = .ok b u) x y where
  evolves := hxy.evolves
  again w a w' hx e hclosed hlast := by
    obtain ⟨hclosed', b, hb, hab⟩ := hxy.again w a w' hx e hclosed hlast
    exact ⟨hclosed', b, hb, hab, hb⟩

end Repeats

section Again

variable {last : Heap} {u : World} {h : Heap} {root v v' : Value} {level : Nat} {ev : Evaluator}

/-- The guarded walks are sequences of moves. -/
theorem guardedImages_evolve (level fuel : Nat) :
    (∀ v, (Image.value (forcesOf level).guarded fuel v).Preserves Evolves) ∧
    (∀ vs, (Image.items (forcesOf level).guarded fuel vs).Preserves Evolves) ∧
    ∀ gathered fields,
      (Image.fields (forcesOf level).guarded fuel gathered fields).Preserves Evolves :=
  imageAll_evolves (guarded_evolves level) fuel

theorem collectFrom_evolves (level fuel : Nat) (first : Option (Ref .cell))
    (gathered : List Value) :
    (Spine.collectFrom (forcesOf level).guarded fuel first gathered).Preserves Evolves :=
  (@Parallel.collectFrom .none (forcesOf level).guarded (forcesOf level).guarded fuel fuel
    (Nat.le_refl fuel) first gathered).evolves_guarded

/-- Walking along a list meets the same heads again. -/
theorem collectFrom_again (hread : ev.Reads u) (hk : last.Reflects u.heap) {fuel fuel' : Nat}
    (hle : fuel ≤ fuel') {first : Option (Ref .cell)} {gathered gathered' : List Value}
    (hfirst : Met last u.heap root h (.list first) (.list first))
    (hgathered : List.Forall₂ (Met last u.heap root h) gathered gathered') :
    Repeats last u h (fun h' => List.Forall₂ (Met last u.heap root h'))
      (Spine.collectFrom (forcesOf level).guarded fuel first gathered)
      (Spine.collectFrom ev fuel' first gathered') := by
  induction fuel generalizing fuel' h first gathered gathered' with
  | zero => exact .throw _
  | succ fuel ih =>
    obtain ⟨k, rfl⟩ := Nat.exists_eq_add_of_lt hle
    cases first with
    | none =>
      refine .pure fun h₁ e => List.forall₂_reverse_iff.mpr ?_
      exact hgathered.imp fun _ _ hv => hv.later e
    | some c =>
      rw [Spine.collectFrom, Spine.collectFrom]
      refine .heap (fun _ => .bind (next_evolves level c) fun _ => collectFrom_evolves _ _ _ _)
        fun h₁ e hclosed hlast => ?_
      -- the cell was met by both walks, and so is what its tail forces to
      have hhead := ((hfirst.later e).cell hk hclosed hlast).1
      refine (next_again hread hk (hfirst.later e)).bind (fun _ => collectFrom_evolves _ _ _ _)
        fun h₂ rest rest' e₂ _ _ hrest => ?_
      obtain ⟨rfl, hmet⟩ := hrest
      refine ih (Nat.le_add_right fuel k) hmet (.cons (hhead.later e₂) ?_)
      exact hgathered.imp fun _ _ hv => hv.later (e.trans e₂)

/-- What the second imaging does with an amount of fuel, from each heap later than the first. -/
structure ImagesAgain (last : Heap) (u : World) (root : Value) (level : Nat) (ev : Evaluator)
    (fuel fuel' : Nat) : Prop where
  value : ∀ h v v', Met last u.heap root h v v' → Repeats last u h (fun _ => Eq)
    (Image.value (forcesOf level).guarded fuel v) (Image.value ev fuel' v')
  items : ∀ h vs vs', List.Forall₂ (Met last u.heap root h) vs vs' →
    Repeats last u h (fun _ => Eq)
      (Image.items (forcesOf level).guarded fuel vs) (Image.items ev fuel' vs')
  fields : ∀ h gathered fields fields',
    List.Forall₂ (fun x y => y.1 = x.1 ∧ Met last u.heap root h x.2 y.2) fields fields' →
    Repeats last u h (fun _ => Eq)
      (Image.fields (forcesOf level).guarded fuel gathered fields)
      (Image.fields ev fuel' gathered fields')

section Steps

variable {fuel fuel' : Nat} (hread : ev.Reads u) (hk : last.Reflects u.heap)
  (ih : ImagesAgain last u root level ev fuel fuel')

include ih

/-- Items have the same images again. -/
theorem imageItems_again {vs vs' : List Value}
    (hvs : List.Forall₂ (Met last u.heap root h) vs vs') :
    Repeats last u h (fun _ => Eq) (Image.items (forcesOf level).guarded (fuel + 1) vs)
      (Image.items ev (fuel' + 1) vs') := by
  obtain ⟨-, hitems, -⟩ := guardedImages_evolve level fuel
  cases hvs with
  | nil => exact .pure fun _ _ => rfl
  | cons hv hrest =>
    rw [Image.items, Image.items]
    refine (ih.value h _ _ hv).bind (fun _ => .bind (hitems _) fun _ => .pure _)
      fun h₁ image image' e _ _ himage => ?_
    subst himage
    refine (ih.items h₁ _ _ (hrest.imp fun _ _ hv => hv.later e)).bind (fun _ => .pure _)
      fun h₂ images images' _ _ _ himages => .pure fun _ _ => ?_
    rw [himages]

/-- Fields have the same images again. -/
theorem imageFields_again (gathered : List (String × Json)) {fields fields' : List (String × Value)}
    (hfields : List.Forall₂ (fun x y => y.1 = x.1 ∧ Met last u.heap root h x.2 y.2) fields
      fields') :
    Repeats last u h (fun _ => Eq)
      (Image.fields (forcesOf level).guarded (fuel + 1) gathered fields)
      (Image.fields ev (fuel' + 1) gathered fields') := by
  obtain ⟨-, -, hmoves⟩ := guardedImages_evolve level fuel
  cases hfields with
  | nil => exact .pure fun _ _ => rfl
  | @cons x y xs ys hxy hrest =>
    obtain ⟨name, v⟩ := x
    obtain ⟨name', v'⟩ := y
    obtain ⟨rfl, hv⟩ := hxy
    rw [Image.fields, Image.fields]
    split
    · exact ih.fields h _ _ _ hrest
    · refine (ih.value h _ _ hv).bind (fun _ => hmoves _ _) fun h₁ image image' e _ _ himage => ?_
      subst himage
      exact ih.fields h₁ _ _ _ (hrest.imp fun x y hxy => ⟨hxy.1, hxy.2.later e⟩)

include hread hk

/-- A value that is met has the same image again. -/
theorem imageValue_again (hfuel : level ≤ ev.fuel) (hv : Met last u.heap root h v v') :
    Repeats last u h (fun _ => Eq) (Image.value (forcesOf level).guarded (fuel + 1) v)
      (Image.value ev (fuel' + 1) v') := by
  obtain ⟨hvalue, hitems, hfields⟩ := guardedImages_evolve level fuel
  rw [Image.value, Image.value]
  refine (Repeats.force hread hv).bind (fun y => ?_) fun h₁ y y' e₁ _ _ hy => ?_
  · -- whatever the value is, what follows is a sequence of moves
    cases y with
    | list first =>
      exact .bind (collectFrom_evolves _ _ _ _) fun _ => .bind (hitems _) fun _ => .pure _
    | record r => exact .bind .heap fun _ => .bind (hfields _ _) fun _ => .pure _
    | variant c => exact .bind .heap fun _ => .bind (hvalue _) fun _ => .pure _
    | function | module | foreign | typeInfo | lazy => exact .of_eq fun _ => rfl
    | _ => exact .pure _
  · -- the value is the same, so the same is done with it
    obtain ⟨rfl, -, hlazy, -, hmet⟩ := hy
    cases y' with
    | list first =>
      refine (collectFrom_again hread hk hfuel hmet .nil).bind
        (fun _ => .bind (hitems _) fun _ => .pure _) fun h₂ vs vs' _ _ _ hvs => ?_
      refine (ih.items h₂ _ _ hvs).bind (fun _ => .pure _)
        fun h₃ images images' _ _ _ himages => .pure fun _ _ => ?_
      rw [himages]
    | record r =>
      refine .heap (fun _ => .bind (hfields _ _) fun _ => .pure _) fun h₂ e₂ hclosed hlast => ?_
      have hrecord := (hmet.later e₂).record hk hclosed hlast
      refine (ih.fields h₂ [] _ _ hrecord).bind (fun _ => .pure _)
        fun h₃ images images' _ _ _ himages => .pure fun _ _ => ?_
      rw [himages]
    | variant c =>
      refine .heap (fun _ => .bind (hvalue _) fun _ => .pure _) fun h₂ e₂ hclosed hlast => ?_
      obtain ⟨-, htag, hpayload⟩ := (hmet.later e₂).variant hk hclosed hlast
      refine (ih.value h₂ _ _ hpayload).bind (fun _ => .pure _)
        fun h₃ image image' _ _ _ himage => .pure fun _ _ => ?_
      rw [himage, htag]
    | lazy t => cases hlazy
    | function | module | foreign | typeInfo => exact .fail
    | _ => exact .pure fun _ _ => rfl

end Steps

/-- All walks repeat the first ones with at least their fuel. -/
theorem imagesAgain (hread : ev.Reads u) (hk : last.Reflects u.heap) (hfuel : level ≤ ev.fuel)
    (fuel : Nat) {fuel' : Nat} (hle : fuel ≤ fuel') :
    ImagesAgain last u root level ev fuel fuel' := by
  induction fuel generalizing fuel' with
  | zero => exact ⟨fun _ _ _ _ => .throw _, fun _ _ _ _ => .throw _, fun _ _ _ _ _ => .throw _⟩
  | succ fuel ih =>
    obtain ⟨k, rfl⟩ := Nat.exists_eq_add_of_lt hle
    have ih := ih (Nat.le_add_right fuel k)
    exact ⟨fun _ _ _ hv => imageValue_again hread hk ih hfuel hv,
      fun _ _ _ hvs => imageItems_again ih hvs,
      fun _ gathered _ _ hfields => imageFields_again ih gathered hfields⟩

/-- The images of fields are images of their values on the later world. -/
theorem fieldImages_again (hread : ev.Reads u) (hk : last.Reflects u.heap)
    (hfuel : level ≤ ev.fuel) {fuel fuel' : Nat} (hle : fuel ≤ fuel')
    {fields fields' : List (String × Value)} {gathered : List (String × Json)}
    (hfields : List.Forall₂ (fun x y => y.1 = x.1 ∧ Met last u.heap root h x.2 y.2) fields fields')
    (hnodup : (gathered.map (·.1)).Nodup) :
    Repeats last u h (fun _ images _ =>
        Gathered (fun v image => Image.value ev fuel' v u = .ok image u) gathered fields' images)
      (Image.fields (forcesOf level).guarded fuel gathered fields)
      (Image.fields ev fuel' gathered fields') := by
  induction fuel generalizing fuel' h gathered fields fields' with
  | zero => exact .throw _
  | succ fuel ih =>
    obtain ⟨k, rfl⟩ := Nat.exists_eq_add_of_lt hle
    have hmore {v : Value} {image : Json} (himage : Image.value ev (fuel + k) v u = .ok image u) :
        Image.value ev (fuel + k + 1) v u = .ok image u := image_mono (Nat.le_succ _) himage
    obtain ⟨-, -, hmoves⟩ := guardedImages_evolve level fuel
    cases hfields with
    | nil => exact .pure fun _ _ => .nil hnodup
    | @cons x y xs ys hxy hrest =>
      obtain ⟨name, v⟩ := x
      obtain ⟨name', v'⟩ := y
      obtain ⟨rfl, hv⟩ := hxy
      rw [Image.fields, Image.fields]
      -- of two fields of one name the first counts: the later one is skipped both times
      split
      · next hknown =>
        refine (ih (Nat.le_add_right fuel k) hrest hnodup).imp fun _ images _ hg => ?_
        exact (hg.skip (by simpa using hknown) v').imp fun _ _ => hmore
      · next hnew =>
        have hname : name' ∉ gathered.map (·.1) := by simpa using hnew
        have hvalue := (imagesAgain hread hk hfuel fuel (Nat.le_add_right fuel k)).value h v v' hv
        refine hvalue.noted.bind (fun _ => hmoves _ _) fun h₁ image image' e _ _ himage => ?_
        obtain ⟨rfl, hvalue⟩ := himage
        refine (ih (Nat.le_add_right fuel k) (hrest.imp fun x y hxy => ⟨hxy.1, hxy.2.later e⟩)
          (Json.nodup_insertField hname image hnodup)).imp fun _ images _ hg => ?_
        exact .insert hname (hmore hvalue) (hg.imp fun _ _ => hmore)

end Again

/-! ### Images for the host -/

section Host

variable {level fuel : Nat} {w w' : World} {a : Ref .record} {image : Json}
  {images : List (String × Json)}

theorem of_onFresh_ok {x : Eval α} {r : α} (h : onFresh x w = .ok (.ok r) w') :
    ∃ u, x { w with context := {} } = .ok r u ∧ w' = { u with context := w.context } := by
  obtain ⟨⟨o, c⟩, w₁, hisolated, hrest⟩ := of_bind_ok h
  cases hx : x { w with context := {} } with
  | ok b u =>
    rw [Eval.isolated_ok hx] at hisolated
    cases hisolated
    cases hrest
    exact ⟨u, rfl, rfl⟩
  | error i u =>
    simp only [Eval.isolated, hx] at hisolated
    cases i <;> cases hisolated <;> cases hrest

/-- The image of a record is made of the images of its fields. -/
theorem image_record {ev : Evaluator}
    (hforce : ev.force (.record a) w = .ok (.record a) w)
    (himage : Image.value ev fuel (.record a) w = .ok image w') :
    ∃ k images, fuel = k + 1 ∧ image = .obj images ∧
      Image.fields ev k [] (w.heap.record a).fields w = .ok images w' := by
  cases fuel with
  | zero => cases himage
  | succ k =>
    rw [Image.value] at himage
    have hrest := (bind_ok hforce).symm.trans himage
    obtain ⟨h, u, hheap, hrest⟩ := of_bind_ok hrest
    cases hheap
    obtain ⟨images, u, hfields, hrest⟩ := of_bind_ok hrest
    cases hrest
    exact ⟨k, images, rfl, rfl, hfields⟩

/-- The image of a record has one field for each name, with the image of the value that the name
stands for. -/
theorem toJson_record (hlevel : 1 < level)
    (himage : toJson level (.record a) w = .ok (.ok image) w') :
    ∃ images, image = .obj images ∧
      Gathered (Imaged (evaluator level) level w.heap w'.heap) [] (w.heap.record a).fields
        images := by
  obtain ⟨u, hvalue, rfl⟩ := of_onFresh_ok himage
  have hforce : (evaluator level).force (.record a) { w with context := {} } =
      .ok (.record a) { w with context := {} } := evaluator_force hlevel rfl rfl
  obtain ⟨k, images, hk, rfl, hfields⟩ := image_record hforce hvalue
  refine ⟨images, rfl, ?_⟩
  have hgathered := fields_gathered (fun v => engine_evolves _ _) hfields List.nodup_nil
  exact hgathered.imp fun _ _ himaged => himaged.mono (hk ▸ Nat.le_succ k) .refl

/-- The images in the image of a record can be taken again when it is done. -/
theorem toJson_record_again (hlevel : 0 < level) (hclosed : w.heap.closed = true)
    (ha : w.heap.has (.record a) = true)
    (himage : onFresh (Image.value (forcesOf level).guarded level (.record a)) w =
      .ok (.ok (.obj images)) w') :
    toJson (level + 1) (.record a) w = .ok (.ok (.obj images)) w' ∧
      ∃ enough, ∀ level', enough ≤ level' →
        Gathered (fun v image => toJson level' v w' = .ok (.ok image) w') []
          (w.heap.record a).fields images := by
  obtain ⟨u, hvalue, rfl⟩ := of_onFresh_ok himage
  constructor
  · have hguard : Parallel .none (forcesOf level).guarded (forcesOf level) _ _ :=
      .image (Nat.le_refl level) (Nat.le_refl level) (.record a)
    have hmore : Parallel .none (forcesOf level) (evaluator (level + 1)) _ _ :=
      .image (Nat.le_succ level) (Nat.le_succ level) (.record a)
    have hsame (v : Value) : Approximates ((forcesOf level).force v)
        ((evaluator (level + 1)).force v) := .refl _
    exact onFresh_ok ((hmore.approximates hsame).eq_ok (hguard.ok_of_guarded hvalue))
  · have hforce : (forcesOf level).guarded.force (.record a) { w with context := {} } =
        .ok (.record a) { w with context := {} } := by
      refine (bind_ok (forcesOf_leaves hlevel _ _ rfl rfl)).trans ((bind_ok rfl).trans ?_)
      rw [if_pos hclosed]
      rfl
    obtain ⟨k, images, hk, heq, hfields⟩ := image_record hforce hvalue
    cases heq
    have e : w.heap.Evolves u.heap :=
      ((guardedImages_evolve level k).2.2 _ _ { w with context := {} }).of_ok hfields trivial
    -- the host asks again on a context of its own, and finds the heap as the first time left it
    let again : World := { u with context := {} }
    have hreflects : u.heap.Reflects again.heap := .refl _
    refine ⟨level + u.heap.thunks.size + 3, fun level' hlevel' => ?_⟩
    obtain ⟨n, rfl⟩ : ∃ n, level' = n + 1 := ⟨level' - 1, by omega⟩
    have hread : (evaluator (n + 1)).Reads again :=
      force_reads (engine n) rfl n (show u.heap.thunks.size + 1 < n by omega)
    have hmet : Met u.heap again.heap (.record a) w.heap (.record a) (.record a) :=
      ⟨ha, .refl, rfl⟩
    have hnodup : (([] : List (String × Json)).map (·.1)).Nodup := List.nodup_nil
    have hrepeats := fieldImages_again hread hreflects (show level ≤ n + 1 by omega)
      (show k ≤ n + 1 by omega) (hmet.record hreflects hclosed e) hnodup
    obtain ⟨-, _, -, hgathered⟩ :=
      hrepeats.again { w with context := {} } images u hfields .refl hclosed .refl
    have hrecord : again.heap.record a = w.heap.record a := e.retains.record_eq ha
    rw [hrecord] at hgathered
    exact hgathered.imp fun v image hagain => onFresh_ok (u := again) hagain

end Host

end LazyMachine
