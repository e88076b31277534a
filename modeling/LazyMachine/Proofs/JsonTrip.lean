import LazyMachine.Proofs.CanonicalJson
import LazyMachine.Proofs.Images

/-!
# JSON through values and back

A JSON value whose numbers are integers of 64 bits or finite doubles becomes a value whose image is
that JSON value. Objects become records and come back with the same values under the same names.

`Heap.HasImage h v j` says that the image of `v` is `j`, on every heap that has the objects of `h`
and at every level and with any amount of fuel that are high enough. It holds of what a JSON value
becomes, by induction on the JSON value: each part keeps its image while the others are made.
-/

namespace LazyMachine

variable {h k : Heap} {v : Value} {j : Json} {vs : List Value} {js : List Json}

/-! ### Images that last -/

/-- The walk has the outcome `a` on every live world that has the objects of `h`, and changes
nothing there, at all levels and with all amounts of fuel from some on. -/
def Lasting {α : Type} (h : Heap) (walk : Evaluator → Nat → Eval α) (a : α) : Prop :=
  ∃ enough, ∀ level fuel, enough ≤ level → enough ≤ fuel → ∀ u : World, h.Retains u.heap →
    u.context.interrupt? = none → walk (evaluator level) fuel u = .ok a u

namespace Lasting

variable {α β : Type} {walk : Evaluator → Nat → Eval α} {a : α}

/-- What lasts from a heap on lasts from later ones on. -/
theorem retains (hwalk : Lasting h walk a) (hk : h.Retains k) : Lasting k walk a := by
  obtain ⟨enough, hwalk⟩ := hwalk
  exact ⟨enough, fun level fuel hlevel hfuel u hu => hwalk level fuel hlevel hfuel u (hk.trans hu)⟩

theorem pure (a : α) : Lasting h (fun _ _ => Pure.pure a) a :=
  ⟨0, fun _ _ _ _ _ _ _ => rfl⟩

/-- With one more unit of fuel. -/
theorem succ (hwalk : Lasting h (fun ev fuel => walk ev (fuel + 1)) a) : Lasting h walk a := by
  obtain ⟨enough, hwalk⟩ := hwalk
  refine ⟨enough + 1, fun level fuel hlevel hfuel u hu hlive => ?_⟩
  obtain ⟨n, rfl⟩ := Nat.exists_eq_add_of_le' (Nat.le_of_add_left_le hfuel)
  exact hwalk level n (by omega) (by omega) u hu hlive

/-- Walks that last may follow each other. -/
theorem bind {next : Evaluator → Nat → α → Eval β} {b : β} (hwalk : Lasting h walk a)
    (hnext : Lasting h (fun ev fuel => next ev fuel a) b) :
    Lasting h (fun ev fuel => walk ev fuel >>= next ev fuel) b := by
  obtain ⟨n, hwalk⟩ := hwalk
  obtain ⟨m, hnext⟩ := hnext
  refine ⟨max n m, fun level fuel hlevel hfuel u hu hlive => ?_⟩
  refine (bind_ok (hwalk level fuel (by omega) (by omega) u hu hlive)).trans ?_
  exact hnext level fuel (by omega) (by omega) u hu hlive

/-- What is not lazy is forced at once. -/
theorem force (hv : v.isLazy = false) : Lasting h (fun ev _ => ev.force v) v :=
  ⟨2, fun _ _ hlevel _ _ _ hlive => evaluator_force hlevel hlive hv⟩

/-- The heads of cells in a row are collected. -/
theorem collect {first : Option (Ref .cell)} (hcells : h.Chain first vs none) :
    Lasting h (fun ev _ => Spine.collect ev first) vs := by
  refine ⟨vs.length + 2, fun level fuel hlevel _ u hu hlive => ?_⟩
  have hwalks : Spine.Walks (evaluator level) u first vs u none :=
    (hcells.retains hu).walks (by omega) hlive
  exact hwalks.collect_ok (show vs.length < level by omega)

/-- A record that was there is there. -/
theorem record {r : Ref .record} (hr : h.has (.record r) = true)
    {f : Evaluator → Nat → Record → Eval α}
    (hf : Lasting h (fun ev fuel => f ev fuel (h.record r)) a) :
    Lasting h (fun ev fuel => Eval.heap >>= fun k => f ev fuel (k.record r)) a := by
  obtain ⟨n, hf⟩ := hf
  refine ⟨n, fun level fuel hlevel hfuel u hu hlive => ?_⟩
  have hheap : Eval.heap u = .ok u.heap u := rfl
  refine (bind_ok hheap).trans ?_
  rw [hu.record_eq hr]
  exact hf level fuel hlevel hfuel u hu hlive

end Lasting

/-- The image of `v` is `j` from the heap `h` on. -/
abbrev Heap.HasImage (h : Heap) (v : Value) (j : Json) : Prop :=
  Lasting h (fun ev fuel => Image.value ev fuel v) j

/-- The images of items last if those of each do. -/
theorem lasting_items (hvs : List.Forall₂ h.HasImage vs js) :
    Lasting h (fun ev fuel => Image.items ev fuel vs) js := by
  induction hvs with
  | nil => exact .succ (.pure [])
  | cons hv _ ih => exact .succ (.bind hv (.bind ih (.pure _)))

/-- The images of fields in order are added at the end, one after the other. -/
theorem lasting_fields {fields : List (String × Value)} {images gathered : List (String × Json)}
    (hfields : List.Forall₂ (fun x y => x.1 = y.1 ∧ h.HasImage x.2 y.2) fields images)
    (hnames : ((gathered ++ images).map (·.1)).Pairwise (· < ·)) :
    Lasting h (fun ev fuel => Image.fields ev fuel gathered fields) (gathered ++ images) := by
  induction hfields generalizing gathered with
  | nil =>
    rw [List.append_nil]
    exact .succ (.pure gathered)
  | @cons x y xs ys hxy _ ih =>
    obtain ⟨name, v⟩ := x
    obtain ⟨other, image⟩ := y
    obtain ⟨rfl, himage⟩ := hxy
    -- names come in order, so this one is new and goes to the end
    have hlt := Json.lt_of_pairwise hnames
    have hnew : gathered.any (·.1 = name) = false := by
      simp only [List.any_eq_false, decide_eq_true_eq]
      exact fun x hx => (hlt x.1 (List.mem_map_of_mem hx)).ne
    have hgathered : Json.insertField name image gathered ++ ys =
        gathered ++ (name, image) :: ys := by
      rw [Json.insertField_of_lt hlt, List.append_assoc]
      rfl
    have hrest := ih (hgathered ▸ hnames)
    rw [hgathered] at hrest
    refine .succ ?_
    simp only [Image.fields, hnew]
    exact .bind himage hrest

/-- A chain of cells has the list of the images. -/
theorem hasImage_list {first : Option (Ref .cell)} (hcells : h.Chain first vs none)
    (hvs : List.Forall₂ h.HasImage vs js) : h.HasImage (.list first) (.arr js) := by
  refine .succ ?_
  simp only [Image.value]
  exact .bind (.force rfl) (.bind (.collect hcells) (.bind (lasting_items hvs) (.pure _)))

/-- A record has the object of the images, if its names are in order. -/
theorem hasImage_record {r : Ref .record} {images : List (String × Json)}
    (hr : h.has (.record r) = true)
    (hfields : List.Forall₂ (fun x y => x.1 = y.1 ∧ h.HasImage x.2 y.2) (h.record r).fields images)
    (hnames : (images.map (·.1)).Pairwise (· < ·)) : h.HasImage (.record r) (.obj images) := by
  refine .succ ?_
  simp only [Image.value]
  refine .bind (.force rfl) ?_
  refine .record hr (f := fun ev fuel record => Image.fields ev fuel [] record.fields >>=
    fun images => pure (Json.obj images)) (.bind ?_ (.pure _))
  exact lasting_fields hfields hnames

/-! ### Values of JSON values -/

/-- A number that fits 32 bits is kept. -/
theorem toInt_ofInt_of_fits {n : Int} (hn : Word.fits 32 n = true) : (Int32.ofInt n).toInt = n := by
  rw [Word.fits, Bool.and_eq_true, decide_eq_true_eq, decide_eq_true_eq] at hn
  exact Int32.toInt_ofInt_of_le hn.1 hn.2

/-- A number that fits 64 bits is kept. -/
theorem toInt_ofInt_of_fits_long {n : Int} (hn : Word.fits 64 n = true) :
    (Int64.ofInt n).toInt = n := by
  rw [Word.fits, Bool.and_eq_true, decide_eq_true_eq, decide_eq_true_eq] at hn
  exact Int64.toInt_ofInt_of_le hn.1 hn.2

/-- A number is an integer of 64 bits or a finite double. -/
def Json.Exact : Json → Prop
  | .int n => Word.fits 64 n = true
  | .float x => ∃ negative mantissa exponent narrow,
      Decimal.Number.ofDouble x = .finite negative mantissa exponent narrow
  | _ => True

/-- The image of a scalar that a JSON value may become. -/
def Value.scalarImage? : Value → Option Json
  | .unit => some .null
  | .bool b => some (.bool b)
  | .int i => some (.int i.toInt)
  | .long i => some (.int i.toInt)
  | .double x => some (Image.ofDouble x)
  | .str s => some (.str s.text)
  | _ => none

/-- A scalar has its image on every heap. -/
theorem hasImage_scalar (hv : v.scalarImage? = some j) : h.HasImage v j := by
  cases v <;> cases hv
  all_goals
    refine .succ ?_
    simp only [Image.value]
    exact .bind (.force rfl) (.pure _)

/-- The JSON value becomes a value of which it is the image. -/
def Json.Returns (j : Json) : Prop :=
  ∀ w : World, ∃ v k, Image.toValue j w = .ok v (w.withHeap k) ∧ w.heap.Retains k ∧ k.HasImage v j

namespace Json.Returns

/-- A scalar becomes a value that needs no heap. -/
theorem of_scalar {j : Json} {v : Value} (hv : Image.toValue j = pure v)
    (himage : v.scalarImage? = some j) : j.Returns :=
  fun w => ⟨v, w.heap, congrFun hv w, .refl _, hasImage_scalar himage⟩

/-- An integer becomes one of the class that holds it, and is the same number there. -/
theorem int {n : Int} (hn : Word.fits 64 n = true) : (Json.int n).Returns := by
  by_cases hsmall : Word.fits 32 n = true
  · refine of_scalar (v := .int (Int32.ofInt n)) (by rw [Image.toValue, if_pos hsmall]) ?_
    rw [Value.scalarImage?, toInt_ofInt_of_fits hsmall]
  · refine of_scalar (v := .long (Int64.ofInt n))
      (by rw [Image.toValue, if_neg hsmall, if_pos hn]) ?_
    rw [Value.scalarImage?, toInt_ofInt_of_fits_long hn]

/-- An exact float returns. -/
theorem float {x : Float} (hx : (Json.float x).Exact) : (Json.float x).Returns := by
  obtain ⟨negative, mantissa, exponent, narrow, hfinite⟩ := hx
  refine of_scalar (v := .double x) rfl ?_
  rw [Value.scalarImage?, Image.ofDouble, hfinite]

/-- A string takes a stamp. -/
theorem str (text : String) : (Json.str text).Returns :=
  fun w => ⟨_, w.heap.freshStamp.2, rfl, w.heap.extends_freshStamp.toRetains, hasImage_scalar rfl⟩

/-- Items return one after the other. -/
theorem items {items : List Json} (hitems : ∀ j ∈ items, j.Returns) (w : World) :
    ∃ vs k, Image.toValues items w = .ok vs (w.withHeap k) ∧ w.heap.Retains k ∧
      List.Forall₂ k.HasImage vs items := by
  induction items generalizing w with
  | nil => exact ⟨[], w.heap, rfl, .refl _, .nil⟩
  | cons j js ih =>
    obtain ⟨hj, hrest⟩ := List.forall_mem_cons.mp hitems
    obtain ⟨v, k, hvalue, hk, himage⟩ := hj w
    obtain ⟨vs, l, hvalues, hl, himages⟩ := ih hrest (w.withHeap k)
    refine ⟨v :: vs, l, (bind_ok hvalue).trans (bind_ok hvalues), hk.trans hl, ?_⟩
    exact .cons (himage.retains hl) himages

/-- So do fields. -/
theorem fields {fields : List (String × Json)} (hfields : ∀ x ∈ fields, x.2.Returns) (w : World) :
    ∃ vs k, Image.toFields fields w = .ok vs (w.withHeap k) ∧ w.heap.Retains k ∧
      List.Forall₂ (fun x y => x.1 = y.1 ∧ k.HasImage x.2 y.2) vs fields := by
  induction fields generalizing w with
  | nil => exact ⟨[], w.heap, rfl, .refl _, .nil⟩
  | cons x xs ih =>
    obtain ⟨name, j⟩ := x
    obtain ⟨hj, hrest⟩ := List.forall_mem_cons.mp hfields
    obtain ⟨v, k, hvalue, hk, himage⟩ := hj w
    obtain ⟨vs, l, hvalues, hl, himages⟩ := ih hrest (w.withHeap k)
    refine ⟨(name, v) :: vs, l, (bind_ok hvalue).trans (bind_ok hvalues), hk.trans hl, ?_⟩
    exact .cons ⟨rfl, himage.retains hl⟩ himages

/-- An array returns if its items do. -/
theorem arr {items : List Json} (hitems : ∀ j ∈ items, j.Returns) : (Json.arr items).Returns := by
  intro w
  obtain ⟨vs, k, hvalues, hk, himages⟩ := Returns.items hitems w
  obtain ⟨first, l, hprepend, hpads, hcells⟩ := prepend_ok vs none (w.withHeap k)
  refine ⟨.list first, l, (bind_ok hvalues).trans (bind_ok hprepend), hk.trans hpads.toRetains, ?_⟩
  exact hasImage_list hcells (himages.imp fun _ _ himage => himage.retains hpads.toRetains)

/-- An object in order returns if its fields do. -/
theorem obj {fields : List (String × Json)} (hfields : ∀ x ∈ fields, x.2.Returns)
    (hnames : (fields.map (·.1)).Pairwise (· < ·)) : (Json.obj fields).Returns := by
  intro w
  obtain ⟨vs, k, hvalues, hk, himages⟩ := Returns.fields hfields w
  have hl := (k.extends_addRecord ⟨vs⟩).toRetains
  refine ⟨.record ⟨k.records.size⟩, (k.addRecord ⟨vs⟩).2, bind_ok hvalues, hk.trans hl, ?_⟩
  refine hasImage_record ?_ ?_ hnames
  · simp [Heap.has, Heap.addRecord]
  · rw [k.record_addRecord]
    exact himages.imp fun _ _ hxy => ⟨hxy.1, hxy.2.retains hl⟩

end Json.Returns

/-- Values in order come back as they are. -/
theorem Json.returns (hexact : j.Every Json.Exact) (hordered : j.Ordered) : j.Returns := by
  induction j using Json.induction with
  | step j ih =>
    have ih : ∀ k ∈ j.parts, k.Returns := fun k hk => ih k hk (hexact.part hk) (hordered.part hk)
    cases j with
    | null => exact .of_scalar (v := .unit) rfl rfl
    | bool b => exact .of_scalar (v := .bool b) rfl rfl
    | int n => exact .int hexact.here
    | float x => exact .float hexact.here
    | str text => exact .str text
    | arr items => exact .arr ih
    | obj fields => exact .obj (fun x hx => ih x.2 (List.mem_map_of_mem hx)) hordered.here

/-- The canonical form of an exact value is exact. -/
theorem Json.exact_canonical (hexact : j.Every Json.Exact) : j.canonical.Every Json.Exact := by
  refine hexact.canonical fun k hk => ?_
  cases k with
  | int n => exact hk
  | float x => exact hk
  | _ => trivial

/-- Numbers are exact and no object has two fields of one name. -/
def Json.Storable : Json → Prop :=
  Json.Every fun j => j.Exact ∧ j.names.Nodup

/-- A JSON value whose numbers are exact and whose objects have each name once becomes a value, from
every world. The image of this value, at every level that is high enough and on every later heap, is
the same JSON value with its fields in order; if they were in order before, it is just the JSON
value. -/
theorem json_returns {j : Json} (hj : j.Storable) (w : World) :
    ∃ v w₁ image, ofJson j w = .ok v w₁ ∧ image.Ordered ∧ j.Same image ∧ (j.Ordered → image = j) ∧
      ∃ enough, ∀ level, enough ≤ level → ∀ u : World, w₁.heap.Retains u.heap →
        toJson level v u = .ok (.ok image) u := by
  have hexact : j.Every Json.Exact := hj.imp fun _ hk => hk.1
  have hunique : j.Unique := hj.imp fun _ hk => hk.2
  have hreturns := Json.returns (Json.exact_canonical hexact) (Json.ordered_canonical j)
  obtain ⟨v, k, hvalue, -, enough, himage⟩ := hreturns w
  refine ⟨v, w.withHeap k, j.canonical, hvalue, Json.ordered_canonical j,
    Json.same_canonical hunique, Json.canonical_of_ordered, enough, ?_⟩
  intro level hlevel u hu
  let fresh : World := { u with context := {} }
  exact onFresh_ok (u := fresh) (himage level level hlevel hlevel fresh hu rfl)

/-- An object with an integer of each class, in a list. -/
def nestedJson : Json :=
  .obj [("a", .obj []), ("b", .arr [.int 1, .null, .int 5000000000])]

/-- What holds of its parts holds all through the nested value. -/
theorem nestedJson_every {P : Json → Prop} (hroot : P nestedJson) (hempty : P (.obj []))
    (hitems : P (.arr [.int 1, .null, .int 5000000000])) (hnull : P .null) (hint : P (.int 1))
    (hlong : P (.int 5000000000)) : nestedJson.Every P := by
  have hleaf {j : Json} (hj : P j) (hparts : j.parts = []) : j.Every P :=
    .intro hj (by simp [hparts])
  refine .intro hroot ?_
  simp only [nestedJson, Json.parts, List.map_cons, List.map_nil, List.forall_mem_cons]
  refine ⟨hleaf hempty rfl, .intro hitems ?_, by simp⟩
  simp only [Json.parts, List.forall_mem_cons]
  exact ⟨hleaf hint rfl, hleaf hnull rfl, hleaf hlong rfl, by simp⟩

theorem json_returns_nested :
    ∃ v w₁, ofJson nestedJson {} = .ok v w₁ ∧
      ∃ enough, ∀ level, enough ≤ level → toJson level v w₁ = .ok (.ok nestedJson) w₁ := by
  have hstorable : nestedJson.Storable := by
    refine nestedJson_every ?_ ?_ ?_ ?_ ?_ ?_ <;> exact ⟨by trivial, by decide⟩
  have hordered : nestedJson.Ordered := by
    refine nestedJson_every ?_ ?_ ?_ ?_ ?_ ?_ <;> decide
  obtain ⟨v, w₁, image, hvalue, -, -, hsame, enough, himage⟩ := json_returns hstorable {}
  cases hsame hordered
  exact ⟨v, w₁, hvalue, enough, fun level hlevel => himage level hlevel w₁ (.refl _)⟩

end LazyMachine
