import LazyMachine.Proofs.Images

/-!
# Fields of records

A key of a record is a name or an ordinal (`FieldKey`). A name stands for the first field that has
it, an ordinal for the field at that position (`Record.Addresses`). Reading and writing look at the
same position: `getValue_record` and `setValue_record` both say what happens in terms of
`Record.locate?`, and all laws of reading after writing follow from what replacing one position does
to the others.
-/

namespace LazyMachine

/-! ### Positions in a record -/

namespace Record

variable {r updated : Record} {name : String} {i j : Nat} {key v : Value}

/-- The names of the fields, in order. -/
def names (r : Record) : List String :=
  r.fields.map (·.1)

/-- The position that a key stands for: of a name the first field that has it, of an ordinal the
field there. -/
inductive Addresses (r : Record) : Value → Nat → Prop
  | name {s : Str} {i : Nat} (hi : r.nameAt? i = some s.text)
      (hfirst : ∀ j < i, r.nameAt? j ≠ some s.text) : Addresses r (.str s) i
  | ordinal {key : Value} {i : Nat} (hkey : ordinal? key = some (i : Int)) (hi : i < r.length) :
      Addresses r key i

/-- A record has as many names as fields. -/
theorem names_length (r : Record) : r.names.length = r.length :=
  List.length_map _

/-- The name at a position is the one in the list of names. -/
theorem nameAt?_eq (r : Record) (i : Nat) : r.nameAt? i = r.names[i]? :=
  (List.getElem?_map ..).symm

/-- The position of a name is the first that has it. -/
theorem position?_eq_some_iff :
    r.position? name = some i ↔ r.nameAt? i = some name ∧ ∀ j < i, r.nameAt? j ≠ some name := by
  rw [position?, List.findIdx?_eq_some_iff_getElem]
  constructor
  · rintro ⟨hi, hname, hbefore⟩
    refine ⟨?_, fun j hj hname => hbefore j hj ?_⟩
    · simpa [nameAt?, hi] using hname
    · simpa [nameAt?, hj.trans hi] using hname
  · rintro ⟨hname, hbefore⟩
    have hi : i < r.fields.length := by
      by_contra hge
      simp [nameAt?, hge] at hname
    refine ⟨hi, by simpa [nameAt?, hi] using hname, fun j hj hj' => hbefore j hj ?_⟩
    simpa [nameAt?, hj.trans hi] using hj'

/-- The lookup by name sees the field at the position of the name. -/
theorem get?_eq (r : Record) (name : String) : r.get? name = (r.position? name).bind r.at? := by
  obtain ⟨fields⟩ := r
  induction fields with
  | nil => rfl
  | cons x xs ih =>
    by_cases hx : x.1 = name
    · simp [get?, position?, at?, List.findIdx?_cons, hx]
    · simp only [get?, position?, List.find?_cons, List.findIdx?_cons, hx, decide_false] at ih ⊢
      rw [ih]
      cases List.findIdx? (fun x => decide (x.1 = name)) xs <;> simp [at?]

/-! ### Replacing a field -/

/-- Two records are the same if they have the same names and values at all positions. -/
theorem ext_at (hlength : updated.length = r.length) (hnames : updated.names = r.names)
    (hvalues : ∀ i, updated.at? i = r.at? i) : updated = r := by
  obtain ⟨fields⟩ := r
  obtain ⟨fields'⟩ := updated
  congr 1
  refine List.ext_getElem hlength fun i hi hi' => Prod.ext ?_ ?_
  · have hname := congrArg (·[i]?) hnames
    simpa [names, hi, hi'] using hname
  · simpa [at?, hi, hi'] using hvalues i

/-- Replacing the value at a position leaves the names and all other values. -/
structure Replaces (r : Record) (i : Nat) (v : Value) (updated : Record) : Prop where
  names : updated.names = r.names
  written : updated.at? i = some v
  others : ∀ j, j ≠ i → updated.at? j = r.at? j

/-- There is nothing to replace beyond the last field. -/
theorem setAt?_eq_none_iff : r.setAt? i v = none ↔ r.length ≤ i := by
  unfold setAt?
  split
  · next h =>
    obtain ⟨hi, -⟩ := List.getElem?_eq_some_iff.mp h
    simpa [length] using hi
  · next h => simpa [length] using h

/-- Setting the value at a position replaces it and nothing else. -/
theorem replaces_of_setAt? (h : r.setAt? i v = some updated) : r.Replaces i v updated := by
  unfold setAt? at h
  split at h
  · next name x hx =>
    cases h
    obtain ⟨hi, hx⟩ := List.getElem?_eq_some_iff.mp hx
    refine ⟨?_, ?_, fun j hj => ?_⟩
    · -- the field keeps its name, so the list of names is set where it has that name
      have hi' : i < (r.fields.map (·.1)).length := by simpa using hi
      have hname : (r.fields.map (·.1))[i] = name := by rw [List.getElem_map, hx]
      rw [names, List.map_set, ← hname, List.set_getElem_self, names]
    · simp [at?, hi]
    · simp [at?, List.getElem?_set_ne (Ne.symm hj)]
  · cases h

namespace Replaces

variable {u u' : Record} {v' : Value}

theorem length (h : r.Replaces i v u) : u.length = r.length := by
  rw [← names_length, h.names, names_length]

/-- The last of two values written at a position counts. -/
theorem twice (h : r.Replaces i v updated) (hu : updated.Replaces i v' u)
    (hu' : r.Replaces i v' u') : u = u' := by
  apply ext_at
  · rw [hu.length, h.length, hu'.length]
  · rw [hu.names, h.names, hu'.names]
  · intro j
    by_cases hj : j = i
    · rw [hj, hu.written, hu'.written]
    · rw [hu.others j hj, h.others j hj, hu'.others j hj]

/-- Writing what is there already changes nothing. -/
theorem back (h : r.Replaces i v updated) (hv : r.at? i = some v) : updated = r := by
  apply ext_at h.length h.names
  intro j
  by_cases hj : j = i
  · rw [hj, h.written, hv]
  · exact h.others j hj

end Replaces

/-! ### Looking for a key -/

/-- The position that a key stands for, if it has one. -/
def locate? (r : Record) (key : Value) : Option Nat :=
  match key with
  | .str s => r.position? s.text
  | _ => ((ordinal? key).bind LazyMachine.position?).filter (· < r.length)

/-- An ordinal stands for the field at its position, if there is one. -/
theorem locate?_ordinal {i : Int} (hkey : ordinal? key = some i) :
    r.locate? key = (LazyMachine.position? i).filter (· < r.length) := by
  unfold locate?
  split
  · cases hkey
  · rw [hkey]
    rfl

/-- Positions beyond the last need not be sorted out before looking there. -/
theorem filter_bind {α : Type} {f : Nat → Option α} (hf : ∀ i, r.length ≤ i → f i = none)
    (i : Option Nat) : (i.filter (· < r.length)).bind f = i.bind f := by
  cases i with
  | none => rfl
  | some i =>
    rw [Option.filter_some]
    by_cases hi : i < r.length
    · rw [if_pos (by simpa using hi)]
    · rw [if_neg (by simpa using hi), Option.bind_some, hf i (Nat.le_of_not_lt hi)]
      rfl

/-- There is no value beyond the last field. -/
theorem at?_eq_none_iff : r.at? i = none ↔ r.length ≤ i := by
  simp [at?, length]

/-- The position found is the one that the key stands for. -/
theorem locate?_eq_some_iff : r.locate? key = some i ↔ r.Addresses key i := by
  constructor
  · intro h
    unfold locate? at h
    split at h
    · obtain ⟨hname, hfirst⟩ := position?_eq_some_iff.mp h
      exact .name hname hfirst
    · simp only [Option.filter_eq_some_iff, Option.bind_eq_some_iff, decide_eq_true_eq,
        LazyMachine.position?] at h
      obtain ⟨⟨n, hn, hi⟩, hlt⟩ := h
      split at hi
      · next hnonneg =>
        cases hi
        exact .ordinal (by rw [hn, Int.toNat_of_nonneg hnonneg]) hlt
      · cases hi
  · rintro (⟨hname, hfirst⟩ | ⟨hkey, hi⟩)
    · exact position?_eq_some_iff.mpr ⟨hname, hfirst⟩
    · rw [locate?_ordinal hkey, position?_ofNat, Option.filter_some, if_pos (by simpa using hi)]

/-- No position is found exactly for keys that stand for none. -/
theorem locate?_eq_none_iff : r.locate? key = none ↔ ∀ i, ¬ r.Addresses key i := by
  simp [Option.eq_none_iff_forall_ne_some, locate?_eq_some_iff]

/-- A key stands for a position of the record. -/
theorem Addresses.lt (h : r.Addresses key i) : i < r.length := by
  cases h with
  | name hi _ =>
    rw [nameAt?_eq] at hi
    obtain ⟨hlt, -⟩ := List.getElem?_eq_some_iff.mp hi
    rwa [names_length] at hlt
  | ordinal _ hi => exact hi

/-- The value at the position that a key stands for. -/
def valueAt? (r : Record) (key : Value) : Option Value :=
  (r.locate? key).bind r.at?

/-- A name has the value of its first field. -/
theorem valueAt?_name (r : Record) (s : Str) : r.valueAt? (.str s) = r.get? s.text :=
  (r.get?_eq s.text).symm

/-- An ordinal has the value at its position. -/
theorem valueAt?_ordinal (hkey : ordinal? key = some (i : Int)) : r.valueAt? key = r.at? i := by
  rw [valueAt?, locate?_ordinal hkey, filter_bind fun _ => at?_eq_none_iff.mpr,
    position?_ofNat, Option.bind_some]

/-- No value is found exactly for keys that stand for no position. -/
theorem valueAt?_eq_none_iff : r.valueAt? key = none ↔ ∀ i, ¬ r.Addresses key i := by
  rw [← locate?_eq_none_iff, valueAt?]
  cases h : r.locate? key with
  | none => simp
  | some i =>
    have hi := (locate?_eq_some_iff.mp h).lt
    simpa [at?_eq_none_iff] using hi

/-- What a key stands for is told by the names. -/
theorem Addresses.congr (h : r.Addresses key i) (hnames : updated.names = r.names) :
    updated.Addresses key i := by
  have hname (j : Nat) : updated.nameAt? j = r.nameAt? j := by rw [nameAt?_eq, nameAt?_eq, hnames]
  cases h with
  | name hi hfirst => exact .name (by rw [hname, hi]) fun j hj => by rw [hname]; exact hfirst j hj
  | ordinal hkey hi =>
    exact .ordinal hkey (by rwa [← names_length, hnames, names_length])

/-- Where a key stands depends on the names only. -/
theorem locate?_congr (hnames : updated.names = r.names) (key : Value) :
    updated.locate? key = r.locate? key := by
  refine Option.ext fun i => ?_
  rw [locate?_eq_some_iff, locate?_eq_some_iff]
  exact ⟨fun h => h.congr hnames.symm, fun h => h.congr hnames⟩

/-- Keys that stand for other positions have the values that they had. -/
theorem Replaces.valueAt?_eq (h : r.Replaces i v updated) (hkey : ¬ r.Addresses key i) :
    updated.valueAt? key = r.valueAt? key := by
  rw [valueAt?, valueAt?, locate?_congr h.names]
  cases hj : r.locate? key with
  | none => rfl
  | some j =>
    refine h.others j ?_
    rintro rfl
    exact hkey (locate?_eq_some_iff.mp hj)

/-- Keys that stand for the position have the new value. -/
theorem Replaces.valueAt?_self (h : r.Replaces i v updated) (hkey : r.Addresses key i) :
    updated.valueAt? key = some v := by
  rw [valueAt?, locate?_congr h.names, locate?_eq_some_iff.mpr hkey]
  exact h.written

/-! ### Fields of two records -/

/-- Joined records have the fields of both. -/
theorem length_append (r s : Record) : (r.append s).length = r.length + s.length :=
  List.length_append

/-- The first positions of joined records are those of the first. -/
theorem at?_append_left (s : Record) (hi : i < r.length) : (r.append s).at? i = r.at? i := by
  rw [at?, append, List.getElem?_append_left hi, at?]

/-- The later positions of joined records are those of the second. -/
theorem at?_append_right (r s : Record) (i : Nat) :
    (r.append s).at? (r.length + i) = s.at? i := by
  rw [at?, append, length, List.getElem?_append_right (Nat.le_add_right _ _),
    Nat.add_sub_cancel_left, at?]

/-- A name is looked for in the one record first. -/
theorem get?_append (r s : Record) (name : String) :
    (r.append s).get? name = if name ∈ r.names then r.get? name else s.get? name := by
  have hfind : r.fields.find? (·.1 = name) = none ↔ name ∉ r.names := by
    simp only [names, List.find?_eq_none, decide_eq_true_eq, List.mem_map, not_exists, not_and]
  rw [get?, append, List.find?_append]
  split
  · next hname =>
    obtain ⟨x, hx⟩ := Option.ne_none_iff_exists'.mp fun h => hfind.mp h hname
    rw [get?, hx, Option.some_or]
  · next hname =>
    rw [hfind.mpr hname, Option.none_or, get?]

/-- Joining records is associative. -/
theorem append_assoc (r s t : Record) : (r.append s).append t = r.append (s.append t) :=
  congrArg Record.mk (List.append_assoc ..)

end Record

/-! ### Operations on records -/

/-- The keys of records, names and ordinals, with their texts in reports. -/
inductive FieldKey : Value → String → Prop
  | name (s : Str) : FieldKey (.str s) s.text
  | ordinal {key : Value} {i : Int} (hkey : ordinal? key = some i) : FieldKey key (toString i)

/-- What stands for a position is a key of records. -/
theorem Record.Addresses.fieldKey {r : Record} {key : Value} {i : Nat} (hkey : r.Addresses key i) :
    ∃ text, FieldKey key text := by
  cases hkey with
  | name _ _ => exact ⟨_, .name _⟩
  | ordinal hkey _ => exact ⟨_, .ordinal hkey⟩

/-- A record has no field at a key. -/
def noField (key : Value) (text : String) : RuntimeError :=
  .indexOutOfRange "Record" text key.typeName

section Operations

variable {ev : Evaluator} (hev : ev.Leaves) {w : World} {a : Ref .record} {key : Value}
  {text : String}

/-- Keys of records are not lazy. -/
theorem FieldKey.isLazy (hkey : FieldKey key text) : key.isLazy = false := by
  cases hkey with
  | name s => rfl
  | ordinal h => exact not_lazy_of_ordinal? h

include hev

/-- A key is shown by its text, without a change of the world. -/
theorem display_fieldKey (hfuel : 0 < ev.fuel) (hkey : FieldKey key text) (w : World) :
    display ev key w = .ok text w := by
  cases hkey with
  | ordinal h => exact display_ordinal hev hfuel h w
  | name s =>
    obtain ⟨n, hn⟩ := Nat.exists_eq_succ_of_ne_zero (Nat.ne_of_gt hfuel)
    have hfresh : ({ w with context := {} } : World).context.interrupt? = none := rfl
    have hrender : render ev {} (.str s) { w with context := {} } =
        .ok s.text { w with context := {} } := by
      rw [render, bind_ok (Eval.ensureLive_ok hfresh), hn, Render.value]
      exact bind_ok (hev { w with context := {} } _ hfresh rfl)
    exact bind_ok (Eval.isolated_ok hrender)

/-- A key that stands for no field is reported by its text. -/
theorem indexOutOfRange_record {α : Type} (hfuel : 0 < ev.fuel) (hkey : FieldKey key text)
    (w : World) : (indexOutOfRange ev (.record a) key : Eval α) w =
      .error .failed (w.failing (noField key text)) :=
  bind_ok (display_fieldKey hev hfuel hkey w)

variable (hlive : w.context.interrupt? = none)

include hlive

/-- Reading sees the field that the key stands for. -/
theorem getValue_record (hkey : FieldKey key text) :
    getValue ev (.record a) key w =
      foundAt ev (.record a) key ((w.heap.record a).valueAt? key) w := by
  refine (bind_ok (hev w _ hlive rfl)).trans ((bind_ok (hev w _ hlive hkey.isLazy)).trans ?_)
  cases hkey with
  | name s =>
    rw [Record.valueAt?_name]
    rfl
  | ordinal h =>
    rw [Record.valueAt?, Record.locate?_ordinal h,
      Record.filter_bind fun _ => Record.at?_eq_none_iff.mpr]
    cases key <;> cases h <;> rfl

/-- Replacing a field makes a new record or reports the key. -/
theorem setValue_record (hkey : FieldKey key text) (item : Value) :
    setValue ev (.record a) key item w =
      (((w.heap.record a).locate? key).bind ((w.heap.record a).setAt? · item)).elim
        (indexOutOfRange ev (.record a) key) Eval.makeRecord w := by
  refine (bind_ok (hev w _ hlive rfl)).trans ((bind_ok (hev w _ hlive hkey.isLazy)).trans ?_)
  generalize hupdated : ((w.heap.record a).locate? key).bind ((w.heap.record a).setAt? · item) =
    updated
  cases hkey with
  | name s =>
    simp only [Record.locate?] at hupdated
    refine (bind_ok rfl).trans ?_
    simp only [hupdated]
    cases updated <;> rfl
  | ordinal h =>
    rw [Record.locate?_ordinal h, Record.filter_bind fun _ => Record.setAt?_eq_none_iff.mpr]
      at hupdated
    cases key <;> cases h <;> refine (bind_ok rfl).trans ?_ <;> simp only [hupdated] <;>
      cases updated <;> rfl

end Operations

/-- A new record is added to the heap, and nothing else changes. -/
theorem makeRecord_ok (r : Record) (w : World) :
    ∃ b k, Eval.makeRecord r w = .ok (.record b) (w.withHeap k) ∧ w.heap.Extends k ∧
      k.has (.record b) = true ∧ k.record b = r := by
  refine ⟨_, _, rfl, w.heap.extends_addRecord r, ?_, ?_⟩
  · simp [Heap.has]
  · simp [Heap.record]

/-! ### The laws -/

/-- The record `b`, in the world `w'`, is what writing `v` at the position `i` of the record `a`
made, which the key stands for; nothing else has changed. -/
structure Written (level : Nat) (w : World) (a : Ref .record) (key : Value) (i : Nat) (v : Value)
    (b : Ref .record) (w' : World) : Prop where
  /-- Only objects have been added. -/
  kept : ∃ k, w.heap.Extends k ∧ w' = w.withHeap k
  original : w'.heap.record a = w.heap.record a
  replaces : (w.heap.record a).Replaces i v (w'.heap.record b)
  length : engine level (.length (.record b)) w' = engine level (.length (.record a)) w'
  get : engine level (.get (.record b) key) w' = .ok v w'
  getOther : ∀ key' text, FieldKey key' text → ¬ (w.heap.record a).Addresses key' i →
    engine level (.get (.record b) key') w' = engine level (.get (.record a) key') w'
  /-- Writing at the key once more gives what writing only the second time gives. -/
  again : ∀ v', ∃ c u d u', engine level (.set (.record b) key v') w' = .ok (.record c) u ∧
    engine level (.set (.record a) key v') w' = .ok (.record d) u' ∧
    u.heap.record c = u'.heap.record d
  /-- Writing what is there gives what was there. -/
  back : (w.heap.record a).at? i = some v → w'.heap.record b = w.heap.record a

/-- The record `c`, in the world `w'`, has the fields of `a` and after them those of `b`. -/
structure Joined (level : Nat) (w : World) (a b c : Ref .record) (w' : World) : Prop where
  kept : ∃ k, w.heap.Extends k ∧ w' = w.withHeap k
  length : (w'.heap.record c).length = (w.heap.record a).length + (w.heap.record b).length
  getName : ∀ s : Str, engine level (.get (.record c) (.str s)) w' =
    if s.text ∈ (w.heap.record a).names then engine level (.get (.record a) (.str s)) w'
    else engine level (.get (.record b) (.str s)) w'
  getLeft : ∀ (key : Value) (i : Nat), ordinal? key = some (i : Int) →
    i < (w.heap.record a).length →
    engine level (.get (.record c) key) w' = engine level (.get (.record a) key) w'
  getRight : ∀ (key key' : Value) (i : Nat),
    ordinal? key = some (((w.heap.record a).length + i : Nat) : Int) →
    ordinal? key' = some (i : Int) →
    i < (w.heap.record b).length →
    engine level (.get (.record c) key) w' = engine level (.get (.record b) key') w'

/-- The operations of a level treat a record as its fields in order. -/
structure RecordLaws (level : Nat) (w : World) (a : Ref .record) : Prop where
  /-- A key that stands for a position can be read and written. -/
  found : ∀ key i, (w.heap.record a).Addresses key i →
    ∃ x, (w.heap.record a).at? i = some x ∧ engine level (.get (.record a) key) w = .ok x w ∧
      ∀ v, ∃ b w', engine level (.set (.record a) key v) w = .ok (.record b) w' ∧
        Written level w a key i v b w'
  /-- All other keys are reported, alike when reading and when writing. -/
  missing : ∀ key text, FieldKey key text → (∀ i, ¬ (w.heap.record a).Addresses key i) →
    engine level (.get (.record a) key) w = .error .failed (w.failing (noField key text)) ∧
      ∀ v, engine level (.set (.record a) key v) w =
        .error .failed (w.failing (noField key text))
  concat : ∀ b, w.heap.has (.record b) = true →
    ∃ c w', engine level (.binary .concat (.record a) (.record b)) w = .ok (.record c) w' ∧
      Joined level w a b c w'
  concatAssoc : ∀ b c, w.heap.has (.record b) = true → w.heap.has (.record c) = true →
    ∃ ab w₁ l w₂ bc w₃ r w₄,
      engine level (.binary .concat (.record a) (.record b)) w = .ok (.record ab) w₁ ∧
      engine level (.binary .concat (.record ab) (.record c)) w₁ = .ok (.record l) w₂ ∧
      engine level (.binary .concat (.record b) (.record c)) w₂ = .ok (.record bc) w₃ ∧
      engine level (.binary .concat (.record a) (.record bc)) w₃ = .ok (.record r) w₄ ∧
      w₄.heap.record l = w₄.heap.record r
  /-- The image has one field for each name, with the image that was taken of what reading by that
  name gives. -/
  image : ∀ image w', toJson level (.record a) w = .ok (.ok image) w' →
    ∃ images, image = .obj images ∧ (images.map (·.1)).Nodup ∧
      (∀ name, name ∈ images.map (·.1) ↔ name ∈ (w.heap.record a).names) ∧
      ∀ (s : Str) (part : Json), (s.text, part) ∈ images →
        ∃ x, engine level (.get (.record a) (.str s)) w = .ok x w ∧
          Imaged (evaluator level) level w.heap w'.heap x part
  /-- If all references are to objects that have been made, then what reading by name gives has that
  image from then on, as the host is told. -/
  imageAgain : ∀ images w', w.heap.closed = true →
    onFresh (Image.value (forcesOf level).guarded level (.record a)) w =
      .ok (.ok (.obj images)) w' →
    toJson (level + 1) (.record a) w = .ok (.ok (.obj images)) w' ∧
      ∃ enough, ∀ level', enough ≤ level' →
        ∀ (s : Str) (part : Json), (s.text, part) ∈ images →
          ∃ x, engine level (.get (.record a) (.str s)) w = .ok x w ∧
            toJson level' x w' = .ok (.ok part) w'

section Levels

variable {n : Nat} (hn : 0 < n) {w : World} {a b : Ref .record} {key x v : Value}
  {text : String} {i : Nat}

include hn

section Live

variable (hlive : w.context.interrupt? = none)

include hlive

/-- The operation yields the value at the key or reports the key. -/
theorem engine_get (hkey : FieldKey key text) :
    engine (n + 1) (.get (.record a) key) w = ((w.heap.record a).valueAt? key).elim
      (.error .failed (w.failing (noField key text))) (.ok · w) := by
  refine (getValue_record (forcesOf_leaves hn) hlive hkey).trans ?_
  cases (w.heap.record a).valueAt? key with
  | none => exact indexOutOfRange_record (forcesOf_leaves hn) hn hkey w
  | some x => rfl

/-- The operation makes a record with the value replaced or reports the key. -/
theorem engine_set (hkey : FieldKey key text) (item : Value) :
    engine (n + 1) (.set (.record a) key item) w =
      (((w.heap.record a).locate? key).bind ((w.heap.record a).setAt? · item)).elim
        (.error .failed (w.failing (noField key text))) (Eval.makeRecord · w) := by
  refine (setValue_record (forcesOf_leaves hn) hlive hkey item).trans ?_
  cases ((w.heap.record a).locate? key).bind ((w.heap.record a).setAt? · item) with
  | none => exact indexOutOfRange_record (forcesOf_leaves hn) hn hkey w
  | some updated => rfl

/-- The operation makes a record of the fields of both. -/
theorem engine_concat : engine (n + 1) (.binary .concat (.record a) (.record b)) w =
    Eval.makeRecord ((w.heap.record a).append (w.heap.record b)) w := by
  have hforce (r : Ref .record) := forcesOf_leaves hn w (.record r) hlive rfl
  exact (bind_ok (Eval.ensureLive_ok hlive)).trans ((bind_ok (hforce a)).trans (bind_ok (hforce b)))

/-- The operation yields the number of fields. -/
theorem engine_length : engine (n + 1) (.length (.record a)) w =
    .ok (countValue (w.heap.record a).length) w :=
  bind_ok (forcesOf_leaves hn w (.record a) hlive rfl)

/-! ### Writing and joining -/

/-- A key that stands for a position has its value replaced in a new record. -/
theorem set_record (hkey : (w.heap.record a).Addresses key i) (v : Value) :
    ∃ updated, (w.heap.record a).Replaces i v updated ∧
      engine (n + 1) (.set (.record a) key v) w = Eval.makeRecord updated w := by
  obtain ⟨text, hfield⟩ := hkey.fieldKey
  have hlocate := Record.locate?_eq_some_iff.mpr hkey
  obtain ⟨updated, hupdated⟩ := Option.ne_none_iff_exists'.mp fun hnone =>
    Nat.not_le_of_lt hkey.lt (Record.setAt?_eq_none_iff.mp hnone)
  refine ⟨updated, Record.replaces_of_setAt? hupdated, ?_⟩
  rw [engine_set hn hlive hfield, hlocate, Option.bind_some, hupdated]
  rfl

/-- Writing at a key that stands for a position obeys the laws of replacement. -/
theorem written (ha : w.heap.has (.record a) = true)
    (hkey : (w.heap.record a).Addresses key i) (v : Value) :
    ∃ b w', engine (n + 1) (.set (.record a) key v) w = .ok (.record b) w' ∧
      Written (n + 1) w a key i v b w' := by
  obtain ⟨updated, hreplaces, hset⟩ := set_record hn hlive hkey v
  obtain ⟨b, k, hmake, hextends, -, rfl⟩ := makeRecord_ok updated w
  have hlive' : (w.withHeap k).context.interrupt? = none := hlive
  have hold : (w.withHeap k).heap.record a = w.heap.record a :=
    hextends.toRetains.record_eq ha
  have hnew : (w.withHeap k).heap.record b = k.record b := rfl
  refine ⟨b, w.withHeap k, hset.trans hmake, ?_⟩
  exact {
    kept := ⟨k, hextends, rfl⟩
    original := hold
    replaces := hreplaces
    length := by
      rw [engine_length hn hlive', engine_length hn hlive', hold, hnew, hreplaces.length]
    get := by
      obtain ⟨text, hfield⟩ := hkey.fieldKey
      rw [engine_get hn hlive' hfield, hnew, hreplaces.valueAt?_self hkey]
      rfl
    getOther := fun key' text hfield hother => by
      rw [engine_get hn hlive' hfield, engine_get hn hlive' hfield, hnew, hold,
        hreplaces.valueAt?_eq hother]
    again := fun v' => by
      -- the key stands for the same position in both records
      obtain ⟨first, hfirst, hset₁⟩ := set_record hn hlive' (hkey.congr hreplaces.names) v'
      obtain ⟨second, hsecond, hset₂⟩ := set_record hn hlive' (hold.symm ▸ hkey) v'
      obtain ⟨c, k₁, hmake₁, -, -, rfl⟩ := makeRecord_ok first (w.withHeap k)
      obtain ⟨d, k₂, hmake₂, -, -, rfl⟩ := makeRecord_ok second (w.withHeap k)
      exact ⟨c, _, d, _, hset₁.trans hmake₁, hset₂.trans hmake₂,
        hreplaces.twice hfirst (hold ▸ hsecond)⟩
    back := hreplaces.back }

/-- Joining two records makes a new one with the fields of both. -/
theorem concat_record (a b : Ref .record) :
    ∃ c k, engine (n + 1) (.binary .concat (.record a) (.record b)) w =
        .ok (.record c) (w.withHeap k) ∧ w.heap.Extends k ∧ k.has (.record c) = true ∧
      k.record c = (w.heap.record a).append (w.heap.record b) := by
  obtain ⟨c, k, hmake, hextends, hc, hnew⟩ :=
    makeRecord_ok ((w.heap.record a).append (w.heap.record b)) w
  exact ⟨c, k, (engine_concat hn hlive).trans hmake, hextends, hc, hnew⟩

/-- Joining two records obeys the laws of concatenation. -/
theorem joined (ha : w.heap.has (.record a) = true) (hb : w.heap.has (.record b) = true) :
    ∃ c w', engine (n + 1) (.binary .concat (.record a) (.record b)) w = .ok (.record c) w' ∧
      Joined (n + 1) w a b c w' := by
  obtain ⟨c, k, hconcat, hextends, -, hnew⟩ := concat_record hn hlive a b
  -- both records were there before: the union is a new record beside them
  have hlive' : (w.withHeap k).context.interrupt? = none := hlive
  have holdA : (w.withHeap k).heap.record a = w.heap.record a := hextends.toRetains.record_eq ha
  have holdB : (w.withHeap k).heap.record b = w.heap.record b := hextends.toRetains.record_eq hb
  replace hnew : (w.withHeap k).heap.record c = (w.heap.record a).append (w.heap.record b) := hnew
  refine ⟨c, w.withHeap k, hconcat, ?_⟩
  exact {
    kept := ⟨k, hextends, rfl⟩
    length := by rw [hnew, Record.length_append]
    getName := fun s => by
      have hname := FieldKey.name s
      rw [engine_get hn hlive' hname, engine_get hn hlive' hname, engine_get hn hlive' hname, hnew,
        holdA, holdB, Record.valueAt?_name, Record.get?_append, Record.valueAt?_name,
        Record.valueAt?_name]
      split <;> rfl
    getLeft := fun key i hkey hi => by
      have hfield := FieldKey.ordinal hkey
      rw [engine_get hn hlive' hfield, engine_get hn hlive' hfield, hnew, holdA,
        Record.valueAt?_ordinal hkey, Record.valueAt?_ordinal hkey, Record.at?_append_left _ hi]
    getRight := fun key key' i hkey hkey' hi => by
      obtain ⟨x, hx⟩ := Option.ne_none_iff_exists'.mp fun hnone =>
        Nat.not_le_of_lt hi (Record.at?_eq_none_iff.mp hnone)
      rw [engine_get hn hlive' (.ordinal hkey), engine_get hn hlive' (.ordinal hkey'), hnew, holdB,
        Record.valueAt?_ordinal hkey, Record.valueAt?_ordinal hkey', Record.at?_append_right, hx]
      rfl }

/-- Three records can be joined in either order. -/
theorem concat_assoc {c : Ref .record} (ha : w.heap.has (.record a) = true)
    (hb : w.heap.has (.record b) = true) (hc : w.heap.has (.record c) = true) :
    ∃ ab w₁ l w₂ bc w₃ r w₄,
      engine (n + 1) (.binary .concat (.record a) (.record b)) w = .ok (.record ab) w₁ ∧
      engine (n + 1) (.binary .concat (.record ab) (.record c)) w₁ = .ok (.record l) w₂ ∧
      engine (n + 1) (.binary .concat (.record b) (.record c)) w₂ = .ok (.record bc) w₃ ∧
      engine (n + 1) (.binary .concat (.record a) (.record bc)) w₃ = .ok (.record r) w₄ ∧
      w₄.heap.record l = w₄.heap.record r := by
  obtain ⟨ab, k₁, hab, e₁, -, hnew₁⟩ := concat_record hn hlive a b
  obtain ⟨l, k₂, hl, e₂, hhas, hnew₂⟩ := concat_record (w := w.withHeap k₁) hn hlive ab c
  obtain ⟨bc, k₃, hbc, e₃, -, hnew₃⟩ := concat_record (w := w.withHeap k₂) hn hlive b c
  obtain ⟨r, k₄, hr, e₄, -, hnew₄⟩ := concat_record (w := w.withHeap k₃) hn hlive a bc
  refine ⟨ab, _, l, _, bc, _, r, _, hab, hl, hbc, hr, ?_⟩
  -- the three records have stayed, and so has the first result
  have hto₂ := e₁.toRetains.trans e₂.toRetains
  have hA : k₃.record a = w.heap.record a := (hto₂.trans e₃.toRetains).record_eq ha
  have hB : k₂.record b = w.heap.record b := hto₂.record_eq hb
  have hC₁ : k₁.record c = w.heap.record c := e₁.toRetains.record_eq hc
  have hC₂ : k₂.record c = w.heap.record c := hto₂.record_eq hc
  calc k₄.record l = k₂.record l := (e₃.toRetains.trans e₄.toRetains).record_eq hhas
    _ = ((w.heap.record a).append (w.heap.record b)).append (w.heap.record c) := by
        rw [hnew₂]
        exact congrArg₂ Record.append hnew₁ hC₁
    _ = (w.heap.record a).append ((w.heap.record b).append (w.heap.record c)) :=
        Record.append_assoc _ _ _
    _ = k₄.record r := by
        rw [hnew₄]
        refine congrArg₂ Record.append hA.symm ?_
        exact (hnew₃.trans (congrArg₂ Record.append hB hC₂)).symm

/-- What a name of the record stands for is read by that name. -/
theorem gathered_read {I : Value → Json → Prop} {images : List (String × Json)}
    (hg : Gathered I [] (w.heap.record a).fields images) {s : Str} {part : Json}
    (hpart : (s.text, part) ∈ images) :
    ∃ x, engine (n + 1) (.get (.record a) (.str s)) w = .ok x w ∧ I x part := by
  rcases hg.image s.text part hpart with hbefore | ⟨-, x, hx, hI⟩
  · cases hbefore
  · refine ⟨x, ?_, hI⟩
    rw [engine_get hn hlive (.name s), Record.valueAt?_name]
    rw [show (w.heap.record a).get? s.text = some x from hx]
    rfl

end Live

end Levels

/-- On a live context, the operations of every level above the first treat the records on the heap
as their fields in order, whatever names are repeated. -/
theorem record_laws {level : Nat} (hlevel : 1 < level) {w : World}
    (hlive : w.context.interrupt? = none) {a : Ref .record} (ha : w.heap.has (.record a) = true) :
    RecordLaws level w a := by
  obtain ⟨n, rfl⟩ : ∃ n, level = n + 1 := ⟨level - 1, by omega⟩
  have hn : 0 < n := by omega
  exact {
    found := fun key i hkey => by
      obtain ⟨text, hfield⟩ := hkey.fieldKey
      -- a name that is found has an entry, and so a value
      obtain ⟨x, hx⟩ := Option.ne_none_iff_exists'.mp fun hnone =>
        Nat.not_le_of_lt hkey.lt (Record.at?_eq_none_iff.mp hnone)
      refine ⟨x, hx, ?_, fun v => written hn hlive ha hkey v⟩
      rw [engine_get hn hlive hfield, Record.valueAt?, Record.locate?_eq_some_iff.mpr hkey,
        Option.bind_some, hx]
      rfl
    missing := fun key text hkey hnone => by
      constructor
      · rw [engine_get hn hlive hkey, Record.valueAt?_eq_none_iff.mpr hnone]
        rfl
      · intro v
        rw [engine_set hn hlive hkey, Record.locate?_eq_none_iff.mpr hnone]
        rfl
    concat := fun b hb => joined hn hlive ha hb
    concatAssoc := fun b c hb hc => concat_assoc hn hlive ha hb hc
    image := fun image w' himage => by
      obtain ⟨images, rfl, hg⟩ := toJson_record hlevel himage
      refine ⟨images, rfl, hg.nodup, fun name => ?_, fun s part hpart => ?_⟩
      · simpa [Record.names] using hg.names name
      · exact gathered_read hn hlive hg hpart
    imageAgain := fun images w' hclosed himage => by
      obtain ⟨hsame, enough, hagain⟩ :=
        toJson_record_again (Nat.succ_pos n) hclosed ha himage
      refine ⟨hsame, enough, fun level' hlevel' s part hpart => ?_⟩
      exact gathered_read hn hlive (hagain level' hlevel') hpart }

/-- A record with a name twice, the second field of which is pending. -/
def repeatedNames : World where
  heap := {
    records := #[⟨[("x", .int 1), ("y", .lazy ⟨0⟩), ("x", .int 2)]⟩]
    thunks := #[.waiting (.native (.done (.int 5)))] }

/-- Names stand for the first of the fields, ordinals for all of them, and the image has the two
names. -/
theorem record_laws_repeated :
    RecordLaws 4 repeatedNames ⟨0⟩ ∧
      engine 4 (.get (.record ⟨0⟩) (.str ⟨0, "x"⟩)) repeatedNames = .ok (.int 1) repeatedNames ∧
      engine 4 (.get (.record ⟨0⟩) (.long 2)) repeatedNames = .ok (.int 2) repeatedNames ∧
      ∃ w', toJson 6 (.record ⟨0⟩) repeatedNames =
        .ok (.ok (.obj [("x", .int 1), ("y", .int 5)])) w' :=
  ⟨record_laws (by decide) rfl rfl, rfl, rfl, _, rfl⟩

end LazyMachine
