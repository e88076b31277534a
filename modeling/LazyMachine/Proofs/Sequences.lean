import LazyMachine.Boundary
import LazyMachine.Proofs.Spines

/-!
# Lists are finite sequences

For a list whose spine evaluates to its end, `IsSequence` says what the operations on sequences do:
they treat the list as the finite sequence of its heads, whatever of its spine is lazy and has been
evaluated before. They evaluate the tails that they pass and nothing else, so no head, and what they
leave is what evaluating those tails leaves, with cells of their own.

## Main definitions

* `iterate`: taking the elements of a sequence one by one;
* `gather`: generating a sequence item by item;
* `IsSequence`: the laws.

## Main results

* `list_isSequence`: every list whose spine evaluates without failure obeys the laws, at every level
  that is high enough.
-/

namespace LazyMachine

/-- Takes the elements of a sequence one by one. -/
def iterate (E : Engine) : (rounds : Nat) → Value → Eval (List Value)
  | 0, _ => throw .exhausted
  | rounds + 1, v => do
    match ← E (.isNil v) with
    | .bool true => return []
    | _ =>
      let first ← E (.head v)
      let rest ← E (.tail v)
      return first :: (← iterate E rounds rest)

/-- Generates items one after the other, from the empty list, and finishes the sequence. -/
def gather (E : Engine) (items : List Value) : Eval Value := do
  let acc ← items.foldlM (fun acc item => E (.generate acc item)) (.list none)
  E (.finalize acc)

/-- The world after a failure. -/
def World.failing (w : World) (e : RuntimeError) : World :=
  { w with context := w.context.fail e }

/-- An integer key is within the first `n` positions. -/
def WithinBounds (i : Int) (n : Nat) : Prop :=
  0 ≤ i ∧ i < n

/-- The operations of a level treat a list as the sequence `xs`, in the world `w`, from which
evaluating its spine leads to the world `w'`. -/
structure IsSequence (level : Nat) (w : World) (first : Option (Ref .cell)) (xs : List Value)
    (w' : World) : Prop where
  collect : Spine.collect (evaluator level) first w = .ok xs w'
  /-- The host collects on a context of its own. -/
  toElements : ∀ zs u, zs.length < level →
    Spine.Yields (evaluator level) { w with context := {} } first zs u →
    toElements level (.list first) w = .ok (.ok zs) { u with context := w.context }
  length : engine level (.length (.list first)) w = .ok (countValue xs.length) w'
  iterate : iterate (engine level) (xs.length + 1) (.list first) w = .ok xs w'
  /-- Only the tails before the position are evaluated, and so the list yields what it would have
  yielded. -/
  get : ∀ (key : Value) (i : Nat) (hi : i < xs.length), ordinal? key = some (i : Int) →
    ∃ w₁ c, Spine.Walks (evaluator level) w first (xs.take i) w₁ (some c) ∧
      engine level (.get (.list first) key) w = .ok xs[i] w₁ ∧
      Spine.Yields (evaluator level) w₁ first xs w'
  /-- A negative key evaluates nothing, and one that is too large the whole spine. -/
  getOutside : ∀ (key : Value) (i : Int), ordinal? key = some i → ¬ WithinBounds i xs.length →
    engine level (.get (.list first) key) w = .error .failed
      ((if 0 ≤ i then w' else w).failing (.indexOutOfRange "List" (toString i) key.typeName))
  /-- New cells stand for the old ones up to the position, and the tail there is the old one. Both
  lists yield what the old one would have yielded, in other places; the new one has the item. -/
  set : ∀ (key : Value) (i : Nat) (_ : i < xs.length), ordinal? key = some (i : Int) → ∀ item,
    ∃ w₁ c k updated c', Spine.Walks (evaluator level) w first (xs.take i) w₁ (some c) ∧
      engine level (.set (.list first) key item) w = .ok (.list updated) (w₁.withHeap k) ∧
      w₁.heap.Pads k ∧ k.Chain updated (xs.take i) (some c') ∧
      k.cell c' = ⟨item, (w₁.heap.cell c).tail⟩ ∧
      ∃ ρ zs u, .id w.heap ≤ ρ ∧ Values ρ xs zs ∧ w'.Alike ρ u ∧
        Spine.Yields (evaluator level) (w₁.withHeap k) first zs u ∧
        Spine.Yields (evaluator level) (w₁.withHeap k) updated (zs.set i item) u
  setOutside : ∀ (key : Value) (i : Int), ordinal? key = some i → ¬ WithinBounds i xs.length →
    ∀ item, engine level (.set (.list first) key item) w = .error .failed
      ((if 0 ≤ i then w' else w).failing (.indexOutOfRange "List" (toString i) key.typeName))
  concatNil : engine level (.binary .concat (.list first) (.list none)) w = .ok (.list first) w
  /-- New cells with the heads of the one list stand in front of the other, which is not evaluated.
  The one list yields the same again, and the other what it would have yielded, in other places. -/
  concat : ∀ c ys w'', w.heap.has (.list (some c)) = true →
    Spine.Yields (evaluator level) w' (some c) ys w'' →
    ∃ k joined, engine level (.binary .concat (.list first) (.list (some c))) w =
        .ok (.list joined) (w'.withHeap k) ∧
      w'.heap.Pads k ∧ k.Chain joined xs (some c) ∧
      Spine.Yields (evaluator level) (w'.withHeap k) first xs (w'.withHeap k) ∧
      ∃ ρ zs u, .id w.heap ≤ ρ ∧ Values ρ ys zs ∧ w''.Alike ρ u ∧
        Spine.Yields (evaluator level) (w'.withHeap k) (some c) zs u ∧
        Spine.Yields (evaluator level) (w'.withHeap k) joined (xs ++ zs) u
  /-- What is gathered is made of new cells, and the list yields what it would have yielded. -/
  gather : ∀ items : List Value, items.length + 1 < level →
    ∃ k r, gather (engine level) items w = .ok (.list r) (w.withHeap k) ∧ w.heap.Pads k ∧
      Spine.Yields (evaluator level) (w.withHeap k) r items (w.withHeap k) ∧
      ∃ ρ zs u, .id w.heap ≤ ρ ∧ Values ρ xs zs ∧ w'.Alike ρ u ∧
        Spine.Yields (evaluator level) (w.withHeap k) first zs u
  /-- What has been evaluated stays so: from then on the list yields the same heads. -/
  again : ∀ u, w'.heap.Remembers u.heap →
    LazyMachine.toElements level (.list first) u = .ok (.ok xs) u ∧
      (u.context.interrupt? = none → Spine.Yields (evaluator level) u first xs u)

/-! ### Operations on lists -/

/-- Forcing leaves what is not lazy as it is, on a live context. -/
def Evaluator.Leaves (ev : Evaluator) : Prop :=
  ∀ w v, w.context.interrupt? = none → v.isLazy = false → ev.force v w = .ok v w

/-- What the forces of an operation give is what the operation of forcing gives. -/
theorem evaluator_force_eq (n : Nat) (v : Value) :
    (evaluator (n + 1)).force v = (forcesOf n).force v := rfl

/-- The forces of a level leave what is not lazy. -/
theorem forcesOf_leaves {n : Nat} (hn : 0 < n) : (forcesOf n).Leaves :=
  fun _ _ hlive hv => evaluator_force (Nat.succ_lt_succ hn) hlive hv

/-- A key that stands for a number is not lazy. -/
theorem not_lazy_of_ordinal? {key : Value} {i : Int} (hkey : ordinal? key = some i) :
    key.isLazy = false := by
  cases key <;> first | rfl | cases hkey

section Operations

variable {ev : Evaluator} (hev : ev.Leaves) {w w' : World} {first rest : Option (Ref .cell)}
  {xs : List Value} {key : Value} {i : Int}

include hev

/-- The text of an integer is its decimal form. -/
theorem display_ordinal (hfuel : 0 < ev.fuel) (hkey : ordinal? key = some i) (w : World) :
    display ev key w = .ok (toString i) w := by
  obtain ⟨n, hn⟩ := Nat.exists_eq_succ_of_ne_zero (Nat.ne_of_gt hfuel)
  have hfresh : ({ w with context := {} } : World).context.interrupt? = none := rfl
  have hrender : render ev {} key { w with context := {} } =
      .ok (toString i) { w with context := {} } := by
    rw [render, bind_ok (Eval.ensureLive_ok hfresh), hn, Render.value]
    have hforce := hev { w with context := {} } key hfresh (not_lazy_of_ordinal? hkey)
    refine (bind_ok hforce).trans ?_
    cases key <;> cases hkey <;> rfl
  exact bind_ok (Eval.isolated_ok hrender)

/-- A missing position is reported with its number. -/
theorem indexOutOfRange_list {α : Type} (hfuel : 0 < ev.fuel) (hkey : ordinal? key = some i)
    (w : World) : (indexOutOfRange ev (.list first) key : Eval α) w =
      .error .failed (w.failing (.indexOutOfRange "List" (toString i) key.typeName)) :=
  bind_ok (display_ordinal hev hfuel hkey w)

section Live

variable (hlive : w.context.interrupt? = none)

include hlive

/-- The length of a list is that of its spine. -/
theorem length_list (hxs : Spine.Walks ev w first xs w' none) (hfuel : xs.length < ev.fuel) :
    length ev (.list first) w = .ok (countValue xs.length) w' :=
  (bind_ok (hev w _ hlive rfl)).trans (bind_ok (hxs.length_ok hfuel))

/-- What is found at a key is what is found at its position, if it has one. -/
theorem getValue_list (hkey : ordinal? key = some i) {found : Option Value}
    (hfound : ((position? i).elim (pure none) fun i => Spine.nth ev i first) w = .ok found w') :
    getValue ev (.list first) key w = foundAt ev (.list first) key found w' := by
  refine (bind_ok (hev w _ hlive rfl)).trans ?_
  refine (bind_ok (hev w _ hlive (not_lazy_of_ordinal? hkey))).trans ?_
  simp only [hkey]
  cases hposition : position? i with
  | none =>
    rw [hposition] at hfound
    cases hfound
    rfl
  | some i =>
    rw [hposition] at hfound
    exact bind_ok hfound

/-- Replacing an element comes down to walking the spine. -/
theorem setValue_list (hkey : ordinal? key = some i) (item : Value)
    {updated : Option (Ref .cell)}
    (hupdated : ((position? i).elim (pure none) fun i => Spine.setNth ev item i first) w =
      .ok updated w') :
    setValue ev (.list first) key item w =
      updated.elim (indexOutOfRange ev (.list first) key) (fun r => pure (.list (some r))) w' := by
  refine (bind_ok (hev w _ hlive rfl)).trans ?_
  refine (bind_ok (hev w _ hlive (not_lazy_of_ordinal? hkey))).trans ?_
  simp only [hkey]
  cases hposition : position? i with
  | none =>
    rw [hposition] at hupdated
    cases hupdated
    rfl
  | some i =>
    rw [hposition] at hupdated
    refine (bind_ok hupdated).trans ?_
    cases updated <;> rfl

end Live

end Operations

/-- A natural number is a position. -/
theorem position?_ofNat (i : Nat) : position? (i : Int) = some i := by
  simp [position?]

/-- An integer key that is out of bounds is negative or a position after the last. -/
theorem position?_of_not_within {i : Int} {n : Nat} (hi : ¬ WithinBounds i n) :
    (¬ 0 ≤ i ∧ position? i = none) ∨ 0 ≤ i ∧ ∃ d, position? i = some (d + n) := by
  by_cases hnonneg : 0 ≤ i
  · refine .inr ⟨hnonneg, i.toNat - n, ?_⟩
    have hle : n ≤ i.toNat := by
      unfold WithinBounds at hi
      omega
    rw [position?, if_pos hnonneg, Nat.sub_add_cancel hle]
  · exact .inl ⟨hnonneg, if_neg hnonneg⟩

/-- What yields a value on a fresh context yields it at the boundary. -/
theorem onFresh_ok {α : Type} {x : Eval α} {a : α} {w u : World}
    (hx : x { w with context := {} } = .ok a u) :
    onFresh x w = .ok (.ok a) { u with context := w.context } :=
  bind_ok (Eval.isolated_ok hx)

section Levels

variable {n : Nat} {w w₁ w' : World} {v : Value} {first rest : Option (Ref .cell)}
  {xs : List Value} {c : Ref .cell}

/-! ### Iteration -/

section Forced

variable (hv : (evaluator (n + 1)).force v w = .ok (.list first) w')

include hv

/-- A list is nil if its spine is. -/
theorem engine_isNil : engine (n + 1) (.isNil v) w = .ok (.bool first.isNone) w' :=
  bind_ok (bind_ok hv)

/-- The head is that of the first cell. -/
theorem engine_head (hc : first = some c) :
    engine (n + 1) (.head v) w = .ok (w'.heap.cell c).head w' := by
  subst hc
  exact bind_ok hv

/-- The tail is that of the first cell. -/
theorem engine_tail (hc : first = some c) :
    engine (n + 1) (.tail v) w = .ok (w'.heap.cell c).tail w' := by
  subst hc
  exact bind_ok hv

end Forced

/-- What forces to a list yields its heads one by one; each tail is forced when it is asked for. -/
theorem iterate_ok (hxs : Spine.Yields (evaluator (n + 1)) w₁ first xs w')
    (hv : (evaluator (n + 1)).force v w = .ok (.list first) w₁) :
    iterate (engine (n + 1)) (xs.length + 1) v w = .ok xs w' := by
  obtain ⟨hwalks, hlive⟩ := hxs
  generalize hend : (none : Option (Ref .cell)) = rest at hwalks
  induction hwalks generalizing v w with
  | refl w₁ first =>
    subst hend
    rw [iterate, bind_ok (engine_isNil hv)]
    rfl
  | @step w₁ w₂ w' c x mid rest xs hx hnext hrest ih =>
    subst hend
    -- the list was forced before it is asked for its head and its tail
    have hstep := Spine.Walks.step hx hnext hrest
    have hagain := force_again hv (by simp) (.refl _) (hstep.live hlive)
    have htail := ih (Spine.of_next_ok hnext) hlive rfl
    rw [iterate, bind_ok (engine_isNil hv)]
    refine (bind_ok (engine_head hagain rfl)).trans ?_
    refine (bind_ok (engine_tail hagain rfl)).trans ?_
    refine (bind_ok htail).trans ?_
    rw [hx]
    rfl

/-! ### Gathering -/

section Live

variable (hn : 0 < n) (hlive : w.context.interrupt? = none)

include hn hlive

/-- Generated items come to stand in reverse order in front of the list. -/
theorem generate_ok (items : List Value) (first : Option (Ref .cell)) :
    ∃ k r, items.foldlM (fun acc item => engine (n + 1) (.generate acc item)) (.list first) w =
        .ok (.list r) (w.withHeap k) ∧
      w.heap.Pads k ∧ k.Chain r items.reverse first := by
  induction items generalizing w first with
  | nil => exact ⟨w.heap, first, rfl, .refl _, .nil first⟩
  | cons item items ih =>
    have hgenerate : engine (n + 1) (.generate (.list first) item) w =
        .ok (.list (some ⟨w.heap.cells.size⟩))
          (w.withHeap (w.heap.addCell ⟨item, .list first⟩).2) :=
      bind_ok (forcesOf_leaves hn w _ hlive rfl)
    have hpad := Heap.Pads.addCell w.heap ⟨item, .list first⟩
    have hnew := (Heap.Chain.nil (h := w.heap) first).addCell item
    generalize (w.heap.addCell ⟨item, .list first⟩).2 = h at hgenerate hpad hnew
    obtain ⟨k, r, heq, hpads, hchain⟩ := ih (w := w.withHeap h) hlive (some ⟨w.heap.cells.size⟩)
    refine ⟨k, r, ?_, hpad.trans hpads, ?_⟩
    · rw [List.foldlM_cons, bind_ok hgenerate]
      exact heq
    · rw [List.reverse_cons]
      exact hchain.append (hnew.retains hpads.toRetains)

/-- Generating a sequence from items gives the list of them. -/
theorem gather_ok {items : List Value} (hfuel : items.length < n) :
    ∃ k r, gather (engine (n + 1)) items w = .ok (.list r) (w.withHeap k) ∧ w.heap.Pads k ∧
      k.Chain r items none := by
  obtain ⟨h, acc, hgenerated, hpad, hacc⟩ := generate_ok hn hlive items none
  obtain ⟨r, k, hreversed, hpads, hchain⟩ := Heap.Chain.reverseOnto_ok (w := w.withHeap h)
    hacc (evaluator_force_eq n) (Nat.succ_lt_succ hn) hlive (by rwa [List.length_reverse]) none
  rw [List.reverse_reverse] at hchain
  refine ⟨k, r, ?_, hpad.trans hpads, hchain⟩
  have hforced := forcesOf_leaves hn (w.withHeap h) (.list acc) hlive rfl
  exact (bind_ok hgenerated).trans ((bind_ok hforced).trans (bind_ok hreversed))

end Live

/-! ### The laws -/

/-- At the boundary the elements are those of the spine. -/
theorem toElements_list (hn : 0 < n)
    (hxs : Spine.Walks (evaluator (n + 1)) { w with context := {} } first xs w' none)
    (hlen : xs.length < n + 1) :
    toElements (n + 1) (.list first) w = .ok (.ok xs) { w' with context := w.context } := by
  have hforced : (evaluator (n + 1)).force (.list first) { w with context := {} } =
      .ok (.list first) { w with context := {} } :=
    forcesOf_leaves hn { w with context := {} } _ rfl rfl
  exact (bind_ok (onFresh_ok hforced)).trans (onFresh_ok (hxs.collect_ok hlen))

/-- A list on the heap stands for itself. -/
theorem lists_id {h : Heap} (hfirst : h.has (.list first) = true) :
    (Renaming.id h).Lists first first := by
  cases first with
  | none => exact .none
  | some c => exact .some ⟨rfl, by simpa [Heap.has] using hfirst⟩

section Laws

variable (hw : w.Impartial) (hfirst : (Renaming.id w.heap).Lists first first)
  (hxs : Spine.Yields (evaluator (n + 1)) w first xs w') (hlen : xs.length < n)

include hxs hlen

/-- Collecting gives the elements of the spine. -/
theorem collect_list : Spine.collect (evaluator (n + 1)) first w = .ok xs w' :=
  hxs.walks.collect_ok (Nat.lt_succ_of_lt hlen)

/-- Outside the bounds there is no element to get. -/
theorem getValue_outside {key : Value} {i : Int} (hkey : ordinal? key = some i)
    (hi : ¬ WithinBounds i xs.length) :
    engine (n + 1) (.get (.list first) key) w = .error .failed
      ((if 0 ≤ i then w' else w).failing (.indexOutOfRange "List" (toString i) key.typeName)) := by
  have hn := Nat.zero_lt_of_lt hlen
  have hwalks := hxs.walks.congr (evaluator_force_eq n)
  have hfound : ((position? i).elim (pure none) fun i => Spine.nth (forcesOf n) i first) w =
      .ok none (if 0 ≤ i then w' else w) := by
    rcases position?_of_not_within hi with ⟨hneg, hposition⟩ | ⟨hnonneg, d, hposition⟩
    · rw [hposition, if_neg hneg]
      rfl
    · rw [hposition, if_pos hnonneg]
      refine (hwalks.nth_eq d).trans ?_
      cases d <;> rfl
  have hget := getValue_list (forcesOf_leaves hn) (hxs.walks.live hxs.live) hkey hfound
  exact hget.trans (indexOutOfRange_list (forcesOf_leaves hn) hn hkey _)

/-- Nor is there one to replace. -/
theorem setValue_outside {key : Value} {i : Int} (hkey : ordinal? key = some i)
    (hi : ¬ WithinBounds i xs.length) (item : Value) :
    engine (n + 1) (.set (.list first) key item) w = .error .failed
      ((if 0 ≤ i then w' else w).failing (.indexOutOfRange "List" (toString i) key.typeName)) := by
  have hn := Nat.zero_lt_of_lt hlen
  have hwalks := hxs.walks.congr (evaluator_force_eq n)
  have hupdated : ((position? i).elim (pure none) fun i =>
      Spine.setNth (forcesOf n) item i first) w = .ok none (if 0 ≤ i then w' else w) := by
    rcases position?_of_not_within hi with ⟨hneg, hposition⟩ | ⟨hnonneg, d, hposition⟩
    · rw [hposition, if_neg hneg]
      rfl
    · rw [hposition, if_pos hnonneg]
      exact hwalks.setNth_none item d
  have hset := setValue_list (forcesOf_leaves hn) (hxs.walks.live hxs.live) hkey item hupdated
  exact hset.trans (indexOutOfRange_list (forcesOf_leaves hn) hn hkey _)

include hw hfirst

/-- Within the bounds the element is the one at the position, and no tail behind it is forced. -/
theorem getValue_within {key : Value} {i : Nat} (hi : i < xs.length)
    (hkey : ordinal? key = some (i : Int)) :
    ∃ w₁ c, Spine.Walks (evaluator (n + 1)) w first (xs.take i) w₁ (some c) ∧
      engine (n + 1) (.get (.list first) key) w = .ok xs[i] w₁ ∧
      Spine.Yields (evaluator (n + 1)) w₁ first xs w' := by
  have hn := Nat.zero_lt_of_lt hlen
  have hlive := hxs.walks.live hxs.live
  -- the walk is cut at the position: what is before it is forced, and what is after is not
  obtain ⟨w₁, c, hbefore, hhead, hafter⟩ := hxs.walks.at_position hi
  have hnth := (hbefore.congr (evaluator_force_eq n)).nth_eq 0
  rw [List.length_take_of_le hi.le, Nat.zero_add] at hnth
  refine ⟨w₁, c, hbefore, ?_, ?_⟩
  · have hfound : ((position? (i : Int)).elim (pure none) fun i =>
        Spine.nth (forcesOf n) i first) w = .ok (some xs[i]) w₁ := by
      rw [position?_ofNat]
      exact hnth.trans (hhead ▸ rfl)
    exact getValue_list (forcesOf_leaves hn) hlive hkey hfound
  · have hagain := hbefore.again (u := w₁) hw hfirst (.refl _) (hafter.live hxs.live)
    have hwalks := hagain.trans hafter
    rw [List.take_append_drop] at hwalks
    exact ⟨hwalks, hxs.live⟩

/-- Within the bounds the element is replaced, in front of the same tail. -/
theorem setValue_within {key : Value} {i : Nat} (hi : i < xs.length)
    (hkey : ordinal? key = some (i : Int)) (item : Value) :
    ∃ w₁ c k updated c', Spine.Walks (evaluator (n + 1)) w first (xs.take i) w₁ (some c) ∧
      engine (n + 1) (.set (.list first) key item) w = .ok (.list updated) (w₁.withHeap k) ∧
      w₁.heap.Pads k ∧ k.Chain updated (xs.take i) (some c') ∧
      k.cell c' = ⟨item, (w₁.heap.cell c).tail⟩ ∧
      ∃ ρ zs u, .id w.heap ≤ ρ ∧ Values ρ xs zs ∧ w'.Alike ρ u ∧
        Spine.Yields (evaluator (n + 1)) (w₁.withHeap k) first zs u ∧
        Spine.Yields (evaluator (n + 1)) (w₁.withHeap k) updated (zs.set i item) u := by
  have hn := Nat.zero_lt_of_lt hlen
  have hlive := hxs.walks.live hxs.live
  obtain ⟨w₁, c, hbefore, -, hafter⟩ := hxs.walks.at_position hi
  obtain ⟨r, c', k, hset, hpads, hchain, -, hcell⟩ :=
    (hbefore.congr (evaluator_force_eq n)).setNth_ok item
  rw [List.length_take_of_le hi.le] at hset
  refine ⟨w₁, c, k, some r, c', hbefore, ?_, hpads, hchain, hcell, ?_⟩
  · have hupdated : ((position? (i : Int)).elim (pure none) fun i =>
        Spine.setNth (forcesOf n) item i first) w = .ok (some r) (w₁.withHeap k) := by
      rw [position?_ofNat]
      exact hset
    exact setValue_list (forcesOf_leaves hn) hlive hkey item hupdated
  · -- from the position on, both lists go on with the same tail
    obtain ⟨ρ, zs, u, hρ, hzs, hu, hrest, hwhole⟩ :=
      Spine.Yields.resumed hbefore ⟨hafter, hxs.live⟩ hw hfirst hpads
    rw [List.take_append_drop] at hzs
    refine ⟨ρ, xs.take i ++ zs, u, hρ, hzs, hu, hwhole, ?_, hu.context ▸ hxs.live⟩
    have hlive₁ : (w₁.withHeap k).context.interrupt? = none := hrest.walks.live hrest.live
    have htail : ((w₁.withHeap k).heap.cell c').tail = ((w₁.withHeap k).heap.cell c).tail := by
      have hc := hbefore.cell_lt (evaluator_mirrors (n + 1)) hw hfirst
      exact (congrArg Cell.tail hcell).trans (congrArg Cell.tail (hpads.cell_eq hc)).symm
    have hreplaced (x : Value) (zs : List Value) :
        (xs.take i ++ x :: zs).set i item = xs.take i ++ item :: zs := by
      rw [List.set_append_right _ _ (List.length_take_le _ _), List.length_take_of_le hi.le,
        Nat.sub_self, List.set_cons_zero]
    -- the heads before the position are copied, and the one at the position is left out
    cases hrest.walks with
    | step hx hnext hothers =>
      rw [hreplaced]
      refine (hchain.walks (Nat.succ_lt_succ hn) hlive₁).trans
        (.step (congrArg Cell.head hcell) (Spine.next_ok ?_) hothers)
      rw [htail]
      exact Spine.of_next_ok hnext

/-- Concatenation puts the elements in front of the second list. -/
theorem concat_list {ys : List Value} {w'' : World} (hc : (Renaming.id w.heap).Cells c c)
    (hys : Spine.Yields (evaluator (n + 1)) w' (some c) ys w'') :
    ∃ k joined, engine (n + 1) (.binary .concat (.list first) (.list (some c))) w =
        .ok (.list joined) (w'.withHeap k) ∧
      w'.heap.Pads k ∧ k.Chain joined xs (some c) ∧
      Spine.Yields (evaluator (n + 1)) (w'.withHeap k) first xs (w'.withHeap k) ∧
      ∃ ρ zs u, .id w.heap ≤ ρ ∧ Values ρ ys zs ∧ w''.Alike ρ u ∧
        Spine.Yields (evaluator (n + 1)) (w'.withHeap k) (some c) zs u ∧
        Spine.Yields (evaluator (n + 1)) (w'.withHeap k) joined (xs ++ zs) u := by
  have hn := Nat.zero_lt_of_lt hlen
  have hlive := hxs.walks.live hxs.live
  have hcollect := (hxs.walks.congr (evaluator_force_eq n)).collect_ok hlen
  obtain ⟨joined, k, hprepend, hpads, hchain⟩ := prepend_ok xs (some c) w'
  refine ⟨k, joined, ?_, hpads, hchain, ?_, ?_⟩
  · have hforce (v : Value) (hv : v.isLazy = false) := forcesOf_leaves hn w v hlive hv
    refine (bind_ok (Eval.ensureLive_ok hlive)).trans ?_
    refine (bind_ok (hforce _ rfl)).trans ((bind_ok (hforce _ rfl)).trans ?_)
    exact (bind_ok hcollect).trans (bind_ok hprepend)
  · exact ⟨hxs.walks.again hw hfirst hpads.remembers hxs.live, hxs.live⟩
  · -- the second list stands behind the new cells as it is, and is evaluated there
    obtain ⟨σ, hσ, -, hw', -⟩ := hxs.walks.self (evaluator_mirrors (n + 1)) hw hfirst
    obtain ⟨ρ, zs, u, hρ, hzs, hu, hrest⟩ := hys.padded hw' (.some (hc.mono hσ)) hpads
    refine ⟨ρ, zs, u, hσ.trans hρ, hzs, hu, hrest, ?_, hrest.live⟩
    have hcells := hchain.walks (w := w'.withHeap k) (Nat.succ_lt_succ hn) hxs.live
    exact hcells.trans hrest.walks

end Laws

end Levels

/-- Let the spine of a list evaluate without failure, at some level, to the heads `xs`, on a world
that refers only to what is there and whose host code does not look at places. Then the operations
of all levels that are high enough treat the list as the sequence `xs`. -/
theorem list_isSequence {w w' : World} (hw : w.Impartial) {first : Option (Ref .cell)}
    (hfirst : w.heap.has (.list first) = true) {xs : List Value} {level level' : Nat}
    (hxs : Spine.Yields (evaluator level) w first xs w') (hle : level ≤ level')
    (hlen : xs.length + 1 < level') : IsSequence level' w first xs w' := by
  obtain ⟨n, rfl⟩ := Nat.exists_eq_succ_of_ne_zero (Nat.ne_zero_of_lt hlen)
  replace hxs : Spine.Yields (evaluator (n + 1)) w first xs w' := ⟨hxs.walks.mono hle, hxs.live⟩
  replace hlen := Nat.lt_of_succ_lt_succ hlen
  have hn := Nat.zero_lt_of_lt hlen
  have hlive := hxs.walks.live hxs.live
  have hlists := lists_id hfirst
  have hforced : (forcesOf n).force (.list first) w = .ok (.list first) w :=
    forcesOf_leaves hn w _ hlive rfl
  exact {
    collect := collect_list hxs hlen
    toElements := fun zs u hfuel hzs => toElements_list hn hzs.walks hfuel
    length := length_list (forcesOf_leaves hn) hlive (hxs.walks.congr (evaluator_force_eq n)) hlen
    iterate := iterate_ok hxs hforced
    get := fun key i hi hkey => getValue_within hw hlists hxs hlen hi hkey
    getOutside := fun key i hkey hi => getValue_outside hxs hlen hkey hi
    set := fun key i hi hkey item => setValue_within hw hlists hxs hlen hi hkey item
    setOutside := fun key i hkey hi item => setValue_outside hxs hlen hkey hi item
    concatNil := by
      have hforce (v : Value) (hv : v.isLazy = false) := forcesOf_leaves hn w v hlive hv
      refine (bind_ok (Eval.ensureLive_ok hlive)).trans ?_
      exact (bind_ok (hforce _ rfl)).trans (bind_ok (hforce _ rfl))
    concat := fun c ys w'' hc hys =>
      concat_list hw hlists hxs hlen ⟨rfl, by simpa [Heap.has] using hc⟩ hys
    gather := by
      intro items hitems
      obtain ⟨k, r, hgather, hpads, hchain⟩ := gather_ok hn hlive (Nat.lt_of_succ_lt_succ hitems)
      refine ⟨k, r, hgather, hpads, ?_, hxs.padded hw hlists hpads⟩
      exact ⟨hchain.walks (Nat.succ_lt_succ hn) hlive, hlive⟩
    again := by
      refine fun u hu => ⟨?_, fun hlive => ⟨hxs.walks.again hw hlists hu hlive, hlive⟩⟩
      -- the same walk succeeds on a context of its own, from whichever later world
      have hfresh := hxs.walks.again (u := { u with context := {} }) hw hlists hu rfl
      have helements := toElements_list (w := u) hn hfresh (Nat.lt_succ_of_lt hlen)
      exact helements }

/-- A list of four elements. The first is a pending computation that fails; behind it stands a list,
then a thunk with a value, and then one without, which makes the rest. -/
def mixedList : World where
  heap := {
    cells := #[⟨.lazy ⟨0⟩, .list (some ⟨1⟩)⟩, ⟨.int 1, .lazy ⟨1⟩⟩, ⟨.int 2, .lazy ⟨2⟩⟩]
    thunks := #[.waiting (.native (.fail (.divideByZero "Divide" "Int"))),
      .forced (.list (some ⟨2⟩)), .waiting (.native (.makeList [.int 3] .done))] }

/-- No code in that heap can tell addresses apart. -/
theorem mixedList_impartial : mixedList.Impartial where
  heap := {
    records := fun _ => .none
    variants := fun _ => .none
    thunks := Arrays.of_forall₂ (.cons (.waiting (.native (.fail _)))
      (.cons (.forced (.list (.some ⟨rfl, by decide⟩)))
        (.cons (.waiting (.native (.makeList (.cons (.same rfl) .nil) fun _ _ _ _ hv => .done hv)))
          .nil)))
    modules := fun _ => .none
    stamp := rfl
    left := ⟨rfl, rfl⟩
    right := ⟨rfl, rfl⟩
    cell := by
      rintro ⟨i⟩ ⟨j⟩ ⟨heq, hlt⟩
      cases heq
      match i, hlt with
      | 0, _ => exact ⟨.same rfl, .list (.some ⟨rfl, by decide⟩)⟩
      | 1, _ => exact ⟨.same rfl, .same rfl⟩
      | 2, _ => exact ⟨.same rfl, .same rfl⟩
    function := fun h => absurd h.2 (Nat.not_lt_zero _) }
  context := rfl
  host := ⟨.nil, rfl, rfl, rfl⟩
  executed := rfl

/-- The list is a sequence, and its first element is still pending when the spine is evaluated. -/
theorem list_isSequence_mixed :
    ∃ w', Spine.Yields (evaluator 4) mixedList (some ⟨0⟩)
        [.lazy ⟨0⟩, .int 1, .int 2, .int 3] w' ∧
      IsSequence 8 mixedList (some ⟨0⟩) [.lazy ⟨0⟩, .int 1, .int 2, .int 3] w' ∧
      w'.heap.memo? ⟨0⟩ = none := by
  have hyields : ∃ w', Spine.Yields (evaluator 4) mixedList (some ⟨0⟩)
      [.lazy ⟨0⟩, .int 1, .int 2, .int 3] w' ∧ w'.heap.memo? ⟨0⟩ = none :=
    ⟨_, ⟨.step rfl rfl (.step rfl rfl (.step rfl rfl (.step rfl rfl (.refl _ _)))), rfl⟩, rfl⟩
  obtain ⟨w', hxs, hpending⟩ := hyields
  exact ⟨w', hxs, list_isSequence mixedList_impartial (by decide) hxs (by decide) (by decide),
    hpending⟩

end LazyMachine
