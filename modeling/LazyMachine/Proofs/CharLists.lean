import LazyMachine.Proofs.Sequences

/-!
# Strings and lists of characters

A string splits into the list of its characters, and a list of characters is joined into a string.
The list may be lazy in its spine, in its elements, or in both. Conversion evaluates the spine first
and then the elements in order, and what has been evaluated is remembered.

## Main definitions

* `Spells`: the spine of a list and then its elements evaluate to characters;
* `Spelled`: the same where nothing is left to evaluate.

## Main results

* `Spells.spelled`: a list that has been evaluated stays so;
* `engine_equal_spelled`: lists that spell the same text are equal;
* `characters_convert`: the conversions undo each other.

A list can be walked again whatever the world refers to: a cell that is not there has the unit value
as its head, so a list that spells a text consists of cells that are there.
-/

namespace LazyMachine

variable {ev : Evaluator} {level : Nat} {w w₁ w' u : World} {v x : Value} {xs : List Value}
  {first rest : Option (Ref .cell)} {cs : List Char}

/-! ### Elements that evaluate to characters -/

/-- Values evaluate one after the other, from the world `w`, to the characters `cs`, in the world
`w'`. -/
inductive ForceToChars (ev : Evaluator) : World → List Value → List Char → World → Prop
  | nil (w : World) : ForceToChars ev w [] [] w
  | cons {w w₁ w' : World} {v : Value} {vs : List Value} {c : Char} {cs : List Char}
      (hforce : ev.force v w = .ok (.char c) w₁) (hrest : ForceToChars ev w₁ vs cs w') :
      ForceToChars ev w (v :: vs) (c :: cs) w'

/-- What evaluates to another value than unit is not the unit value. -/
theorem ne_unit_of_force (hforce : (evaluator level).force v w = .ok x w') (hx : x ≠ .unit) :
    v ≠ .unit := by
  rintro rfl
  cases level with
  | zero => cases hforce
  | succ n =>
    obtain ⟨_, w₁, -, hfrom⟩ := of_bind_ok hforce
    cases n with
    | zero => cases hfrom
    | succ n =>
      cases hfrom
      exact hx rfl

namespace ForceToChars

/-- Each value gives one character. -/
theorem length_eq (h : ForceToChars ev w xs cs w') : xs.length = cs.length := by
  induction h with
  | nil => rfl
  | cons _ _ ih => exact congrArg (· + 1) ih

theorem congr {ev' : Evaluator} (h : ForceToChars ev w xs cs w')
    (hforce : ∀ v, ev.force v = ev'.force v) : ForceToChars ev' w xs cs w' := by
  induction h with
  | nil w => exact .nil w
  | cons hv _ ih => exact .cons (hforce _ ▸ hv) ih

theorem mono {level' : Nat} (h : ForceToChars (evaluator level) w xs cs w')
    (hle : level ≤ level') : ForceToChars (evaluator level') w xs cs w' := by
  induction h with
  | nil w => exact .nil w
  | cons hv _ ih => exact .cons ((engine_approximates hle _).eq_ok hv) ih

/-- What evaluates to a live world has been live from the start. -/
theorem live (h : ForceToChars (evaluator level) w xs cs w')
    (hlive : w'.context.interrupt? = none) : w.context.interrupt? = none := by
  cases h with
  | nil => exact hlive
  | cons hv _ => exact live_of_force hv

/-- The heap remembers along the forces. -/
theorem remembers (h : ForceToChars (evaluator level) w xs cs w') :
    w.heap.Remembers w'.heap := by
  induction h with
  | nil => exact .refl _
  | cons hv _ ih =>
    have hevolves := (engine_evolves level (.force _) _).of_ok hv trivial
    exact hevolves.remembers.trans ih

/-- Characters evaluate to themselves. -/
theorem map_char (hlevel : 1 < level) (hlive : w.context.interrupt? = none) (cs : List Char) :
    ForceToChars (evaluator level) w (cs.map .char) cs w := by
  induction cs with
  | nil => exact .nil w
  | cons c cs ih => exact .cons (evaluator_force hlevel hlive rfl) ih

/-- The characters are gathered. -/
theorem charsOf?_ok (h : ForceToChars ev w xs cs w') : charsOf? ev xs w = .ok (some cs) w' := by
  induction h with
  | nil => rfl
  | cons hv _ ih => exact (bind_ok hv).trans (bind_ok ih)

end ForceToChars

/-! ### Lists of characters -/

/-- The spine of a list evaluates to its end, and then its elements evaluate in order, to the
characters `cs`. -/
structure Spells (ev : Evaluator) (w : World) (first : Option (Ref .cell)) (cs : List Char)
    (w' : World) : Prop where
  chars : ∃ xs w₁, Spine.Walks ev w first xs w₁ none ∧ ForceToChars ev w₁ xs cs w'
  live : w'.context.interrupt? = none

/-- The spine and the elements of a list come to the characters `cs`, and nothing is left to
evaluate. -/
inductive Spelled (ev : Evaluator) (w : World) : Option (Ref .cell) → List Char → Prop
  | nil : Spelled ev w none []
  | cons {c : Ref .cell} {x : Char} {rest : Option (Ref .cell)} {cs : List Char}
      (hhead : ev.force (w.heap.cell c).head w = .ok (.char x) w)
      (hnext : Spine.next ev c w = .ok rest w) (hrest : Spelled ev w rest cs) :
      Spelled ev w (some c) (x :: cs)

namespace Spells

theorem mono {level' : Nat} (h : Spells (evaluator level) w first cs w') (hle : level ≤ level') :
    Spells (evaluator level') w first cs w' := by
  obtain ⟨⟨xs, w₁, hwalks, hchars⟩, hlive⟩ := h
  exact ⟨⟨xs, w₁, hwalks.mono hle, hchars.mono hle⟩, hlive⟩

/-- Characters in cells that stand in a row need no evaluation. -/
theorem of_chain (hcells : w.heap.Chain first (cs.map .char) none) (hlevel : 1 < level)
    (hlive : w.context.interrupt? = none) : Spells (evaluator level) w first cs w :=
  ⟨⟨_, w, hcells.walks hlevel hlive, .map_char hlevel hlive cs⟩, hlive⟩

/-- What has been evaluated is spelled in every later world. -/
theorem spelled (h : Spells (evaluator level) w first cs w') (hu : w'.heap.Remembers u.heap)
    (hlive : u.context.interrupt? = none) : Spelled (evaluator level) u first cs := by
  obtain ⟨⟨xs, w₁, hwalks, hchars⟩, -⟩ := h
  have hw₁ := hchars.remembers.trans hu
  generalize hend : (none : Option (Ref .cell)) = rest at hwalks
  -- the elements are evaluated from a later world than the one that the walk comes to
  have hfrom : ∃ v, ForceToChars (evaluator level) v xs cs w' := ⟨_, hchars⟩
  clear hchars
  induction hwalks generalizing cs with
  | refl =>
    subst hend
    obtain ⟨v, hchars⟩ := hfrom
    cases hchars
    exact .nil
  | @step w₀ w₂ w₁ c x mid rest xs hx hnext hrest ih =>
    obtain ⟨v, hchars⟩ := hfrom
    cases hchars with
    | cons hforce hchars =>
      have hremembers := ((Spine.Walks.step hx hnext hrest).remembers).trans hw₁
      have hlt : c.index < w₀.heap.cells.size := by
        by_contra hge
        refine ne_unit_of_force hforce (by simp) ?_
        rw [← hx, Heap.cell, Array.getD_eq_getD_getElem?, Array.getElem?_eq_none (by omega)]
        rfl
      have hcell := hremembers.cell_eq hlt
      refine .cons ?_ (Spine.next_ok ?_) (ih hw₁ hend ⟨_, hchars⟩)
      · rw [hcell, hx]
        exact force_again hforce (by simp) (hchars.remembers.trans hu) hlive
      · rw [hcell]
        exact force_again (Spine.of_next_ok hnext) (by simp) (hrest.remembers.trans hw₁) hlive

end Spells

namespace Spelled

variable {a b : Option (Ref .cell)}

theorem congr {ev' : Evaluator} (h : Spelled ev w first cs)
    (hforce : ∀ v, ev.force v = ev'.force v) : Spelled ev' w first cs := by
  induction h with
  | nil => exact .nil
  | cons hhead hnext _ ih =>
    exact .cons (hforce _ ▸ hhead) (Spine.next_ok (hforce _ ▸ Spine.of_next_ok hnext)) ih

/-- Lists that spell the same text are compared to their ends, unless a pair of cells was met
before. -/
theorem lists_ok (ha : Spelled ev w a cs) (hb : Spelled ev w b cs)
    {fuel : Nat} (hfuel : cs.length < fuel) (met : Equality.Met) :
    ∃ met', Equality.lists ev fuel a b met w = .ok (true, met') w := by
  induction ha generalizing b fuel met with
  | nil =>
    obtain ⟨fuel, rfl⟩ := Nat.exists_eq_succ_of_ne_zero (Nat.ne_zero_of_lt hfuel)
    cases hb
    exact ⟨met, rfl⟩
  | @cons c x rest cs hhead hnext _ ih =>
    obtain ⟨fuel, rfl⟩ := Nat.exists_eq_succ_of_ne_zero (Nat.ne_zero_of_lt hfuel)
    cases hb with
    | @cons d y rest' cs' hhead' hnext' hrest' =>
      have hfuel := Nat.lt_of_succ_lt_succ hfuel
      -- a pair met before ends the comparison well; a new one is compared at the heads and behind
      -- them
      set pair := (Address.node .cell c.index, Address.node .cell d.index)
      by_cases hmet : met.contains pair = true
      · refine ⟨met, ?_⟩
        rw [Equality.lists, if_pos hmet]
        rfl
      · obtain ⟨met', hlists⟩ := ih hrest' hfuel (pair :: met)
        refine ⟨met', ?_⟩
        have hvalue : Equality.value ev fuel (w.heap.cell c).head (w.heap.cell d).head (pair :: met)
            w = .ok (true, pair :: met) w := by
          obtain ⟨fuel, rfl⟩ := Nat.exists_eq_succ_of_ne_zero (Nat.ne_zero_of_lt hfuel)
          refine (bind_ok hhead).trans ((bind_ok hhead').trans ?_)
          simp only [beq_self_eq_true]
          rfl
        rw [Equality.lists, if_neg hmet]
        refine (bind_ok hvalue).trans ?_
        exact (bind_ok hnext).trans ((bind_ok hnext').trans hlists)

end Spelled

/-! ### The operations -/

section Operations

variable {n : Nat} {a b : Option (Ref .cell)}

/-- A string splits into its characters, in new cells. -/
theorem engine_convert_str (hn : 0 < n) (hlive : w.context.interrupt? = none) (s : Str) :
    ∃ first k, engine (n + 1) (.convert (.str s) .list) w = .ok (.list first) (w.withHeap k) ∧
      w.heap.Pads k ∧ k.Chain first (s.text.toList.map .char) none := by
  obtain ⟨first, k, hprepend, hpads, hchain⟩ := prepend_ok (s.text.toList.map .char) none w
  refine ⟨first, k, ?_, hpads, hchain⟩
  refine (bind_ok (forcesOf_leaves hn w _ hlive rfl)).trans ?_
  exact bind_ok hprepend

/-- A list that spells a text is joined into it. -/
theorem engine_convert_list (h : Spells (evaluator (n + 1)) w first cs w') (hlen : cs.length < n) :
    engine (n + 1) (.convert (.list first) .string) w =
      Eval.makeStr (String.ofList cs) w' := by
  obtain ⟨⟨xs, w₁, hwalks, hchars⟩, hlive⟩ := h
  have hlive := hwalks.live (hchars.live hlive)
  have hcollect := (hwalks.congr (evaluator_force_eq n)).collect_ok (hchars.length_eq ▸ hlen)
  refine (bind_ok (forcesOf_leaves (Nat.zero_lt_of_lt hlen) w _ hlive rfl)).trans ?_
  refine (bind_ok hcollect).trans ?_
  exact bind_ok (hchars.congr (evaluator_force_eq n)).charsOf?_ok

/-- Lists that spell the same text are equal. -/
theorem engine_equal_spelled (ha : Spelled (evaluator (n + 1)) w a cs)
    (hb : Spelled (evaluator (n + 1)) w b cs) (hlive : w.context.interrupt? = none)
    (hlen : cs.length + 1 < n) :
    engine (n + 1) (.equal (.list a) (.list b)) w = .ok (.bool true) w := by
  obtain ⟨fuel, rfl⟩ := Nat.exists_eq_succ_of_ne_zero (Nat.ne_zero_of_lt hlen)
  have hleaves (v : Value) (hv : v.isLazy = false) :=
    forcesOf_leaves (Nat.succ_pos fuel) w v hlive hv
  obtain ⟨met, hlists⟩ := (ha.congr (evaluator_force_eq _)).lists_ok
    (hb.congr (evaluator_force_eq _)) (Nat.lt_of_succ_lt_succ hlen) []
  have hvalue : Equality.value (forcesOf (fuel + 1)) (fuel + 1) (.list a) (.list b) [] w =
      .ok (true, met) w :=
    (bind_ok (hleaves _ rfl)).trans ((bind_ok (hleaves _ rfl)).trans hlists)
  have hequal : equal (forcesOf (fuel + 1)) (.list a) (.list b) w = .ok true w :=
    (bind_ok (Eval.ensureLive_ok hlive)).trans (bind_ok hvalue)
  exact bind_ok hequal

end Operations

/-- On a live context a string converts to a list and back to its text. A list whose spine and
elements evaluate to characters, at some level, converts to the string of these characters at every
level that is high enough, and the list that this string converts to is equal to it. -/
theorem characters_convert :
    (∀ (level : Nat) (w : World) (s : Str), w.context.interrupt? = none →
      s.text.length + 2 < level →
      ∃ first w₁ t w₂, engine level (.convert (.str s) .list) w = .ok (.list first) w₁ ∧
        engine level (.convert (.list first) .string) w₁ = .ok (.str t) w₂ ∧ t.text = s.text) ∧
    ∀ (level level' : Nat) (w w' : World) (first : Option (Ref .cell)) (cs : List Char),
      Spells (evaluator level) w first cs w' → level ≤ level' → cs.length + 2 < level' →
      ∃ t w₁ back w₂, engine level' (.convert (.list first) .string) w = .ok (.str t) w₁ ∧
        t.text = String.ofList cs ∧
        engine level' (.convert (.str t) .list) w₁ = .ok (.list back) w₂ ∧
        engine level' (.equal (.list first) (.list back)) w₂ = .ok (.bool true) w₂ ∧
        engine level' (.equal (.list back) (.list first)) w₂ = .ok (.bool true) w₂ := by
  constructor
  · intro level w s hlive hlevel
    obtain ⟨n, rfl⟩ := Nat.exists_eq_succ_of_ne_zero (Nat.ne_zero_of_lt hlevel)
    obtain ⟨first, k, hlist, -, hchain⟩ := engine_convert_str (by omega : 0 < n) hlive s
    have hspells : Spells (evaluator (n + 1)) (w.withHeap k) first s.text.toList (w.withHeap k) :=
      .of_chain hchain (by omega) hlive
    refine ⟨first, _, _, _, hlist, engine_convert_list hspells ?_, String.ofList_toList⟩
    rw [String.length_toList]
    omega
  · intro level level' w w' first cs h hle hlevel
    obtain ⟨n, rfl⟩ := Nat.exists_eq_succ_of_ne_zero (Nat.ne_zero_of_lt hlevel)
    replace h := h.mono hle
    have hstr := engine_convert_list h (by omega : cs.length < n)
    -- the string takes a stamp, and the list that it converts to takes new cells
    have hstamp : w'.heap.Remembers w'.heap.freshStamp.2 := 
      { w'.heap.extends_freshStamp with memo := id }
    set w₁ := w'.withHeap w'.heap.freshStamp.2
    have hlive : w₁.context.interrupt? = none := h.live
    obtain ⟨back, k, hlist, hpads, hchain⟩ :=
      engine_convert_str (by omega : 0 < n) hlive ⟨w'.heap.nextStamp, String.ofList cs⟩
    rw [String.toList_ofList] at hchain
    have hfirst : Spelled (evaluator (n + 1)) (w₁.withHeap k) first cs :=
      h.spelled (hstamp.trans hpads.remembers) hlive
    have hback : Spelled (evaluator (n + 1)) (w₁.withHeap k) back cs :=
      (Spells.of_chain (w := w₁.withHeap k) hchain (by omega) hlive).spelled (.refl _) hlive
    exact ⟨_, w₁, back, _, hstr, rfl, hlist,
      engine_equal_spelled hfirst hback hlive (by omega),
      engine_equal_spelled hback hfirst hlive (by omega)⟩

/-- A list of three characters. The first is pending, behind it stands a list, and then a thunk that
makes the rest. -/
def lazyWord : World where
  heap := {
    cells := #[⟨.lazy ⟨0⟩, .list (some ⟨1⟩)⟩, ⟨.char '\'', .lazy ⟨1⟩⟩]
    thunks := #[.waiting (.native (.done (.char 'a'))),
      .waiting (.native (.makeList [.char ' '] .done))] }

/-- The list is joined into its characters, and they are split again; the empty string splits into
the empty list, which is joined into the empty string. -/
theorem characters_convert_lazyWord :
    (∃ t w₁ back w₂, engine 6 (.convert (.list (some ⟨0⟩)) .string) lazyWord = .ok (.str t) w₁ ∧
      t.text = "a' " ∧ engine 6 (.convert (.str t) .list) w₁ = .ok (.list back) w₂ ∧
      engine 6 (.equal (.list (some ⟨0⟩)) (.list back)) w₂ = .ok (.bool true) w₂) ∧
    ∃ first w₁ t w₂, engine 3 (.convert (.str ⟨0, ""⟩) .list) {} = .ok (.list first) w₁ ∧
      engine 3 (.convert (.list first) .string) w₁ = .ok (.str t) w₂ ∧ t.text = "" := by
  obtain ⟨hstrings, hlists⟩ := characters_convert
  constructor
  · have hspells : ∃ w', Spells (evaluator 4) lazyWord (some ⟨0⟩) ['a', '\'', ' '] w' :=
      ⟨_, ⟨_, _, .step rfl rfl (.step rfl rfl (.step rfl rfl (.refl _ _))),
        .cons rfl (.cons rfl (.cons rfl (.nil _)))⟩, rfl⟩
    obtain ⟨w', hspells⟩ := hspells
    obtain ⟨t, w₁, back, w₂, hstr, htext, hlist, hequal, -⟩ :=
      hlists 4 6 lazyWord w' _ _ hspells (by decide) (by decide)
    exact ⟨t, w₁, back, w₂, hstr, htext, hlist, hequal⟩
  · exact hstrings 3 {} ⟨0, ""⟩ rfl (by decide)

end LazyMachine
