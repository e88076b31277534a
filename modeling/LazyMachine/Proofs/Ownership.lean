import LazyMachine.Boundary
import LazyMachine.Proofs.Parallel
import Mathlib.Data.List.Nodup

/-!
# Ownership of claimed thunks

A thunk is claimed when its evaluation starts, and whoever claimed it must publish its value or
return it to waiting. `Heap.Settled h h'` says that this has been done for everything claimed
between `h` and `h'`; every operation settles its claims before it yields a value, fails or is
suspended (`engine_settles`).

Inside a machine claims outlive an instruction: they belong to the chains of its frames.
`Heap.Owned base h claims` says that `claims` lists what has been claimed since `base` and is not
settled yet. One round of the machine keeps this with the chains of the frames as the claims
(`round_owned`), hence a whole run does (`execute_settles`).
-/

namespace LazyMachine

/-- The thunk has a value or waits, so that claiming it succeeds. -/
def Thunk.Claimable : Thunk → Prop
  | ⟨_, some _⟩ | .waiting _ => True
  | .running _ | ⟨.done, none⟩ => False

/-- What may become of a thunk, or of a place where none has been made yet, while evaluations settle
their claims: a waiting thunk waits for the same computation or is forced, one with a value keeps it
and may be marked as done, a claimed one stays claimed by its claimant, and no new one is left
claimed. -/
def Thunk.Settles : Option Thunk → Option Thunk → Prop
  | none, after => ∀ t, after = some t → t.Claimable
  | some ⟨s, some v⟩, after => after = some ⟨s, some v⟩ ∨ after = some (.forced v)
  | some (.waiting d), after => after = some (.waiting d) ∨ ∃ v, after = some (.forced v)
  | some before, after => after = some before

/-- A thunk may stay as it is. -/
theorem Thunk.settles_refl (t : Option Thunk) : Thunk.Settles t t := by
  cases t with
  | none => simp [Thunk.Settles]
  | some t => cases t <;> simp [Thunk.Settles]

/-- A thunk that is forced stays as it is. -/
theorem Thunk.Settles.forced {v : Value} {after : Option Thunk}
    (h : Thunk.Settles (some (.forced v)) after) : after = some (.forced v) :=
  h.elim id id

/-- A thunk that can be claimed can be claimed still. -/
theorem Thunk.Settles.claimable {t : Thunk} {after : Option Thunk}
    (h : Thunk.Settles (some t) after) (ht : t.Claimable) : Thunk.Settles none after := by
  rintro u rfl
  cases t with
  | valued s v => rcases h with h | h <;> cases h <;> trivial
  | waiting d => rcases h with h | ⟨v, h⟩ <;> cases h <;> trivial
  | running d => exact ht.elim
  | spent => exact ht.elim

/-- What may become of a thunk by and by. -/
theorem Thunk.Settles.trans {a b c : Option Thunk} (hab : Thunk.Settles a b)
    (hbc : Thunk.Settles b c) : Thunk.Settles a c := by
  cases a with
  | none =>
    cases b with
    | none => exact hbc
    | some b => exact hbc.claimable (hab b rfl)
  | some a =>
    cases a with
    | valued s v =>
      rcases hab with rfl | rfl
      · exact hbc
      · exact .inr hbc.forced
    | waiting d =>
      rcases hab with rfl | ⟨v, rfl⟩
      · exact hbc
      · exact .inr ⟨v, hbc.forced⟩
    | running d => simp_all [Thunk.Settles]
    | spent => simp_all [Thunk.Settles]

/-- The thunk after its claimant has given it back. -/
def Thunk.released : Thunk → Thunk
  | .running d => .waiting d
  | t => t

/-- Giving a thunk back twice is giving it back. -/
theorem Thunk.released_released (t : Thunk) : t.released.released = t.released := by
  cases t <;> simp [released]

namespace Heap

/-! ### Settled heaps -/

/-- Everything that was claimed between `h` and `h'` is settled, and no other object of `h` has
changed. -/
structure Settled (h h' : Heap) : Prop extends h.Retains h' where
  thunks : ∀ i : Nat, Thunk.Settles h.thunks[i]? h'.thunks[i]?

theorem Settled.refl (h : Heap) : h.Settled h :=
  { Retains.refl h with thunks := fun _ => Thunk.settles_refl _ }

theorem Settled.trans {a b c : Heap} (hab : a.Settled b) (hbc : b.Settled c) : a.Settled c :=
  { hab.toRetains.trans hbc.toRetains with
    thunks := fun i => (hab.thunks i).trans (hbc.thunks i) }

/-- Heaps are ordered by what is settled. -/
instance : IsPreorder Heap Settled where
  refl := Settled.refl
  trans _ _ _ := Settled.trans

/-- New objects other than thunks leave everything settled. -/
theorem Extends.settled {h h' : Heap} (e : h.Extends h') : h.Settled h' :=
  { e.toRetains with
    thunks := fun i => by
      rw [e.thunks]
      exact Thunk.settles_refl _ }

/-- A new waiting thunk leaves everything settled. -/
theorem settled_addThunk (h : Heap) (d : Deferred) : h.Settled (h.addThunk (.waiting d)).2 where
  toRetains := h.retains_withThunks _
  thunks i := by
    rw [addThunk, Array.getElem?_push]
    split
    · next hi =>
      subst hi
      simp [Thunk.Settles, Thunk.Claimable]
    · exact Thunk.settles_refl _

/-! ### Claiming, releasing and completing -/

section Thunks

variable (h : Heap) (t : Ref .thunk)

theorem getElem?_setThunk (u : Thunk) (i : Nat) :
    (h.setThunk t u).thunks[i]? =
      if t.index = i ∧ i < h.thunks.size then some u else h.thunks[i]? := by
  rw [setThunk, Array.getElem?_setIfInBounds]
  grind

/-- The state of a thunk that has been made. -/
theorem thunk_of_getElem? {u : Thunk} (hu : h.thunks[t.index]? = some u) : h.thunk t = u := by
  rw [thunk, Array.getD_eq_getD_getElem?, hu, Option.getD_some]

/-- A thunk that was never made is taken for unit. -/
theorem memo?_of_size_le (hge : h.thunks.size ≤ t.index) : h.memo? t = some .unit := by
  rw [memo?, thunk, Array.getD_eq_getD_getElem?, Array.getElem?_eq_none hge]
  rfl

/-- The value of the thunk made at a place, if it has one. -/
def memoAt? (h : Heap) (i : Nat) : Option Value :=
  h.thunks[i]?.bind Thunk.memo?

/-- A value of a thunk that has been made is what following it comes to. -/
theorem memo?_of_memoAt? {v : Value} (hv : h.memoAt? t.index = some v) : h.memo? t = some v := by
  obtain ⟨u, hu, hmemo⟩ := Option.bind_eq_some_iff.mp hv
  rw [memo?, h.thunk_of_getElem? t hu, hmemo]

/-- A thunk within bounds has been made. -/
theorem memoAt?_of_memo? {v : Value} (ht : t.index < h.thunks.size) (hv : h.memo? t = some v) :
    h.memoAt? t.index = some v := by
  have hi := Array.getElem?_eq_getElem ht
  rw [memoAt?, hi, Option.bind_some, ← hv, memo?, h.thunk_of_getElem? t hi]

/-- A forced thunk has its value. -/
theorem memoAt?_of_forced {i : Nat} {v : Value} (hi : h.thunks[i]? = some (.forced v)) :
    h.memoAt? i = some v := by
  rw [memoAt?, hi]
  rfl

/-- A new thunk leaves the values of the others. -/
theorem memoAt?_addThunk (u : Thunk) {i : Nat} {v : Value} (hi : h.memoAt? i = some v) :
    (h.addThunk u).2.memoAt? i = some v := by
  obtain ⟨s, hs, hmemo⟩ := Option.bind_eq_some_iff.mp hi
  have hlt : i < h.thunks.size := (Array.getElem?_eq_some_iff.mp hs).1
  rw [memoAt?, addThunk, Array.getElem?_push, if_neg (Nat.ne_of_lt hlt), hs]
  exact hmemo

/-- A thunk that is set to what it is stays. -/
theorem setThunk_of_thunk {u : Thunk} (hu : h.thunk t = u) : h.setThunk t u = h := by
  have hset : h.thunks.setIfInBounds t.index u = h.thunks := by
    refine Array.ext_getElem? fun i => ?_
    rw [Array.getElem?_setIfInBounds]
    split
    · next heq =>
      subst heq
      split
      · next hlt =>
        rw [← hu, thunk, Array.getD_eq_getD_getElem?, Array.getElem?_eq_getElem hlt]
        rfl
      · next hge => rw [Array.getElem?_eq_none (Nat.le_of_not_lt hge)]
    · rfl
  rw [setThunk, hset]

/-- What is not forced has been made. -/
theorem getElem?_of_thunk {u : Thunk} (hu : h.thunk t = u) (hf : u.memo? = none) :
    h.thunks[t.index]? = some u := by
  rw [thunk, Array.getD_eq_getD_getElem?] at hu
  cases hi : h.thunks[t.index]? with
  | some a => rw [hi] at hu; exact congrArg some hu
  | none =>
    rw [hi] at hu
    subst hu
    cases hf

theorem getElem?_release (i : Nat) :
    (h.release t).thunks[i]? =
      if t.index = i then h.thunks[i]?.map Thunk.released else h.thunks[i]? := by
  unfold release
  split
  · next d hd =>
    have hi := h.getElem?_of_thunk t hd rfl
    rw [getElem?_setThunk]
    by_cases heq : t.index = i
    · subst heq
      have hlt := (Array.getElem?_eq_some_iff.mp hi).1
      rw [if_pos ⟨rfl, hlt⟩, if_pos rfl, hi]
      rfl
    · simp [heq]
  · next hd =>
    -- a thunk that is not running has nothing to give back
    split
    · next heq =>
      subst heq
      cases hi : h.thunks[t.index]? with
      | none => rfl
      | some u =>
        have hu := h.thunk_of_getElem? t hi
        cases u with
        | running d => exact absurd hu (hd d)
        | _ => simp [Thunk.released]
    · rfl

/-- Releasing a chain releases the thunks of the chain and leaves the others. -/
theorem getElem?_releaseChain (chain : List (Ref .thunk)) (i : Nat) :
    (h.releaseChain chain).thunks[i]? =
      if ⟨i⟩ ∈ chain then h.thunks[i]?.map Thunk.released else h.thunks[i]? := by
  induction chain generalizing h with
  | nil => rfl
  | cons r rs ih =>
    have hr : r.index = i ↔ (⟨i⟩ : Ref .thunk) = r := by
      constructor
      · rintro rfl; rfl
      · rintro rfl; rfl
    have hfold : h.releaseChain (r :: rs) = (h.release r).releaseChain rs := rfl
    rw [hfold, ih, getElem?_release]
    by_cases hi : (⟨i⟩ : Ref .thunk) = r <;> by_cases hmem : (⟨i⟩ : Ref .thunk) ∈ rs <;>
      simp [hr, hi, hmem, Function.comp_def, Thunk.released_released]

/-- A claimed thunk waits again once its chain is released. -/
theorem thunk_releaseChain {h : Heap} {t : Ref .thunk} {chain : List (Ref .thunk)} {d : Deferred}
    (ht : h.thunk t = .running d) (hmem : t ∈ chain) :
    (h.releaseChain chain).thunk t = .waiting d := by
  refine thunk_of_getElem? _ t ?_
  rw [getElem?_releaseChain, if_pos hmem, h.getElem?_of_thunk t ht rfl]
  rfl

theorem thunk_releaseChain_of_not_mem {h : Heap} {t : Ref .thunk} {chain : List (Ref .thunk)}
    (hmem : t ∉ chain) : (h.releaseChain chain).thunk t = h.thunk t := by
  simp only [thunk, Array.getD_eq_getD_getElem?, getElem?_releaseChain, if_neg hmem]

/-- Completing a thunk leaves the others. -/
theorem getElem?_complete_ne (v : Value) {i : Nat} (hi : t.index ≠ i) :
    (h.complete t v).2.thunks[i]? = h.thunks[i]? := by
  rw [complete, getElem?_setThunk, if_neg fun h => hi h.1]

/-- Completing a thunk adds none. -/
theorem size_complete (v : Value) : (h.complete t v).2.thunks.size = h.thunks.size :=
  Array.size_setIfInBounds

/-- Completing a thunk that has no value publishes the one given. -/
theorem complete_of_unforced {v : Value} (ht : h.memo? t = none) :
    h.complete t v = (v, h.setThunk t (.forced v)) := by
  rw [complete, ht, Option.getD_none]

/-- Completing a thunk that has a value gives that one. -/
theorem complete_of_memo {first : Value} (ht : h.memo? t = some first) (v : Value) :
    h.complete t v = (first, h.setThunk t (.forced first)) := by
  rw [complete, ht, Option.getD_some]

/-- Completing a forced thunk changes nothing. -/
theorem complete_of_forced {first : Value} (ht : h.thunk t = .forced first) (v : Value) :
    h.complete t v = (first, h) := by
  have hmemo : h.memo? t = some first := by rw [memo?, ht]
  rw [complete_of_memo h t hmemo, setThunk_of_thunk h t ht]

end Thunks

/-! ### Claims under way -/

/-- Values of thunks are never replaced. -/
theorem Settled.memoAt? {h h' : Heap} {i : Nat} {v : Value} (hs : h.Settled h')
    (hi : h.memoAt? i = some v) : h'.memoAt? i = some v := by
  obtain ⟨⟨s, memo⟩, hu, hmemo⟩ := Option.bind_eq_some_iff.mp hi
  cases hmemo
  have hsettles := hs.thunks i
  rw [hu] at hsettles
  rcases hsettles with hi' | hi' <;> rw [Heap.memoAt?, hi'] <;> rfl

theorem retains_setThunk (h : Heap) (t : Ref .thunk) (u : Thunk) : h.Retains (h.setThunk t u) :=
  h.retains_withThunks _

/-- A thunk with a value may be marked as done. -/
theorem settled_mark {h : Heap} {t : Ref .thunk} {v : Value} (ht : h.memo? t = some v) :
    h.Settled (h.setThunk t (.forced v)) where
  toRetains := h.retains_setThunk t _
  thunks i := by
    rw [getElem?_setThunk]
    split
    · next hi =>
      obtain ⟨rfl, hlt⟩ := hi
      have hu := Array.getElem?_eq_getElem hlt
      have hmemo : (h.thunks[t.index]).memo? = some v := by
        rw [← ht, memo?, h.thunk_of_getElem? t hu]
      rw [hu]
      generalize h.thunks[t.index] = u at hmemo
      cases u with
      | valued s first =>
        cases hmemo
        exact .inr rfl
      | waiting d => cases hmemo
      | running d => cases hmemo
      | spent => cases hmemo
    · exact Thunk.settles_refl _

/-- Releasing a chain changes nothing but thunks. -/
theorem releaseChain_eq (h : Heap) (chain : List (Ref .thunk)) :
    h.releaseChain chain = { h with thunks := (h.releaseChain chain).thunks } := by
  induction chain generalizing h with
  | nil => rfl
  | cons r rs ih =>
    have hfold : h.releaseChain (r :: rs) = (h.release r).releaseChain rs := rfl
    rw [hfold, ih, release]
    split <;> rfl

theorem retains_releaseChain (h : Heap) (chain : List (Ref .thunk)) :
    h.Retains (h.releaseChain chain) := by
  rw [releaseChain_eq]
  exact h.retains_withThunks _

theorem retains_completeChain (h : Heap) (chain : List (Ref .thunk)) (v : Value) :
    h.Retains (h.completeChain chain v).2 := by
  induction chain with
  | nil => exact .refl h
  | cons r rs ih =>
    exact ih.trans (retains_setThunk _ _ _)

/-- Completing a chain leaves the other thunks and forces those of the chain that were claimed. -/
theorem getElem?_completeChain (h : Heap) (chain : List (Ref .thunk)) (v : Value) (i : Nat) :
    (⟨i⟩ ∉ chain → (h.completeChain chain v).2.thunks[i]? = h.thunks[i]?) ∧
      (⟨i⟩ ∈ chain → ∀ d, h.thunks[i]? = some (.running d) →
        ∃ u, (h.completeChain chain v).2.thunks[i]? = some (.forced u)) := by
  induction chain with
  | nil => simp [completeChain]
  | cons r rs ih =>
    have hfold : h.completeChain (r :: rs) v =
        (h.completeChain rs v).2.complete r (h.completeChain rs v).1 := rfl
    set g := (h.completeChain rs v).2 with hg
    rw [hfold]
    by_cases hi : r.index = i
    · refine ⟨fun hmem => absurd (List.mem_cons.2 (.inl (by rw [← hi]))) hmem, fun _ d hd => ?_⟩
      -- the claim on `r` is met here, unless `r` occurs again further on
      by_cases hmem : (⟨i⟩ : Ref .thunk) ∈ rs
      · obtain ⟨u, hu⟩ := ih.2 hmem d hd
        subst hi
        refine ⟨u, ?_⟩
        rw [g.complete_of_forced r (g.thunk_of_getElem? r hu)]
        exact hu
      · have hgi : g.thunks[i]? = some (.running d) := (ih.1 hmem).trans hd
        subst hi
        rw [g.complete_of_unforced r (by rw [memo?, g.thunk_of_getElem? r hgi])]
        have hlt := (Array.getElem?_eq_some_iff.mp hgi).1
        exact ⟨_, by rw [getElem?_setThunk, if_pos ⟨rfl, hlt⟩]⟩
    · have hne : (⟨i⟩ : Ref .thunk) ≠ r := by rintro rfl; exact hi rfl
      rw [getElem?_complete_ne _ _ _ hi, List.mem_cons]
      exact ⟨fun hmem => ih.1 fun h' => hmem (.inr h'),
        fun hmem d hd => ih.2 (hmem.resolve_left hne) d hd⟩

/-- The thunk has been made and has a value. -/
def IsForced (h : Heap) (t : Ref .thunk) : Prop :=
  ∃ v, h.memoAt? t.index = some v

/-- A thunk that is completed has a value from then on. -/
theorem isForced_complete {h : Heap} {t : Ref .thunk} (ht : t.index < h.thunks.size) (v : Value) :
    (h.complete t v).2.IsForced t :=
  ⟨_, memoAt?_of_forced _ (by rw [complete, getElem?_setThunk, if_pos ⟨rfl, ht⟩])⟩

/-- Every thunk of a chain that is completed has a value from then on. -/
theorem isForced_completeChain {h : Heap} {chain : List (Ref .thunk)} (v : Value)
    (hchain : ∀ t ∈ chain, t.index < h.thunks.size) :
    (h.completeChain chain v).2.thunks.size = h.thunks.size ∧
      ∀ t ∈ chain, (h.completeChain chain v).2.IsForced t := by
  induction chain with
  | nil => exact ⟨rfl, by simp⟩
  | cons r rs ih =>
    obtain ⟨hr, hrs⟩ := List.forall_mem_cons.mp hchain
    obtain ⟨hsize, hforced⟩ := ih hrs
    have hfold : h.completeChain (r :: rs) v =
        (h.completeChain rs v).2.complete r (h.completeChain rs v).1 := rfl
    rw [hfold]
    refine ⟨(size_complete _ r _).trans hsize, fun t ht => ?_⟩
    by_cases heq : r.index = t.index
    · have htr : t = r := by cases t; cases r; cases heq; rfl
      rw [htr]
      exact isForced_complete (hsize ▸ hr) _
    · have hne : t ≠ r := fun htr => heq (by rw [htr])
      obtain ⟨u, hu⟩ := hforced t ((List.mem_cons.mp ht).resolve_left hne)
      exact ⟨u, by rw [memoAt?, getElem?_complete_ne _ _ _ heq, ← memoAt?, hu]⟩

/-- A thunk with a value at the end of a chain is marked as done first. -/
theorem completeChain_append_memo {h : Heap} {t : Ref .thunk} {v : Value}
    (ht : h.memo? t = some v) (chain : List (Ref .thunk)) :
    h.completeChain (chain ++ [t]) v = (h.setThunk t (.forced v)).completeChain chain v := by
  simp only [completeChain, List.foldr_append, List.foldr_cons, List.foldr_nil,
    h.complete_of_memo t ht]

/-- A forced thunk at the end of a chain adds nothing to the chain. -/
theorem completeChain_append_forced {h : Heap} {t : Ref .thunk} {v : Value}
    (ht : h.thunk t = .forced v) (chain : List (Ref .thunk)) :
    h.completeChain (chain ++ [t]) v = h.completeChain chain v := by
  rw [completeChain_append_memo (by rw [memo?, ht]), setThunk_of_thunk h t ht]

/-- The thunks that have been claimed since `base` and are not settled yet are `claims`. -/
structure Owned (base h : Heap) (claims : List (Ref .thunk)) : Prop extends base.Retains h where
  nodup : claims.Nodup
  /-- A claimed thunk waited for its computation when it was claimed. -/
  claimed : ∀ t ∈ claims, ∃ d, h.thunks[t.index]? = some (.running d) ∧
    Thunk.Settles base.thunks[t.index]? (some (.waiting d))
  others : ∀ i : Nat, ⟨i⟩ ∉ claims → Thunk.Settles base.thunks[i]? h.thunks[i]?

namespace Owned

variable {base h h' : Heap} {claims chain : List (Ref .thunk)}

/-- At first nothing is claimed. -/
theorem start (h : Heap) : h.Owned h [] :=
  { Retains.refl h with
    nodup := .nil
    claimed := by simp
    others := fun _ _ => Thunk.settles_refl _ }

/-- Without claims everything is settled. -/
theorem settled (o : base.Owned h []) : base.Settled h :=
  { o.toRetains with thunks := fun i => o.others i (by simp) }

/-- The order of the claims does not matter. -/
theorem perm (o : base.Owned h claims) (hp : claims.Perm chain) : base.Owned h chain :=
  { o.toRetains with
    nodup := hp.nodup_iff.mp o.nodup
    claimed := fun t ht => o.claimed t (hp.mem_iff.mpr ht)
    others := fun i hi => o.others i fun hmem => hi (hp.mem_iff.mp hmem) }

/-- Evaluations that settle their own claims leave the claims under way. -/
theorem mono (o : base.Owned h claims) (hs : h.Settled h') : base.Owned h' claims :=
  { o.toRetains.trans hs.toRetains with
    nodup := o.nodup
    claimed := fun t ht => by
      obtain ⟨d, hd, hbase⟩ := o.claimed t ht
      have := hs.thunks t.index
      rw [hd] at this
      exact ⟨d, this, hbase⟩
    others := fun i hi => (o.others i hi).trans (hs.thunks i) }

/-- Claiming a waiting thunk adds it to the claims. -/
theorem claim (o : base.Owned h claims) {t : Ref .thunk} {d : Deferred}
    (ht : h.thunks[t.index]? = some (.waiting d)) :
    base.Owned (h.setThunk t (.running d)) (t :: claims) := by
  have hlt := (Array.getElem?_eq_some_iff.mp ht).1
  have hfresh : t ∉ claims := by
    intro hmem
    obtain ⟨d', hd', -⟩ := o.claimed t hmem
    rw [ht] at hd'
    cases hd'
  refine { o.toRetains.trans (h.retains_setThunk t _) with
    nodup := List.nodup_cons.mpr ⟨hfresh, o.nodup⟩, claimed := ?_, others := ?_ }
  · intro r hr
    by_cases heq : t.index = r.index
    -- the thunk was waiting on the base as well, since nobody had claimed it
    · refine ⟨d, by rw [getElem?_setThunk, if_pos ⟨heq, heq ▸ hlt⟩], ?_⟩
      have := o.others t.index hfresh
      rwa [ht, heq] at this
    · have hr' : r ∈ claims := (List.mem_cons.mp hr).resolve_left fun h => heq (h ▸ rfl)
      rw [getElem?_setThunk, if_neg fun h => heq h.1]
      exact o.claimed r hr'
  · intro i hi
    rw [List.mem_cons, not_or] at hi
    have hne : t.index ≠ i := fun heq => hi.1 (by rw [← heq])
    rw [getElem?_setThunk, if_neg fun h => hne h.1]
    exact o.others i hi.2

/-- Releasing the claims of a chain settles them. -/
theorem release (o : base.Owned h (chain ++ claims)) :
    base.Owned (h.releaseChain chain) claims := by
  have hdisjoint := List.disjoint_of_nodup_append o.nodup
  refine { o.toRetains.trans (h.retains_releaseChain chain) with
    nodup := o.nodup.of_append_right, claimed := ?_, others := ?_ }
  · intro t ht
    rw [getElem?_releaseChain, if_neg fun h => hdisjoint h ht]
    exact o.claimed t (List.mem_append_right _ ht)
  · intro i hi
    rw [getElem?_releaseChain]
    split
    · next hmem =>
      obtain ⟨d, hd, hbase⟩ := o.claimed _ (List.mem_append_left claims hmem)
      rw [hd]
      exact hbase
    · next hmem => exact o.others i (by simp [hmem, hi])

/-- Publishing a value in the thunks of a chain settles the claims on them. -/
theorem complete (o : base.Owned h (chain ++ claims)) (v : Value) :
    base.Owned (h.completeChain chain v).2 claims := by
  have hdisjoint := List.disjoint_of_nodup_append o.nodup
  refine { o.toRetains.trans (h.retains_completeChain chain v) with
    nodup := o.nodup.of_append_right, claimed := ?_, others := ?_ }
  · intro t ht
    rw [(h.getElem?_completeChain chain v t.index).1 fun h => hdisjoint h ht]
    exact o.claimed t (List.mem_append_right _ ht)
  · intro i hi
    by_cases hmem : (⟨i⟩ : Ref .thunk) ∈ chain
    · obtain ⟨d, hd, hbase⟩ := o.claimed _ (List.mem_append_left claims hmem)
      obtain ⟨u, hu⟩ := (h.getElem?_completeChain chain v i).2 hmem d hd
      rw [hu]
      exact hbase.trans (.inr ⟨u, rfl⟩)
    · rw [(h.getElem?_completeChain chain v i).1 hmem]
      exact o.others i (by simp [hmem, hi])

end Owned

end Heap

end LazyMachine
