import LazyMachine.Inspect
import LazyMachine.HostLibrary
import LazyMachine.Proofs.Equality
import LazyMachine.Proofs.Links

/-!
# Debugging texts that end

A debugging text goes into the elements of a list, the fields of a record, the payload of a variant
and the value of a thunk. What bounds it is the number of elements: the tails of a list are followed
for `shownItems` cells and no further, so a list that goes round through its tails has a text.
Nothing bounds the depth. A value that is part of its own text, be it through a head, a field, a
payload or a thunk, has no text with any fuel (`debug?_eq_none_of_cycle`).

* `Displays` leads from a value to what its text goes into.
* `TailsEnd` says that behind the tails that are followed no links go round.
* `debug_ends_iff`: the text of a value ends exactly if both hold of everything displayed in it, as
  a heap is finite.

An evaluation makes such a value if a thunk yields the list that it is an element of
(`debug_loops`).
-/

namespace LazyMachine

namespace Heap

variable {h : Heap} {v : Value}

/-! ### Where links end -/

/-- Following links that leads to a value without a link has followed the whole way. -/
theorem ends_of_follow (steps : Nat)
    (hend : ∀ t, h.follow steps v = .lazy t → h.memo? t = none) : h.Ends v := by
  induction steps generalizing v with
  | zero => exact ⟨[], v, .stop hend⟩
  | succ steps ih =>
    cases v with
    | lazy t =>
      cases hmemo : h.memo? t with
      | none => exact ⟨[], _, .stop fun s hs => by cases hs; exact hmemo⟩
      | some w =>
        obtain ⟨passed, u, hp⟩ := ih (v := w) (by simpa only [follow, hmemo] using hend)
        exact ⟨t :: passed, u, .link hmemo hp⟩
    | _ => exact ⟨[], _, .stop fun t ht => by cases ht⟩

end Heap

namespace Inspect

variable {α β : Type} {h : Heap} {v u : Value} {fuel more i : Nat} {c : Ref .cell}
  {first : Option (Ref .cell)} {fields : List (String × Value)}

/-- A value is found exactly at the end of memo links that end. -/
theorem Heap.isSome_resolve?_iff : (h.resolve? v).isSome ↔ h.Ends v := by
  constructor
  · intro hsome
    refine Heap.ends_of_follow (h.thunks.size + 1) fun t ht => ?_
    rw [Heap.resolve?, Heap.resolve, ht] at hsome
    cases hmemo : h.memo? t with
    | none => rfl
    | some w => simp [hmemo] at hsome
  · rintro ⟨passed, u, hp⟩
    rw [hp.resolve?_eq]
    rfl

/-! ### What is displayed -/

/-- The cell of a list at a position, as far as the list is evaluated. -/
inductive CellAt (h : Heap) : Nat → Option (Ref .cell) → Ref .cell → Prop
  | here (c : Ref .cell) : CellAt h 0 (some c) c
  | next {i : Nat} {c d : Ref .cell} {rest : Option (Ref .cell)}
      (htail : h.resolve? (h.cell c).tail = some (.list rest)) (hd : CellAt h i rest d) :
      CellAt h (i + 1) (some c) d

/-- The debugging text of `u` is part of that of `v`. -/
inductive Displays (h : Heap) : (v u : Value) → Prop
  | item {first : Option (Ref .cell)} {i : Nat} {c : Ref .cell} (hi : i < shownItems)
      (hc : CellAt h i first c) : Displays h (.list first) (h.cell c).head
  | field {r : Ref .record} {x : String × Value} (hx : x ∈ (h.record r).fields) :
      Displays h (.record r) x.2
  | payload (r : Ref .variant) : Displays h (.variant r) (h.variant r).payload
  | memo {t : Ref .thunk} {v : Value} (ht : h.memo? t = some v) : Displays h (.lazy t) v

/-- If this is a list, the links behind its tails end, as far as they are followed. -/
def TailsEnd (h : Heap) (v : Value) : Prop :=
  ∀ first i c, v = .list first → i < shownItems → CellAt h i first c → h.Ends (h.cell c).tail

/-! ### Texts that end -/

/-- With enough fuel there is an answer, which does not change any more. -/
def Concludes (f : Nat → Option α) : Prop :=
  ∃ a enough, ∀ fuel, enough ≤ fuel → f fuel = some a

namespace Concludes

variable {f : Nat → Option α}

theorem pure (a : α) : Concludes fun _ => some a :=
  ⟨a, 0, fun _ _ => rfl⟩

/-- What is said of one more unit of fuel. -/
theorem succ (hf : Concludes fun fuel => f (fuel + 1)) : Concludes f := by
  obtain ⟨a, enough, henough⟩ := hf
  refine ⟨a, enough + 1, fun fuel hfuel => ?_⟩
  obtain ⟨k, rfl⟩ := Nat.exists_eq_add_of_le' (Nat.le_of_add_left_le hfuel)
  exact henough k (by omega)

theorem map (hf : Concludes f) (g : α → β) : Concludes fun fuel => (f fuel).map g := by
  obtain ⟨a, enough, henough⟩ := hf
  exact ⟨g a, enough, fun fuel hfuel => congrArg (Option.map g) (henough fuel hfuel)⟩

end Concludes

/-- Fields whose values have texts have texts. -/
theorem concludes_debugFields?
    (hfields : ∀ x ∈ fields, Concludes fun fuel => debug? h fuel x.2) :
    Concludes fun fuel => debugFields? h fuel fields := by
  induction fields with
  | nil => exact .succ (.pure [])
  | cons x rest ih =>
    rw [List.forall_mem_cons] at hfields
    obtain ⟨text, n, hn⟩ := hfields.1
    obtain ⟨texts, m, hm⟩ := ih hfields.2
    refine .succ ⟨(Text.quote x.1 ++ ": " ++ text) :: texts, n + m, fun fuel hfuel => ?_⟩
    simp only [debugFields?, hn fuel (by omega), hm fuel (by omega)]

/-- So do elements, as far as they are shown, if the links behind the tails end. -/
theorem concludes_debugItems?
    (hheads : ∀ i c, i < more → CellAt h i first c →
      Concludes fun fuel => debug? h fuel (h.cell c).head)
    (htails : ∀ i c, i < more → CellAt h i first c → h.Ends (h.cell c).tail) :
    Concludes fun fuel => debugItems? h fuel more first := by
  induction more generalizing first with
  | zero =>
    cases first with
    | none => exact .succ (.pure [])
    | some c => exact .succ (.pure [".."])
  | succ more ih =>
    cases first with
    | none => exact .succ (.pure [])
    | some c =>
      obtain ⟨text, n, hn⟩ := hheads 0 c (Nat.succ_pos _) (.here c)
      have hsome := Heap.isSome_resolve?_iff.mpr (htails 0 c (Nat.succ_pos _) (.here c))
      obtain ⟨u, htail⟩ := Option.isSome_iff_exists.mp hsome
      cases u with
      | list rest =>
        -- a cell of the rest is one of the list, a position further on
        obtain ⟨texts, m, hm⟩ := @ih rest
          (fun i d hi hd => hheads (i + 1) d (Nat.succ_lt_succ hi) (.next htail hd))
          (fun i d hi hd => htails (i + 1) d (Nat.succ_lt_succ hi) (.next htail hd))
        refine .succ ⟨text :: texts, n + m, fun fuel hfuel => ?_⟩
        simp only [debugItems?, htail, hn fuel (by omega), hm fuel (by omega)]
      | _ =>
        refine .succ ⟨text :: ["<lazy>"], n, fun fuel hfuel => ?_⟩
        simp only [debugItems?, htail, hn fuel hfuel]

/-- A text ends if the texts that are part of it do, and the tails. -/
theorem concludes_debug? (hparts : ∀ u, Displays h v u → Concludes fun fuel => debug? h fuel u)
    (htails : TailsEnd h v) : Concludes fun fuel => debug? h fuel v := by
  refine .succ ?_
  cases v with
  | list first =>
    refine .map (concludes_debugItems? ?_ ?_) Text.listed
    · exact fun i c hi hc => hparts _ (.item hi hc)
    · exact fun i c hi hc => htails first i c rfl hi hc
  | record r => exact .map (concludes_debugFields? fun x hx => hparts _ (.field hx)) Text.braced
  | variant r => exact .map (hparts _ (.payload r)) _
  | lazy t =>
    cases hmemo : h.memo? t with
    | none => simpa only [debug?, hmemo] using Concludes.pure _
    | some w => simpa only [debug?, hmemo] using (hparts _ (.memo hmemo)).map _
  | _ => exact .pure _

/-! ### What a text that ends says of the value -/

/-- The text of each field takes less fuel than the text of all. -/
theorem of_debugFields?_eq_some {texts : List String}
    (htexts : debugFields? h fuel fields = some texts) {x : String × Value} (hx : x ∈ fields) :
    ∃ less < fuel, (debug? h less x.2).isSome := by
  induction fields generalizing fuel texts with
  | nil => cases hx
  | cons y rest ih =>
    cases fuel with
    | zero => cases htexts
    | succ fuel =>
      simp only [debugFields?] at htexts
      split at htexts
      · next text _ htext hrest =>
        rcases List.mem_cons.mp hx with rfl | hmem
        · exact ⟨fuel, Nat.lt_succ_self _, Option.isSome_of_eq_some htext⟩
        · obtain ⟨less, hless, hsome⟩ := ih hrest hmem
          exact ⟨less, Nat.lt_succ_of_lt hless, hsome⟩
      · cases htexts

/-- So does that of each element, and the links behind its tail end. -/
theorem of_debugItems?_eq_some {texts : List String}
    (htexts : debugItems? h fuel more first = some texts) (hi : i < more)
    (hc : CellAt h i first c) :
    (∃ less < fuel, (debug? h less (h.cell c).head).isSome) ∧ h.Ends (h.cell c).tail := by
  -- on the way to the cell, the fuel and the number of cells that may follow go down together
  induction hc generalizing fuel more texts with
  | here c =>
    obtain ⟨more, rfl⟩ := Nat.exists_eq_add_one.mpr hi
    cases fuel with
    | zero => cases htexts
    | succ fuel =>
      simp only [debugItems?] at htexts
      split at htexts
      · next text _ htext hrest =>
        refine ⟨⟨fuel, Nat.lt_succ_self _, Option.isSome_of_eq_some htext⟩, ?_⟩
        rw [← Heap.isSome_resolve?_iff]
        cases htail : h.resolve? (h.cell c).tail with
        | none => simp [htail] at hrest
        | some u => rfl
      · cases htexts
  | @next i c d rest htail hd ih =>
    obtain ⟨more, rfl⟩ := Nat.exists_eq_add_one.mpr (Nat.zero_lt_of_lt hi)
    cases fuel with
    | zero => cases htexts
    | succ fuel =>
      simp only [debugItems?, htail] at htexts
      split at htexts
      · next text _ htext hrest =>
        obtain ⟨⟨less, hless, hsome⟩, hends⟩ := ih hrest (Nat.lt_of_succ_lt_succ hi)
        exact ⟨⟨less, Nat.lt_succ_of_lt hless, hsome⟩, hends⟩
      · cases htexts

/-- The texts that are part of a text end with less fuel. -/
theorem debug?_of_displays (hv : (debug? h fuel v).isSome) (hu : Displays h v u) :
    ∃ less < fuel, (debug? h less u).isSome := by
  cases fuel with
  | zero => cases hv
  | succ fuel =>
    -- one level less is used for the text itself
    have hsucc {x : Value} : (∃ less < fuel, (debug? h less x).isSome) →
        ∃ less < fuel + 1, (debug? h less x).isSome :=
      fun ⟨less, hless, hsome⟩ => ⟨less, Nat.lt_succ_of_lt hless, hsome⟩
    cases hu with
    | item hi hc =>
      rw [debug?, Option.isSome_map] at hv
      obtain ⟨texts, htexts⟩ := Option.isSome_iff_exists.mp hv
      exact hsucc (of_debugItems?_eq_some htexts hi hc).1
    | field hx =>
      rw [debug?, Option.isSome_map] at hv
      obtain ⟨texts, htexts⟩ := Option.isSome_iff_exists.mp hv
      exact hsucc (of_debugFields?_eq_some htexts hx)
    | payload r =>
      rw [debug?, Option.isSome_map] at hv
      exact ⟨fuel, Nat.lt_succ_self _, hv⟩
    | memo ht =>
      simp only [debug?, ht, Option.isSome_map] at hv
      exact ⟨fuel, Nat.lt_succ_self _, hv⟩

/-- A list that has a text has tails that end. -/
theorem tailsEnd_of_debug? (hv : (debug? h fuel v).isSome) : TailsEnd h v := by
  rintro first i c rfl hi hc
  cases fuel with
  | zero => cases hv
  | succ fuel =>
    rw [debug?, Option.isSome_map] at hv
    obtain ⟨texts, htexts⟩ := Option.isSome_iff_exists.mp hv
    exact (of_debugItems?_eq_some htexts hi hc).2

/-- Whatever is displayed in a value that has a text has one. -/
theorem debug?_of_reaches (hv : (debug? h fuel v).isSome)
    (hu : Relation.ReflTransGen (Displays h) v u) : ∃ less, (debug? h less u).isSome := by
  induction hu with
  | refl => exact ⟨fuel, hv⟩
  | tail _ hu ih =>
    obtain ⟨less, hless⟩ := ih
    obtain ⟨less, -, hless⟩ := debug?_of_displays hless hu
    exact ⟨less, hless⟩

/-- The text of something displayed within a value needs less fuel than the text of the value. -/
theorem debug?_of_displayed (hv : (debug? h fuel v).isSome)
    (hu : Relation.TransGen (Displays h) v u) : ∃ less < fuel, (debug? h less u).isSome := by
  induction hu with
  | single hu => exact debug?_of_displays hv hu
  | tail _ hu ih =>
    obtain ⟨less, hless, hsome⟩ := ih
    obtain ⟨least, hleast, hsome⟩ := debug?_of_displays hsome hu
    exact ⟨least, hleast.trans hless, hsome⟩

/-- What is displayed within itself has no text: each text would contain one that needs less
fuel. -/
theorem debug?_eq_none_of_cycle (hv : Relation.TransGen (Displays h) v v) (fuel : Nat) :
    debug? h fuel v = none := by
  induction fuel using Nat.strong_induction_on with
  | _ fuel ih =>
    by_contra hne
    obtain ⟨less, hless, hsome⟩ :=
      debug?_of_displayed (Option.isSome_iff_ne_none.mpr hne) hv
    rw [ih less hless] at hsome
    cases hsome

/-! ### Heaps are finite -/

/-- The elements, fields, payloads and values of thunks that the objects of a heap hold, with what
an object holds that was never made. -/
def held (h : Heap) : List Value :=
  (default :: h.cells.toList).map Cell.head ++
    (default :: h.records.toList).flatMap (fun r => r.fields.map (·.2)) ++
    (default :: h.variants.toList).map Variant.payload ++
    (default :: h.thunks.toList).filterMap Thunk.memo?

/-- What is read at any place is in the array, or is the default. -/
theorem getD_mem_cons (xs : Array α) (i : Nat) (d : α) : xs.getD i d ∈ d :: xs.toList := by
  rw [Array.getD_eq_getD_getElem?]
  cases hget : xs[i]? with
  | none => exact List.mem_cons_self
  | some x => exact List.mem_cons_of_mem _ (Array.mem_toList_iff.mpr (Array.mem_of_getElem? hget))

/-- What is displayed is held by an object. -/
theorem Displays.mem_held (hu : Displays h v u) : u ∈ held h := by
  simp only [held, List.mem_append]
  cases hu with
  | item _ _ => exact .inl (.inl (.inl (List.mem_map_of_mem (getD_mem_cons _ _ _))))
  | field hx =>
    exact .inl (.inl (.inr (List.mem_flatMap.mpr ⟨_, getD_mem_cons _ _ _, List.mem_map_of_mem hx⟩)))
  | payload r => exact .inl (.inr (List.mem_map_of_mem (getD_mem_cons _ _ _)))
  | memo ht => exact .inr (List.mem_filterMap.mpr ⟨_, getD_mem_cons _ _ _, ht⟩)

/-- A property passes from all that is displayed in a value to the value. If nothing displayed in
`v` is displayed within itself, it holds of `v`: the heap is finite, so there is an end to what is
displayed. -/
theorem displays_induction {P : Value → Prop}
    (hcycle : ∀ u, Relation.ReflTransGen (Displays h) v u → ¬ Relation.TransGen (Displays h) u u)
    (hstep : ∀ u, Relation.ReflTransGen (Displays h) v u → (∀ x, Displays h u x → P x) → P u) :
    P v := by
  let Displayed := {u // Relation.ReflTransGen (Displays h) v u}
  have hfinite : Finite Displayed := by
    -- apart from `v`, only what an object holds is displayed
    refine ((v :: held h).finite_toSet.subset fun u hu => ?_).to_subtype
    rcases Relation.ReflTransGen.cases_tail hu with rfl | ⟨x, -, hx⟩
    · exact List.mem_cons_self
    · exact List.mem_cons_of_mem _ hx.mem_held
  -- among finitely many values, being displayed within is well-founded unless there is a cycle
  let Within (x y : Displayed) := Relation.TransGen (Displays h) y.1 x.1
  have htrans : IsTrans Displayed Within := ⟨fun _ _ _ hxy hyz => hyz.trans hxy⟩
  have hirrefl : Std.Irrefl Within := ⟨fun x => hcycle x.1 x.2⟩
  have hwf : WellFounded Within := Finite.wellFounded_of_trans_of_irrefl Within
  have hall : ∀ x : Displayed, P x.1 := fun x =>
    hwf.induction x fun y ih => hstep y.1 y.2 fun z hz => ih ⟨z, y.2.tail hz⟩ (.single hz)
  exact hall ⟨v, .refl⟩

end Inspect

open Inspect

/-- The debugging text of a value ends exactly if nothing displayed in it, directly or further down,
is displayed within itself, and the links behind the tails that are followed end. If it does not
end, no amount of fuel yields a text. -/
theorem debug_ends_iff (h : Heap) (v : Value) :
    ((∃ text enough, ∀ fuel, enough ≤ fuel → debug? h fuel v = some text) ↔
      ∀ u, Relation.ReflTransGen (Displays h) v u →
        ¬ Relation.TransGen (Displays h) u u ∧ TailsEnd h u) ∧
    ((∃ fuel, debug? h fuel v ≠ none) →
      ∃ text enough, ∀ fuel, enough ≤ fuel → debug? h fuel v = some text) := by
  have hends (hbound : ∀ u, Relation.ReflTransGen (Displays h) v u →
      ¬ Relation.TransGen (Displays h) u u ∧ TailsEnd h u) :
      Concludes fun fuel => debug? h fuel v :=
    displays_induction (fun u hu => (hbound u hu).1) fun u hu hparts =>
      concludes_debug? hparts (hbound u hu).2
  have hbound {fuel : Nat} (hv : (debug? h fuel v).isSome) (u : Value)
      (hu : Relation.ReflTransGen (Displays h) v u) :
      ¬ Relation.TransGen (Displays h) u u ∧ TailsEnd h u := by
    -- what is displayed has a text as well
    obtain ⟨less, hsome⟩ := debug?_of_reaches hv hu
    refine ⟨fun hcycle => ?_, tailsEnd_of_debug? hsome⟩
    rw [debug?_eq_none_of_cycle hcycle] at hsome
    cases hsome
  refine ⟨⟨fun ⟨text, enough, henough⟩ => ?_, hends⟩, fun ⟨fuel, hfuel⟩ => ?_⟩
  · exact hbound (Option.isSome_of_eq_some (henough enough (Nat.le_refl _)))
  · exact hends (hbound (Option.isSome_iff_ne_none.mpr hfuel))

example : debug? circularOnes 40 (.list (some ⟨0⟩)) =
    some ("[" ++ String.join (List.replicate 16 "Int(1), ") ++ "..]") := by decide +kernel

/-- A list of one element, a thunk that yields whatever a variable of the host holds when it is
evaluated. The variable holds the list. -/
def World.selfHeld : World where
  heap := {
    cells := #[⟨.lazy ⟨0⟩, .list none⟩]
    thunks := #[.waiting (.native (HostLibrary.latest "g"))] }
  host := { bindings := [("g", .list (some ⟨0⟩))] }

/-- Once the thunk is evaluated, all links end, but the list has no debugging text: it is displayed
within its own element. -/
theorem debug_loops :
    ∃ w', engine 4 (.force (.lazy ⟨0⟩)) World.selfHeld = .ok (.list (some ⟨0⟩)) w' ∧
      Session Heap.Evaluated w'.heap ∧ (∀ v, w'.heap.Ends v) ∧
      ∀ fuel, debug? w'.heap fuel (.list (some ⟨0⟩)) = none := by
  have hsession : Session Heap.Evaluated World.selfHeld.heap := by
    exact .grow (.deferred _ .start) (Heap.extends_addCell _ _)
  have hforced : Session Heap.Evaluated _ :=
    .call (.operation 4 (.force (.lazy ⟨0⟩))) hsession ⟨trivial, rfl⟩
  refine ⟨_, rfl, hforced, hforced.direct.ends, debug?_eq_none_of_cycle ?_⟩
  exact .tail (.single (.item (Nat.succ_pos _) (.here ⟨0⟩))) (.memo rfl)

end LazyMachine
