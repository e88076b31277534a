import LazyMachine.Inspect
import LazyMachine.Proofs.Driving
import LazyMachine.Proofs.Moves

/-!
# Links between forced thunks

The value of a forced thunk may be lazy itself: a link to another thunk. Forcing and resolving
follow such links, so they end only if no links go round in a circle. `Heap.Ends h v` says that the
way from `v` along the links of `h` ends, at a value that is not lazy or at a thunk without a value.

Links come from thunks that are made with a lazy value; evaluations only copy them. If such a value
is evaluated when the thunk is made, all links lead to values and keep doing so (`Heap.Direct`), and
every way ends (`links_end`). A thunk that is made with a pending one as its value breaks this: if
the pending thunk is then evaluated at once and yields the thunk made with it, it becomes a link to
itself (`forceNow_links_back`). The machine finds this circle, as it resolves what code yields
before it publishes it. A comparison that comes to such a link does not end, although everything it
could look at is evaluated (`equal_loops`), and although the host may find the values equal by their
identity (`equal_loops_on_same`).
-/

namespace LazyMachine

namespace Heap

variable {h h' : Heap} {v u : Value} {t : Ref .thunk} {passed : List (Ref .thunk)}

/-! ### Ways along links -/

/-- The way from a value along the values of forced thunks: the thunks passed, and the end, which is
a value that is not lazy or a thunk without a value. -/
inductive Path (h : Heap) : Value → List (Ref .thunk) → Value → Prop
  | stop {v : Value} (hv : ∀ t, v = .lazy t → h.memo? t = none) : Path h v [] v
  | link {t : Ref .thunk} {v u : Value} {passed : List (Ref .thunk)} (ht : h.memo? t = some v)
      (hv : Path h v passed u) : Path h (.lazy t) (t :: passed) u

/-- After finitely many links the way from a value ends. -/
def Ends (h : Heap) (v : Value) : Prop :=
  ∃ passed u, h.Path v passed u

namespace Path

theorem unique {passed' : List (Ref .thunk)} {u' : Value} (hp : h.Path v passed u)
    (hp' : h.Path v passed' u') : passed = passed' := by
  induction hp generalizing passed' with
  | stop hv =>
    cases hp' with
    | stop => rfl
    | link ht => rw [hv _ rfl] at ht; cases ht
  | link ht _ ih =>
    cases hp' with
    | stop hv => rw [hv _ rfl] at ht; cases ht
    | link ht' hv' =>
      rw [ht] at ht'
      cases ht'
      rw [ih hv']

/-- The way from a thunk on the way is the rest of the way. -/
theorem of_mem (hp : h.Path v passed u) (ht : t ∈ passed) :
    ∃ rest, h.Path (.lazy t) rest u ∧ rest.length ≤ passed.length := by
  induction hp with
  | stop => cases ht
  | link hmemo hv ih =>
    rcases List.mem_cons.mp ht with rfl | hmem
    · exact ⟨_, .link hmemo hv, Nat.le_refl _⟩
    · obtain ⟨rest, hrest, hle⟩ := ih hmem
      exact ⟨rest, hrest, Nat.le_succ_of_le hle⟩

/-- No thunk is passed twice: its way would be part of itself. -/
theorem nodup (hp : h.Path v passed u) : passed.Nodup := by
  induction hp with
  | stop => exact .nil
  | link ht hv ih =>
    refine List.nodup_cons.mpr ⟨fun hmem => ?_, ih⟩
    obtain ⟨rest, hrest, hle⟩ := hv.of_mem hmem
    rw [hrest.unique (.link ht hv), List.length_cons] at hle
    omega

/-- All thunks on the way but the last have been made: one that was never made counts as forced, but
to unit, where the way ends. -/
theorem lt_of_mem_dropLast (hp : h.Path v passed u) (ht : t ∈ passed.dropLast) :
    t.index < h.thunks.size := by
  induction hp with
  | stop => cases ht
  | link hmemo hv ih =>
    cases hv with
    | stop => cases ht
    | link hnext hrest =>
      rw [List.dropLast_cons_cons] at ht
      rcases List.mem_cons.mp ht with rfl | hmem
      · by_contra hge
        rw [memo?_of_size_le _ _ (Nat.le_of_not_lt hge)] at hmemo
        cases hmemo
      · exact ih hmem

theorem length_le (hp : h.Path v passed u) : passed.length ≤ h.thunks.size + 1 := by
  have hnodup : (passed.dropLast.map Ref.index).Nodup := by
    refine List.Nodup.map (fun a b hab => ?_) (hp.nodup.sublist (List.dropLast_sublist _))
    cases a
    cases b
    exact congrArg _ hab
  have hsub : passed.dropLast.map Ref.index ⊆ List.range h.thunks.size := by
    intro i hi
    obtain ⟨t, ht, rfl⟩ := List.mem_map.mp hi
    exact List.mem_range.mpr (hp.lt_of_mem_dropLast ht)
  have hle := (List.subperm_of_subset hnodup hsub).length_le
  rw [List.length_map, List.length_dropLast, List.length_range] at hle
  omega

/-- The end of the way has no link. -/
theorem last (hp : h.Path v passed u) (hu : u = .lazy t) : h.memo? t = none := by
  induction hp with
  | stop hv => exact hv t hu
  | link _ _ ih => exact ih hu

/-- Following links for at least the length of the way leads to its end. -/
theorem follow_eq {steps : Nat} (hp : h.Path v passed u) (hle : passed.length ≤ steps) :
    h.follow steps v = u := by
  induction hp generalizing steps with
  | @stop v hv =>
    unfold follow
    split
    · rfl
    · split
      · next t =>
        rw [hv t rfl]
      · rfl
  | link ht _ ih =>
    obtain ⟨rest, rfl⟩ : ∃ rest, steps = rest + 1 := ⟨steps - 1, by simp at hle; omega⟩
    rw [follow, ht]
    exact ih (by simpa using hle)

/-- A value resolves to the end of its way. -/
theorem resolve_eq (hp : h.Path v passed u) : h.resolve v = u :=
  hp.follow_eq hp.length_le

theorem resolve?_eq (hp : h.Path v passed u) : h.resolve? v = some u := by
  by_cases hu : u.isLazy = false
  · rw [resolve?_of_evaluated (by rwa [hp.resolve_eq]), hp.resolve_eq]
  · obtain ⟨t, rfl⟩ : ∃ t, u = .lazy t := by cases u <;> simp_all [Value.isLazy]
    exact resolve?_of_memo?_eq_none hp.resolve_eq (hp.last rfl)

/-- The loop that forces passes the links one by one and runs nothing on the way. -/
theorem forceFrom_eq {w : World} (hp : w.heap.Path v passed u) (E : Engine) (fuel : Nat) :
    forceFrom E (fuel + passed.length) v w = forceFrom E fuel u w := by
  induction hp with
  | stop => rfl
  | link ht _ ih => rw [List.length_cons, ← Nat.add_assoc, forceFrom_lazy E _ ht, ih]

end Path

/-- The way along a link to itself would be longer than itself. -/
theorem not_ends_of_link_self (ht : h.memo? t = some (.lazy t)) : ¬ h.Ends (.lazy t) := by
  rintro ⟨passed, u, hp⟩
  have heq := hp.unique (.link ht hp)
  exact absurd (congrArg List.length heq) (by simp)

/-- The loop that forces follows a link to itself for ever. -/
theorem forceFrom_link_self {w : World} (ht : w.heap.memo? t = some (.lazy t)) (E : Engine)
    (fuel : Nat) : forceFrom E fuel (.lazy t) w = .error .exhausted w := by
  induction fuel with
  | zero => rfl
  | succ fuel ih => rw [forceFrom_lazy E fuel ht, ih]

/-! ### Heaps whose links lead to values -/

/-- The way from a value along links ends at a value that is not lazy. -/
inductive Evaluated (h : Heap) : Value → Prop
  | value {v : Value} (hv : v.isLazy = false) : Evaluated h v
  | link {t : Ref .thunk} {v : Value} (ht : h.memoAt? t.index = some v)
      (hv : Evaluated h v) : Evaluated h (.lazy t)

/-- All links lead to values. -/
def Direct (h : Heap) : Prop :=
  ∀ (i : Nat) (v : Value), h.memoAt? i = some v → h.Evaluated v

/-- A forced thunk has its value. -/
theorem memo?_of_forced (ht : h.thunks[t.index]? = some (.forced v)) : h.memo? t = some v :=
  h.memo?_of_memoAt? t (h.memoAt?_of_forced ht)

/-- The way from an evaluated value ends at a value that is not lazy. -/
theorem Evaluated.path (hv : h.Evaluated v) : ∃ passed u, h.Path v passed u ∧ u.isLazy = false := by
  induction hv with
  | value hv =>
    refine ⟨[], _, .stop fun t ht => ?_, hv⟩
    rw [ht] at hv
    cases hv
  | link ht _ ih =>
    obtain ⟨passed, u, hp, hu⟩ := ih
    exact ⟨_ :: passed, u, .link (h.memo?_of_memoAt? _ ht) hp, hu⟩

theorem Evaluated.mono (hkeep : ∀ (i : Nat) (v : Value), h.memoAt? i = some v →
    h'.memoAt? i = some v) (hv : h.Evaluated v) : h'.Evaluated v := by
  induction hv with
  | value hv => exact .value hv
  | link ht _ ih => exact .link (hkeep _ _ ht) ih

/-- What is evaluated stays evaluated. -/
theorem Move.evaluated (m : h.Move h') (hv : h.Evaluated v) : h'.Evaluated v :=
  hv.mono fun _ _ => m.memo

/-- What may be published where all links lead to values is evaluated. -/
theorem Direct.publishable (hd : h.Direct) (hv : h.Publishable v) : h.Evaluated v := by
  rcases hv with hv | ⟨i, hi⟩
  · exact .value hv
  · exact hd i v hi

/-- What becomes the value of a thunk is evaluated already. -/
theorem Direct.setThunk (hd : h.Direct) {s : Thunk} (m : h.Move (h.setThunk t s))
    (hs : ∀ v, s.memo? = some v → h.Evaluated v) : (h.setThunk t s).Direct := by
  intro i v hi
  refine m.evaluated ?_
  rw [memoAt?, getElem?_setThunk] at hi
  split at hi
  · exact hs v hi
  · exact hd i v hi

/-- Objects other than thunks have no part in links. -/
theorem Direct.of_extends (hd : h.Direct) (e : h.Extends h') : h'.Direct := by
  intro i v hi
  rw [memoAt?, e.thunks] at hi
  refine (hd i v hi).mono fun j u hj => ?_
  rw [memoAt?, e.thunks]
  exact hj

/-- Every move keeps all links leading to values. -/
theorem Direct.move (hd : h.Direct) (m : h.Move h') : h'.Direct := by
  cases m with
  | grow e => exact hd.of_extends e.toExtends
  | defer d =>
    intro i v hi
    rw [memoAt?, addThunk, Array.getElem?_push] at hi
    split at hi
    · cases hi
    · exact (Move.defer h d).evaluated (hd i v hi)
  | claim ht => exact hd.setThunk (.claim ht) fun v hv => by cases hv
  | release ht => exact hd.setThunk (.release ht) fun v hv => by cases hv
  | publish ht hv =>
    refine hd.setThunk (.publish ht hv) ?_
    rintro v ⟨⟩
    exact hd.publishable hv
  | mark ht =>
    refine hd.setThunk (.mark ht) ?_
    rintro v ⟨⟩
    exact hd.publishable (publishable_of_memo ht)

/-- A thunk that is made with an evaluated value. -/
theorem Direct.addReady (hd : h.Direct) (hv : h.Evaluated v) :
    (h.addThunk (.forced v)).2.Direct := by
  have hkeep {u : Value} (hu : h.Evaluated u) : (h.addThunk (.forced v)).2.Evaluated u :=
    hu.mono fun i _ => h.memoAt?_addThunk _
  intro i u hi
  rw [memoAt?, addThunk, Array.getElem?_push] at hi
  split at hi
  · cases hi
    exact hkeep hv
  · exact hkeep (hd i u hi)

/-- From every value the way ends. -/
theorem Direct.ends (hd : h.Direct) (v : Value) : h.Ends v := by
  cases hv : v.isLazy with
  | false =>
    obtain ⟨passed, u, hp, -⟩ := (Evaluated.value hv).path
    exact ⟨passed, u, hp⟩
  | true =>
    cases v with
    | lazy t =>
      cases hmemo : h.memo? t with
      | none => exact ⟨[], _, .stop fun s hs => by cases hs; exact hmemo⟩
      | some v =>
        obtain ⟨passed, u, hp, -⟩ := (hd.publishable (publishable_of_memo hmemo)).path
        exact ⟨_ :: passed, u, .link hmemo hp⟩
    | _ => cases hv

end Heap

/-! ### Circles that are found -/

section Circles

variable {w : World} {t : Ref .thunk} {d : Deferred}

/-- Evaluating a thunk at once while its evaluation is under way fails. -/
theorem forceNow_running (ht : w.heap.thunk t = .running d) (E : Engine) (fuel : Nat)
    (waiting : List (Ref .thunk)) :
    forceNow E (fuel + 1) waiting t w = .error .failed { w with
      heap := w.heap.releaseChain waiting
      context := w.context.fail .cyclicLazy } :=
  bind_error (releasing_error (claim_running ht))

/-- So does driving it. -/
theorem drive_running (ht : w.heap.thunk t = .running d) (E : Engine) (fuel : Nat)
    (waiting : List (Ref .thunk)) :
    drive E (fuel + 1) waiting t w = .error .failed { w with
      heap := w.heap.releaseChain waiting
      context := w.context.fail .cyclicLazy } :=
  bind_error (releasing_error (claim_running ht))

/-- So does a result of code that leads back to it. -/
theorem settle_running {v : Value} (hv : w.heap.resolve v = .lazy t)
    (ht : w.heap.thunk t = .running d) (E : Engine) (fuel : Nat) (chain : List (Ref .thunk)) :
    settle E (fuel + 1) chain v w = .error .failed { w with
      heap := w.heap.releaseChain chain
      context := w.context.fail .cyclicLazy } := by
  have hmemo : w.heap.memo? t = none := by rw [Heap.memo?, ht]
  have hresolve : Eval.resolve v w = .ok (.lazy t) w :=
    Eval.resolve_ok (Heap.resolve?_of_memo?_eq_none hv hmemo)
  rw [settle, bind_ok hresolve]
  exact drive_running ht E fuel chain

end Circles

/-! ### Sessions -/

/-- What the host may call: any operation, the evaluation of a thunk at once, and the runs of a
machine. -/
inductive HostCall : {α : Type} → Eval α → Prop
  | operation (level : Nat) (o : Operation) : HostCall (engine level o)
  | forceNow (level : Nat) (t : Ref .thunk) : HostCall (forceNow (engine level) level [] t)
  | run (level : Nat) (m : Machine) (program : Program) : HostCall (m.run level program)
  | invoke (level : Nat) (m : Machine) (program : Program) (chunk : Nat) (locals : List Value) :
      HostCall (m.invoke (engine level) level program chunk locals)

theorem HostCall.evolves {α : Type} {x : Eval α} (hx : HostCall x) :
    x.Preserves Heap.Evolves := by
  cases hx with
  | operation level o => exact engine_evolves level o
  | forceNow level t => exact forceNow_evolves (engine_evolves level) level [] t
  | run level m program =>
    unfold Machine.run
    split
    · exact .pure _
    · refine .bind (execute_evolves (engine_evolves level) level _) fun (e, m) => ?_
      cases e with
      | done v => exact .pure _
      | failed => exact .bind (.of_eq fun _ => rfl) fun _ => .pure _
      | aborted a => exact .pure _
  | invoke level m program chunk locals =>
    exact invoke_evolves (engine_evolves level) level m program chunk locals

/-- The heaps that the host can build: it adds objects, makes thunks that wait, and thunks with a
value that `ready` admits, and makes calls in whatever context. -/
inductive Session (ready : Heap → Value → Prop) : Heap → Prop
  | start : Session ready {}
  | grow {h h' : Heap} : Session ready h → h.Extends h' → Session ready h'
  | deferred {h : Heap} (d : Deferred) :
      Session ready h → Session ready (h.addThunk (.waiting d)).2
  | ready {h : Heap} {v : Value} :
      Session ready h → ready h v → Session ready (h.addThunk (.forced v)).2
  | call {α : Type} {x : Eval α} {w w' : World} : HostCall x → Session ready w.heap →
      (Leads x w fun r w₁ => Regular r ∧ w₁ = w') → Session ready w'.heap

/-- If thunks are made with evaluated values only, all links lead to values. -/
theorem Session.direct {h : Heap} (hs : Session Heap.Evaluated h) : h.Direct := by
  induction hs with
  | start =>
    intro i v hi
    cases hi
  | grow _ e ih => exact ih.of_extends e
  | deferred d _ ih => exact ih.move (.defer _ d)
  | ready _ hv ih => exact ih.addReady hv
  | @call α x w w' hx _ hcall ih =>
    have hevolves : w.heap.Evolves w'.heap :=
      ((hx.evolves w).and hcall).elim fun _ _ ⟨hmoves, hreg, hw⟩ => hw ▸ hmoves hreg
    exact hevolves.keeps (fun m hd => hd.move m) ih

/-- If thunks are made with evaluated values only, the way along links ends from every value. So
resolving ends, and forcing passes the links and then ends with the value of a thunk evaluated on
the way; and a thunk that is needed for its own evaluation makes it fail. -/
theorem links_end {h : Heap} (hs : Session Heap.Evaluated h) :
    (∀ v, h.Ends v) ∧
    (∀ v t, h.resolve v = .lazy t → h.memo? t = none) ∧
    (∀ v, ∃ n, ∀ E fuel (w : World), w.heap = h →
      forceFrom E (fuel + n) v w = forceFrom E fuel (h.resolve v) w) ∧
    (∀ level t v (w w' : World), w.heap = h →
      forceNow (engine level) level [] t w = .ok v w' →
      ∃ n u, u.isLazy = false ∧ ∀ E fuel, forceFrom E (fuel + 1 + n) v w' = .ok u w') ∧
    (∀ t d E fuel waiting (w : World), w.heap.thunk t = .running d →
      let found : World := { w with
        heap := w.heap.releaseChain waiting, context := w.context.fail .cyclicLazy }
      forceNow E (fuel + 1) waiting t w = .error .failed found ∧
      drive E (fuel + 1) waiting t w = .error .failed found ∧
      ∀ v, w.heap.resolve v = .lazy t →
        settle E (fuel + 1) waiting v w = .error .failed found) := by
  have hd := hs.direct
  -- a way that ends is a path: resolving and forcing both follow it
  refine ⟨hd.ends, fun v t ht => ?_, fun v => ?_, fun level t v w w' hw hforce => ?_,
    fun t d E fuel waiting w ht => ⟨forceNow_running ht E fuel waiting,
      drive_running ht E fuel waiting, fun v hv => settle_running hv ht E fuel waiting⟩⟩
  · obtain ⟨passed, u, hp⟩ := hd.ends v
    rw [hp.resolve_eq] at ht
    exact hp.last ht
  · obtain ⟨passed, u, hp⟩ := hd.ends v
    refine ⟨passed.length, fun E fuel w hw => ?_⟩
    subst hw
    rw [hp.resolve_eq]
    exact hp.forceFrom_eq E fuel
  · subst hw
    obtain ⟨hmoves, hpub⟩ :=
      ((forceNow_leads (engine_evolves level) level [] t).of_ok hforce) trivial
    have hd' : w'.heap.Direct := hmoves.keeps (fun m hd => hd.move m) hd
    obtain ⟨passed, u, hp, hu⟩ := (hd'.publishable (hpub v rfl)).path
    refine ⟨passed.length, u, hu, fun E fuel => ?_⟩
    rw [hp.forceFrom_eq E (fuel + 1), forceFrom_of_not_lazy E fuel hu]
    rfl

/-- A thunk that yields one made with the value of a third. -/
def World.linkedOn : World where
  heap := { thunks := #[.forced (.int 7), .forced (.lazy ⟨0⟩),
    .waiting (.native (.done (.lazy ⟨1⟩)))] }

/-- Links to an evaluated thunk: the evaluation makes another one, and the ways end. -/
theorem links_end_linkedOn :
    ∃ w', forceNow (engine 2) 2 [] ⟨2⟩ World.linkedOn = .ok (.lazy ⟨0⟩) w' ∧
      Session Heap.Evaluated w'.heap ∧ w'.heap.Ends (.lazy ⟨2⟩) := by
  have hcalls : Session Heap.Evaluated World.linkedOn.heap :=
    .deferred _ (.ready (.ready .start (.value rfl)) (.link rfl (.value rfl)))
  have hforced : Session Heap.Evaluated _ := .call (.forceNow 2 ⟨2⟩) hcalls ⟨trivial, rfl⟩
  exact ⟨_, rfl, hforced, (links_end hforced).1 _⟩

/-- Two thunks, the second made with the first as its value, and a variable of the host that holds
the second. The first one yields whatever that variable holds when it is evaluated. -/
def World.linkedBack : World where
  heap := { thunks := #[.waiting (.native (.readVariable "g" .done)), .forced (.lazy ⟨0⟩)] }
  host := { bindings := [("g", .lazy ⟨1⟩)] }

/-- A thunk that is evaluated at once and yields a thunk made with it becomes a link to itself. -/
theorem forceNow_links_back :
    Session (fun _ _ => True) World.linkedBack.heap ∧
    ∃ w', forceNow (engine 2) 2 [] ⟨0⟩ World.linkedBack = .ok (.lazy ⟨0⟩) w' ∧
      w'.heap.memo? ⟨0⟩ = some (.lazy ⟨0⟩) ∧ ¬ w'.heap.Ends (.lazy ⟨0⟩) := by
  exact ⟨.ready (.deferred _ .start) trivial, _, rfl, rfl, Heap.not_ends_of_link_self rfl⟩

/-! ### Comparisons that do not end -/

section LinkedToItself

variable {w : World} (hlive : w.context.interrupt? = none) {t : Ref .thunk}
  (ht : w.heap.memo? t = some (.lazy t))

include hlive ht

/-- A thunk that links to itself is compared with nothing, as forcing it does not end. -/
theorem Equality.value_link_self (E : Engine) (steps fuel : Nat) (r : Value) (met : Met) :
    value ⟨steps, force E steps, E⟩ fuel (.lazy t) r met w = .error .exhausted w := by
  cases fuel with
  | zero => rfl
  | succ fuel =>
    rw [value]
    exact bind_error ((bind_ok (Eval.ensureLive_ok hlive)).trans
      (Heap.forceFrom_link_self ht E steps))

/-- Nor is a list of which it is the first element compared with any list but the empty one. -/
theorem Equality.value_link_self_head (E : Engine) (steps fuel : Nat) {a : Ref .cell}
    (b : Ref .cell) (ha : (w.heap.cell a).head = .lazy t) :
    value ⟨steps, force E steps, E⟩ fuel (.list (some a)) (.list (some b)) [] w =
      .error .exhausted w := by
  have hforce (c : Option (Ref .cell)) (k : Nat) :
      force E (k + 1) (.list c) w = .ok (.list c) w :=
    bind_ok (Eval.ensureLive_ok hlive)
  -- the first elements are compared before anything else, which never ends
  have hlists (fuel : Nat) :
      lists ⟨steps, force E steps, E⟩ fuel (some a) (some b) [] w = .error .exhausted w := by
    cases fuel with
    | zero => rfl
    | succ fuel =>
      have hhead := value_link_self hlive ht E steps fuel (w.heap.cell b).head
        [(.node .cell a.index, .node .cell b.index)]
      rw [← ha] at hhead
      exact (bind_ok rfl).trans (bind_error hhead)
  cases fuel with
  | zero => rfl
  | succ fuel =>
    rw [value]
    cases steps with
    | zero => exact bind_error (bind_ok (Eval.ensureLive_ok hlive))
    | succ steps =>
      exact (bind_ok (hforce _ steps)).trans ((bind_ok (hforce _ steps)).trans (hlists fuel))

end LinkedToItself

/-- What is left of that session, and a list of the first thunk. -/
def World.linkedRound : World where
  heap := {
    cells := #[⟨.lazy ⟨0⟩, .list none⟩]
    thunks := #[.forced (.lazy ⟨0⟩), .forced (.lazy ⟨0⟩)] }
  host := World.linkedBack.host

namespace World.linkedRound

/-- A session leads there. -/
theorem session : Session (fun _ _ => True) World.linkedRound.heap := by
  have hbuilt : Session (fun _ _ => True) World.linkedBack.heap :=
    .ready (.deferred _ .start) trivial
  have hforced : Session (fun _ _ => True) _ := .call (.forceNow 2 ⟨0⟩) hbuilt ⟨trivial, rfl⟩
  exact .grow hforced (Heap.extends_addCell _ ⟨.lazy ⟨0⟩, .list none⟩)

/-- The first thunk links to itself. -/
theorem link : World.linkedRound.heap.memo? ⟨0⟩ = some (.lazy ⟨0⟩) :=
  rfl

/-- Nothing is reachable from the list but its one element, whose value is itself, and its end. -/
theorem of_reaches {u : Value} (hu : World.linkedRound.heap.Reaches (.list (some ⟨0⟩)) u) :
    u ∈ [.list (some ⟨0⟩), .lazy ⟨0⟩, .list none] := by
  induction hu with
  | refl => simp
  | tail _ hpart ih =>
    simp only [List.mem_cons, List.not_mem_nil, or_false] at ih ⊢
    rcases ih with rfl | rfl | rfl
    · cases hpart <;> simp [World.linkedRound, Heap.cell]
    · cases hpart with
      | memo ht =>
        cases ht
        simp
    · cases hpart

end World.linkedRound

/-- Nothing is reachable from the first thunk but itself, which has a value, and yet, on a live
context, its comparison with itself ends at no level. -/
theorem equal_loops :
    Session (fun _ _ => True) World.linkedRound.heap ∧
    World.linkedRound.context.interrupt? = none ∧
    (∀ u, World.linkedRound.heap.Reaches (.lazy ⟨0⟩) u → u = .lazy ⟨0⟩) ∧
    (World.linkedRound.heap.memo? ⟨0⟩).isSome ∧
    ∀ level, engine level (.equal (.lazy ⟨0⟩) (.lazy ⟨0⟩)) World.linkedRound =
      .error .exhausted World.linkedRound := by
  refine ⟨World.linkedRound.session, rfl, fun u hu => ?_, rfl, fun level => ?_⟩
  · induction hu with
    | refl => rfl
    | tail _ hpart ih =>
      subst ih
      cases hpart with
      | memo ht =>
        cases ht
        rfl
  · cases level with
    | zero => rfl
    | succ level =>
      have hvalue := Equality.value_link_self rfl World.linkedRound.link (engine level) level level
        (.lazy ⟨0⟩) []
      exact bind_error ((bind_ok (Eval.ensureLive_ok rfl)).trans (bind_error hvalue))

/-- The list holds no thunk without a value, no number and no foreign value, and its one tail is a
list. The host finds it equal to itself, and yet, on a live context, its comparison with itself ends
at no level. -/
theorem equal_loops_on_same :
    Session (fun _ _ => True) World.linkedRound.heap ∧
    World.linkedRound.context.interrupt? = none ∧
    (∀ u, World.linkedRound.heap.Reaches (.list (some ⟨0⟩)) u →
      u ∈ [.list (some ⟨0⟩), .lazy ⟨0⟩, .list none]) ∧
    (World.linkedRound.heap.memo? ⟨0⟩).isSome ∧
    (World.linkedRound.heap.cell ⟨0⟩).tail = .list none ∧
    Inspect.same? World.linkedRound.heap 2 (.list (some ⟨0⟩)) (.list (some ⟨0⟩)) = some true ∧
    ∀ level, engine level (.equal (.list (some ⟨0⟩)) (.list (some ⟨0⟩))) World.linkedRound =
      .error .exhausted World.linkedRound := by
  refine ⟨World.linkedRound.session, rfl, fun u hu => World.linkedRound.of_reaches hu, rfl, rfl,
    rfl, fun level => ?_⟩
  cases level with
  | zero => rfl
  | succ level =>
    have hvalue := Equality.value_link_self_head rfl World.linkedRound.link (engine level) level
      level ⟨0⟩ (rfl : (World.linkedRound.heap.cell ⟨0⟩).head = .lazy ⟨0⟩)
    exact bind_error ((bind_ok (Eval.ensureLive_ok rfl)).trans (bind_error hvalue))

end LazyMachine
