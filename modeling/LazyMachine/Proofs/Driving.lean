import LazyMachine.Proofs.Instructions

/-!
# Driving thunks on a store

What the cooperative machine does with a pending thunk and what the eager mode does with it start
alike: the thunk is claimed, and its function is code to be run, unless the value can be published
at once. `drive_cases` compares the two. From there on the machine runs the code in a frame of its
own, and the eager mode on a machine of its own.
-/

namespace LazyMachine

variable {p : Program}

/-! ### Claims on a world -/

section Claims

variable {t : Ref .thunk} {w w' : World} {α : Type}

/-- Claiming a thunk with a value gives the value. -/
theorem claim_of_memo {v : Value} (ht : w.heap.memo? t = some v) :
    claim t w = .ok (.ready v) w := by
  rw [claim, bind_ok (Eval.heap_apply w)]
  rw [Heap.memo?] at ht
  cases hs : w.heap.thunk t with
  | valued s u =>
    rw [hs] at ht
    cases ht
    rfl
  | waiting d => rw [hs] at ht; cases ht
  | running d => rw [hs] at ht; cases ht
  | spent => rw [hs] at ht; cases ht

/-- Claiming a forced thunk gives its value. -/
theorem claim_forced {v : Value} (ht : w.heap.thunk t = .forced v) :
    claim t w = .ok (.ready v) w :=
  claim_of_memo (by rw [Heap.memo?, ht])

/-- Claiming a waiting thunk gives its computation. -/
theorem claim_waiting {d : Deferred} (ht : w.heap.thunk t = .waiting d) :
    claim t w = .ok (.run d) { w with heap := w.heap.setThunk t (.running d) } := by
  rw [claim, bind_ok (Eval.heap_apply w), ht]
  rfl

/-- Claiming a thunk that is claimed already, or done without a value, fails. -/
theorem claim_of_not_claimable (ht : ¬ (w.heap.thunk t).Claimable) :
    claim t w = Eval.fail .cyclicLazy w := by
  rw [claim, bind_ok (Eval.heap_apply w)]
  cases hs : w.heap.thunk t with
  | valued s v =>
    rw [hs] at ht
    exact absurd trivial ht
  | waiting d =>
    rw [hs] at ht
    exact absurd trivial ht
  | running d => rfl
  | spent => rfl

/-- Claiming a running thunk fails. -/
theorem claim_running {d : Deferred} (ht : w.heap.thunk t = .running d) :
    claim t w = Eval.fail .cyclicLazy w :=
  claim_of_not_claimable (by rw [ht]; exact id)

/-- Claiming a thunk gives its value or its computation, or fails. -/
theorem claim_cases (w : World) (t : Ref .thunk) :
    (∃ v, w.heap.memo? t = some v ∧ claim t w = .ok (.ready v) w) ∨
    (∃ d, w.heap.thunk t = .waiting d ∧
      claim t w = .ok (.run d) { w with heap := w.heap.setThunk t (.running d) }) ∨
    (¬ (w.heap.thunk t).Claimable ∧ claim t w = Eval.fail .cyclicLazy w) := by
  cases ht : w.heap.thunk t with
  | valued s v =>
    have hmemo : w.heap.memo? t = some v := by rw [Heap.memo?, ht]
    exact .inl ⟨v, hmemo, claim_of_memo hmemo⟩
  | waiting d => exact .inr (.inl ⟨d, rfl, claim_waiting ht⟩)
  | running d => exact .inr (.inr ⟨id, claim_of_not_claimable (by rw [ht]; exact id)⟩)
  | spent => exact .inr (.inr ⟨id, claim_of_not_claimable (by rw [ht]; exact id)⟩)

/-- A chain keeps its claims across what yields a value. -/
theorem releasing_ok {chain : List (Ref .thunk)} {x : Eval α} {a : α} (hx : x w = .ok a w') :
    releasing chain x w = .ok a w' := by
  simp only [releasing, MonadExcept.tryCatch, tryCatchThe, MonadExceptOf.tryCatch,
    EStateM.tryCatch, hx]

/-- It gives them back if there is an interrupt. -/
theorem releasing_error {chain : List (Ref .thunk)} {x : Eval α} {i : Interrupt}
    (hx : x w = .error i w') :
    releasing chain x w = .error i { w' with heap := w'.heap.releaseChain chain } := by
  simp only [releasing, MonadExcept.tryCatch, tryCatchThe, MonadExceptOf.tryCatch,
    EStateM.tryCatch, hx]
  rfl

/-- Only the evaluation itself matters. -/
theorem releasing_congr {chain : List (Ref .thunk)} {x y : Eval α} (hxy : x w = y w) :
    releasing chain x w = releasing chain y w := by
  simp only [releasing, MonadExcept.tryCatch, tryCatchThe, MonadExceptOf.tryCatch,
    EStateM.tryCatch, hxy]

end Claims

/-! ### Driving and evaluating at once -/

/-- The frame of a thunk's code. -/
def thunkFrame (p : Program) (chunk : Nat) (locals : List Value) (chain : List (Ref .thunk)) :
    Frame :=
  { program := p, chunk, locals := locals.toArray, kind := .thunk chain }

/-- Takes the result of a thunk's code in eager mode. -/
def forceNext (E : Engine) (fuel : Nat) (chain : List (Ref .thunk)) : Value → Eval Value
  | .lazy next => forceNow E fuel chain next
  | v => completeChain chain v

/-- What becomes of a thunk that a chain of others waits on, on live worlds of a store. -/
inductive Driven (s : Store p) (bounds : List ℚ) (chain : List (Ref .thunk)) (t : Ref .thunk) : Prop
  /-- The chain has its value at once. -/
  | settles (v : Value) (s₁ : Store p) (hlater : s.Later s₁)
      (hmemo : ∀ u ∈ (chain ++ [t]).head?, s₁.heap.memo? u = some v)
      (hdrive : ∀ E fuel (w : World), w.heap = s.heap → w.context.interrupt? = none →
        drive E (fuel + 2) chain t w = .ok none { w with heap := s₁.heap })
      (hforce : ∀ E fuel (w : World), w.heap = s.heap → w.context.interrupt? = none →
        forceNow E (fuel + 2) chain t w = .ok v { w with heap := s₁.heap })
      (hforced : ∀ u ∈ chain ++ [t], s₁.heap.IsForced u)
  /-- Code has to be run for it. -/
  | enters (chunk : Nat) (locals : List Value) (s₁ : Store p) (hlater : s.Later s₁)
      (hrank : s₁.rank = s.rank) (hchunk : ∃ ch, p.chunk? chunk = some ch)
      (hlocals : ∀ v ∈ locals, s₁.Fits (s.boundsOf (chain ++ [t]) ++ bounds) v)
      (hdrive : ∀ E fuel (w : World), w.heap = s.heap → w.context.interrupt? = none →
        drive E (fuel + 2) chain t w =
          .ok (some (thunkFrame p chunk locals (chain ++ [t]))) { w with heap := s₁.heap })
      (hforce : ∀ E fuel (w : World), w.heap = s.heap → w.context.interrupt? = none →
        forceNow E (fuel + 2) chain t w =
          (releasing (chain ++ [t]) (invokeChunk E fuel p chunk locals) >>=
            forceNext E (fuel + 1) (chain ++ [t])) { w with heap := s₁.heap })
      (hbody : ∃ g captures, s.heap.thunk t = .waiting (.call g) ∧
        s₁.heap.thunk t = .running (.call g) ∧
        (s₁.heap.function g).body = .code p chunk captures)
  /-- The thunk depends on itself. -/
  | fails (e : RuntimeError) (s₁ : Store p) (hlater : s.Later s₁)
      (hdrive : ∀ E fuel (w : World), w.heap = s.heap → w.context.interrupt? = none →
        drive E (fuel + 2) chain t w = Eval.fail e { w with heap := s₁.heap })
      (hforce : ∀ E fuel (w : World), w.heap = s.heap → w.context.interrupt? = none →
        forceNow E (fuel + 2) chain t w = Eval.fail e { w with heap := s₁.heap })

section Driving

variable {s : Store p} {bounds : List ℚ} {chain : List (Ref .thunk)} {t : Ref .thunk}

/-- The last thunk of a descending chain is there. -/
theorem Store.Descends.held {s : Store p} (hchain : s.Descends (chain ++ [t])) :
    t.index < s.heap.thunks.size :=
  hchain.1 t (by simp)

/-- What fits below the last thunk of a chain fits below the whole chain. -/
theorem Store.fits_chain {s : Store p} (hchain : s.Descends (chain ++ [t]))
    (hbounds : ∀ u ∈ chain ++ [t], ∀ b ∈ bounds, s.rank .thunk u.index < b) {v : Value}
    (hv : s.Fits [s.rank .thunk t.index] v) : s.Fits (s.boundsOf (chain ++ [t]) ++ bounds) v := by
  refine ⟨hv.internal, hv.held, fun n hn b hb => ?_⟩
  have hlt := hv.below n hn _ (List.mem_singleton_self _)
  rcases List.mem_append.mp hb with hb | hb
  · obtain ⟨u, hu, rfl⟩ := List.mem_map.mp hb
    rcases List.mem_append.mp hu with hu | hu
    · obtain ⟨-, -, habove⟩ := List.pairwise_append.mp hchain.2
      exact hlt.trans (habove u hu t (List.mem_singleton_self t))
    · cases List.mem_singleton.mp hu
      exact hlt
  · exact hlt.trans (hbounds t (by simp) b hb)

/-- A chain descends as long as the ranks stay. -/
theorem Store.Descends.of_rank_eq {s s₁ : Store p} (hchain : s.Descends chain)
    (hrank : s₁.rank = s.rank) (hsize : s.heap.thunks.size ≤ s₁.heap.thunks.size) :
    s₁.Descends chain := by
  refine ⟨fun u hu => Nat.lt_of_lt_of_le (hchain.1 u hu) hsize, ?_⟩
  rw [hrank]
  exact hchain.2

/-- A thunk that fits below a chain may be waited on by it. -/
theorem Store.Descends.append {s : Store p} (hchain : s.Descends chain)
    (ht : s.Fits (s.boundsOf chain ++ bounds) (.lazy t)) : s.Descends (chain ++ [t]) := by
  have hbelow := ht.below (.thunk, t.index) rfl
  refine ⟨fun u hu => ?_, List.pairwise_append.mpr ⟨hchain.2, by simp, fun u hu t' ht' => ?_⟩⟩
  · rcases List.mem_append.mp hu with hu | hu
    · exact hchain.1 u hu
    · cases List.mem_singleton.mp hu
      exact ht.held (.thunk, t.index) rfl
  · cases List.mem_singleton.mp ht'
    exact hbelow _ (List.mem_append_left _ (List.mem_map_of_mem hu))

/-- Code without arguments left for its result is run, and that is all. -/
theorem applyFrom_enter (E : Engine) (fuel : Nat) (program : Program) (chunk : Nat)
    (locals : List Value) :
    applyFrom E (fuel + 1) (.enter program chunk locals []) =
      invokeChunk E fuel program chunk locals := by
  simp [applyFrom, Application.complete]

/-- A function without arguments is its own value, or it is code to be run. -/
theorem bind_nil {s : Store p} {g : Ref .function} (hg : s.Fits bounds (.function g)) :
    (∀ E fuel (w : World), w.heap = s.heap → w.context.interrupt? = none →
      bind E (fuel + 1) g [] w = .ok (.value (.function g) []) w) ∨
    ∃ chunk locals, (∃ ch, p.chunk? chunk = some ch) ∧ (∀ v ∈ locals, s.Fits bounds v) ∧
      (∃ captures, (s.heap.function g).body = .code p chunk captures) ∧
      ∀ E fuel (w : World), w.heap = s.heap → w.context.interrupt? = none →
        bind E (fuel + 1) g [] w = .ok (.enter p chunk locals []) w := by
  obtain ⟨⟨chunk, captures, ch, hbody, hchunk⟩, hparts⟩ := Store.function_ofCode hg
  by_cases hremaining : 0 < (s.heap.function g).remaining
  · refine .inl fun E fuel w hw hw' => ?_
    rw [bind, bind_ok (Eval.ensureLive_ok hw')]
    simp only [Eval.heap_apply, Bind.bind, EStateM.bind, Pure.pure, EStateM.pure, hw,
      List.length_nil, hremaining, if_true, List.isEmpty_nil]
  · refine .inr ⟨chunk, captures ++ (s.heap.function g).applied, ⟨ch, hchunk⟩, fun v hv => ?_, ?_⟩
    · exact hparts v (by rw [Heap.functionParts, hbody]; exact hv)
    · refine ⟨⟨captures, hbody⟩, ?_⟩
      intro E fuel w hw hw'
      rw [bind, bind_ok (Eval.ensureLive_ok hw')]
      simp only [Eval.heap_apply, Bind.bind, EStateM.bind, Pure.pure, EStateM.pure, hw,
        List.length_nil, hremaining, if_false, hbody, List.take_nil, List.append_nil, List.drop_nil]

/-- A thunk that is forced gives its value to the chain. -/
theorem driven_of_forced {v : Value} (hchain : s.Descends (chain ++ [t]))
    (hbounds : ∀ u ∈ chain ++ [t], ∀ b ∈ bounds, s.rank .thunk u.index < b)
    (hu : s.heap.thunks[t.index]? = some (.forced v)) : Driven s bounds chain t := by
  have hthunk := s.heap.thunk_of_getElem? t hu
  have hv : s.Fits [s.rank .thunk t.index] v :=
    s.ranked .thunk t.index v (by rw [Heap.partsAt, hu]; simp [Heap.thunkParts])
  obtain ⟨s₁, hheap, -, hlater, -, -, hmemo⟩ := s.exists_later_completeChain hchain hbounds
    (s.thunks _ (Array.mem_of_getElem? hu)) (Store.fits_chain hchain hbounds hv)
  refine .settles (s.heap.completeChain (chain ++ [t]) v).1 s₁ hlater (fun u hu => ?_) ?_ ?_ ?_
  · rw [Heap.memo?, Heap.thunk_of_getElem? _ _ (hmemo u hu)]
  · intro E fuel w hw hlive
    rw [drive, bind_ok (releasing_ok (claim_forced (by rw [hw, hthunk]))), hheap, ← hw]
    rfl
  · intro E fuel w hw hlive
    rw [forceNow, bind_ok (releasing_ok (claim_forced (by rw [hw, hthunk]))), hheap,
      Heap.completeChain_append_forced hthunk, ← hw]
    rfl
  · rw [hheap]
    exact (Heap.isForced_completeChain v hchain.1).2

/-- A thunk that is running depends on itself; the chain is given back. -/
theorem driven_of_running {d : Deferred} (hu : s.heap.thunks[t.index]? = some (.running d)) :
    Driven s bounds chain t := by
  obtain ⟨s₁, hheap, -, hlater⟩ := s.exists_later_releaseChain chain
  have hclaim (w : World) (hw : w.heap = s.heap) :
      releasing chain (claim t) w = Eval.fail .cyclicLazy { w with heap := s₁.heap } := by
    rw [hheap, ← hw]
    exact releasing_error (claim_running (by rw [hw, s.heap.thunk_of_getElem? t hu]))
  refine .fails .cyclicLazy s₁ hlater ?_ ?_
  · intro E fuel w hw _
    rw [drive]
    exact bind_error (hclaim w hw)
  · intro E fuel w hw _
    rw [forceNow]
    exact bind_error (hclaim w hw)

section Claimed

variable {g : Ref .function} {s₁ : Store p}
  (hheap₁ : s₁.heap = s.heap.setThunk t (.running (.call g))) (hrank₁ : s₁.rank = s.rank)
  (hlater₁ : s.Later s₁)
  (hclaim : ∀ w : World, w.heap = s.heap →
    releasing chain (claim t) w = .ok (.run (.call g)) { w with heap := s₁.heap })

include hrank₁ hlater₁ hclaim

/-- A thunk that was claimed is settled by a function that is its own value. -/
theorem driven_of_value (hchain : s.Descends (chain ++ [t]))
    (hbounds : ∀ u ∈ chain ++ [t], ∀ b ∈ bounds, s.rank .thunk u.index < b)
    (hg : s₁.Fits (s.boundsOf (chain ++ [t]) ++ bounds) (.function g))
    (hvalue : ∀ E fuel (w : World), w.heap = s₁.heap → w.context.interrupt? = none →
      bind E (fuel + 1) g [] w = .ok (.value (.function g) []) w) : Driven s bounds chain t := by
  have hchain₁ : s₁.Descends (chain ++ [t]) := hchain.of_rank_eq hrank₁ hlater₁.size
  rw [← hrank₁] at hbounds
  have hbounds₁ : s₁.boundsOf (chain ++ [t]) = s.boundsOf (chain ++ [t]) := by
    simp only [Store.boundsOf, hrank₁]
  obtain ⟨s₂, hheap₂, -, hlater₂, -, -, hmemo⟩ := s₁.exists_later_completeChain hchain₁ hbounds
    rfl (by rwa [hbounds₁])
  refine .settles (s₁.heap.completeChain (chain ++ [t]) (.function g)).1 s₂
    (hlater₁.trans hlater₂) (fun u hu => ?_) ?_ ?_ ?_
  · rw [Heap.memo?, Heap.thunk_of_getElem? _ _ (hmemo u hu)]
  · intro E fuel w hw hlive
    rw [drive, bind_ok (hclaim w hw)]
    dsimp only [Deferred.bind]
    rw [bind_ok (releasing_ok (hvalue E fuel { w with heap := s₁.heap } rfl hlive)), hheap₂]
    rfl
  · intro E fuel w hw hlive
    have hrun : Deferred.run E (fuel + 1) (.call g) { w with heap := s₁.heap } =
        .ok (.function g) { w with heap := s₁.heap } := by
      rw [Deferred.run, applyFunction,
        bind_ok (hvalue E fuel { w with heap := s₁.heap } rfl hlive)]
      rfl
    rw [forceNow, bind_ok (hclaim w hw)]
    dsimp only
    rw [bind_ok (releasing_ok hrun), hheap₂]
    rfl
  · rw [hheap₂]
    exact (Heap.isForced_completeChain _ hchain₁.1).2

include hheap₁

/-- A thunk that was claimed is run if its function is code. -/
theorem driven_of_code {chunk : Nat} {locals captures : List Value}
    (hu : s.heap.thunks[t.index]? = some (.waiting (.call g)))
    (hchunk : ∃ ch, p.chunk? chunk = some ch)
    (hlocals : ∀ v ∈ locals, s₁.Fits (s.boundsOf (chain ++ [t]) ++ bounds) v)
    (hbody : (s₁.heap.function g).body = .code p chunk captures)
    (henter : ∀ E fuel (w : World), w.heap = s₁.heap → w.context.interrupt? = none →
      bind E (fuel + 1) g [] w = .ok (.enter p chunk locals []) w) : Driven s bounds chain t := by
  refine .enters chunk locals s₁ hlater₁ hrank₁ hchunk hlocals ?_ ?_ ?_
  · intro E fuel w hw hlive
    rw [drive, bind_ok (hclaim w hw)]
    dsimp only [Deferred.bind]
    rw [bind_ok (releasing_ok (henter E fuel { w with heap := s₁.heap } rfl hlive))]
    obtain ⟨ch, hch⟩ := hchunk
    simp only [Frame.enter?, hch]
    rfl
  · intro E fuel w hw hlive
    have hrun : Deferred.run E (fuel + 1) (.call g) { w with heap := s₁.heap } =
        invokeChunk E fuel p chunk locals { w with heap := s₁.heap } := by
      rw [Deferred.run, applyFunction,
        bind_ok (henter E fuel { w with heap := s₁.heap } rfl hlive), applyFrom_enter]
    rw [forceNow, bind_ok (hclaim w hw)]
    dsimp only
    simp only [Bind.bind, EStateM.bind, releasing_congr hrun]
    rfl
  · refine ⟨g, captures, s.heap.thunk_of_getElem? t hu, ?_, hbody⟩
    have hlt := (Array.getElem?_eq_some_iff.mp hu).1
    rw [hheap₁]
    exact Heap.thunk_of_getElem? _ t (by rw [Heap.getElem?_setThunk, if_pos ⟨rfl, hlt⟩])

end Claimed

/-- The thunks of a store are driven in one of three ways, as they are forced, running or
waiting. -/
theorem drive_cases (hchain : s.Descends (chain ++ [t]))
    (hbounds : ∀ u ∈ chain ++ [t], ∀ b ∈ bounds, s.rank .thunk u.index < b) :
    Driven s bounds chain t := by
  obtain ⟨u, hu⟩ : ∃ u, s.heap.thunks[t.index]? = some u :=
    ⟨_, Array.getElem?_eq_getElem hchain.held⟩
  have hcode := s.thunks _ (Array.mem_of_getElem? hu)
  cases u with
  | valued state v =>
    rw [hcode.eq_forced rfl] at hu
    exact driven_of_forced hchain hbounds hu
  | spent => exact hcode.elim
  | running d => exact driven_of_running hu
  | waiting d =>
    -- what waits in a store is a function of it, and claiming the thunk leaves that as it is
    obtain ⟨g, rfl⟩ := hcode
    obtain ⟨s₁, hheap₁, hrank₁, hlater₁⟩ := Store.exists_later_claim hu
    have hclaim (w : World) (hw : w.heap = s.heap) :
        releasing chain (claim t) w = .ok (.run (.call g)) { w with heap := s₁.heap } := by
      rw [hheap₁, ← hw]
      exact releasing_ok (claim_waiting (by rw [hw, s.heap.thunk_of_getElem? t hu]))
    have hg : s.Fits [s.rank .thunk t.index] (.function g) :=
      s.ranked .thunk t.index _ (by rw [Heap.partsAt, hu]; simp [Heap.thunkParts])
    have hg₁ := hlater₁.fits (Store.fits_chain hchain hbounds hg)
    rcases bind_nil hg₁ with hvalue | ⟨chunk, locals, hchunk, hlocals, ⟨captures, hbody⟩, henter⟩
    · exact driven_of_value hrank₁ hlater₁ hclaim hchain hbounds hg₁ hvalue
    · exact driven_of_code hheap₁ hrank₁ hlater₁ hclaim hu hchunk hlocals hbody henter

end Driving

end LazyMachine
