import LazyMachine.Proofs.Settling

/-!
# Thunks after a run

Whichever way a run of a machine ends, no frame is left, the thunks that are claimed afterwards are
those that were claimed before, and every thunk that was claimed on the way has a value or waits for
its computation again (`releases_claims`).

The states on the way are those between two rounds, `Machine.Passes`. A run goes on from each of
them as if it had started there with the claims of its frames, which is how the statement about
claims made on the way comes down to `execute_settles`.
-/

namespace LazyMachine

open Heap (Settled Owned)

namespace Heap

/-- The thunks that cannot be claimed: an evaluation under way has claimed them, or they are done
without a value. -/
def claimed (h : Heap) : Set (Ref .thunk) :=
  {t | ¬ (h.thunk t).Claimable}

/-- The thunk waits for its computation or is forced. -/
def Available (h : Heap) (t : Ref .thunk) (d : Deferred) : Prop :=
  h.thunk t = .waiting d ∨ ∃ v, h.thunk t = .forced v

theorem Settled.available {h h' : Heap} (s : h.Settled h') {t : Ref .thunk} {d : Deferred}
    (ht : h.thunk t = .waiting d) : h'.Available t d := by
  have hs := s.thunks t.index
  rw [h.getElem?_of_thunk t ht rfl] at hs
  rcases hs with hw | ⟨v, hv⟩
  · exact .inl (h'.thunk_of_getElem? t hw)
  · exact .inr ⟨v, h'.thunk_of_getElem? t hv⟩

/-- What becomes of a thunk can be claimed if and only if the thunk could be. -/
theorem claimable_iff_of_settles {t t' : Thunk} (h : Thunk.Settles (some t) (some t')) :
    t'.Claimable ↔ t.Claimable := by
  cases t with
  | valued s v => exact ⟨fun _ => trivial, fun ht => h.claimable ht t' rfl⟩
  | waiting d => exact ⟨fun _ => trivial, fun ht => h.claimable ht t' rfl⟩
  | running d => rw [Option.some.inj h]
  | spent => rw [Option.some.inj h]

theorem Settled.claimed_eq {h h' : Heap} (s : h.Settled h') : h'.claimed = h.claimed := by
  ext t
  refine not_congr ?_
  have hs := s.thunks t.index
  rw [thunk, thunk, Array.getD_eq_getD_getElem?, Array.getD_eq_getD_getElem?]
  cases hi : h.thunks[t.index]? with
  | none =>
    -- what was never made counts as evaluated; what is made there can be claimed
    rw [hi] at hs
    cases hi' : h'.thunks[t.index]? with
    | none => rfl
    | some u' => exact ⟨fun _ => trivial, fun _ => hs u' hi'⟩
  | some u =>
    rw [hi] at hs
    cases hi' : h'.thunks[t.index]? with
    | none =>
      rw [hi'] at hs
      cases u <;> simp [Thunk.Settles] at hs
    | some u' =>
      rw [hi'] at hs
      exact claimable_iff_of_settles hs

namespace Owned

variable {base h h' : Heap} {claims : List (Ref .thunk)}

/-- The claims under way are claims on the heap as it would be without them. -/
theorem restart (o : base.Owned h claims) : (h.releaseChain claims).Owned h claims := by
  have hretains : (h.releaseChain claims).Retains h := by
    rw [releaseChain_eq]
    exact { Retains.refl h with }
  refine { hretains with nodup := o.nodup, claimed := fun t ht => ?_, others := fun i hi => ?_ }
  · obtain ⟨d, hd, -⟩ := o.claimed t ht
    refine ⟨d, hd, ?_⟩
    rw [getElem?_releaseChain, if_pos ht, hd]
    exact Thunk.settles_refl _
  · rw [getElem?_releaseChain, if_neg hi]
    exact Thunk.settles_refl _

/-- A thunk that waits, or whose claim is not settled yet, is available once the claims are settled
that are under way. -/
theorem available (o : base.Owned h claims) (s : (h.releaseChain claims).Settled h')
    {t : Ref .thunk} {d : Deferred}
    (ht : h.thunk t = .waiting d ∨ h.thunk t = .running d ∧ t ∉ base.claimed) :
    h'.Available t d := by
  refine s.available (thunk_of_getElem? _ t ?_)
  rw [getElem?_releaseChain]
  rcases ht with ht | ⟨ht, hfresh⟩
  · rw [h.getElem?_of_thunk t ht rfl]
    split <;> rfl
  · have hi := h.getElem?_of_thunk t ht rfl
    -- a claim that was not there at first is one of `claims`
    have hmem : t ∈ claims := by
      by_contra hmem
      have hs := o.others t.index hmem
      rw [hi] at hs
      refine hfresh fun hclaimable => ?_
      rw [Heap.thunk, Array.getD_eq_getD_getElem?] at hclaimable
      cases hb : base.thunks[t.index]? with
      | none =>
        rw [hb] at hs
        exact hs _ rfl
      | some u =>
        rw [hb] at hs hclaimable
        exact hs.claimable hclaimable _ rfl
    rw [if_pos hmem, hi]
    rfl

end Owned

end Heap

/-- The states that a run of a machine passes between its rounds, with the fuel that is left. -/
inductive Machine.Passes (E : Engine) :
    (fuel : Nat) → Machine → World → (left : Nat) → Machine → World → Prop
  | start (fuel : Nat) (m : Machine) (w : World) : Passes E fuel m w fuel m w
  | round {fuel left : Nat} {m m₁ m' : Machine} {w w₁ w' : World}
      (hround : m.round E fuel w = .ok (.running m₁) w₁)
      (hnext : Passes E fuel m₁ w₁ left m' w') : Passes E (fuel + 1) m w left m' w'

namespace Machine.Passes

variable {E : Engine} {fuel left : Nat} {m m' : Machine} {w w' : World}

/-- A run comes to what it would come to from any state that it passes. -/
theorem execute_eq (hp : Passes E fuel m w left m' w') :
    m.execute E fuel w = m'.execute E left w' := by
  induction hp with
  | start => rfl
  | round hround _ ih =>
    rw [← ih, Machine.execute]
    simp only [Bind.bind, EStateM.bind, hround]

/-- A run that ends does so in a round of a state that it passes. -/
theorem exists_last {e : Machine.Exit} (hrun : m.execute E fuel w = .ok (e, m') w') :
    ∃ left m₁ w₁, Passes E fuel m w (left + 1) m₁ w₁ ∧
      m₁.round E left w₁ = .ok (.ended e m') w' := by
  induction fuel generalizing m w with
  | zero => cases hrun
  | succ fuel ih =>
    rw [Machine.execute] at hrun
    cases hround : m.round E fuel w with
    | error i w₁ =>
      rw [bind_error hround] at hrun
      cases hrun
    | ok r w₁ =>
      rw [bind_ok hround] at hrun
      cases r with
      | running m₁ =>
        obtain ⟨left, m₂, w₂, hpasses, hlast⟩ := ih hrun
        exact ⟨left, m₂, w₂, .round hround hpasses, hlast⟩
      | ended e' m₁ =>
        cases hrun
        exact ⟨fuel, m, w, .start _ _ _, hround⟩

/-- In every state that a run passes the claims are with the frames. -/
theorem owned (hE : ∀ o, (E o).Preserves Settled) {base : Heap}
    (hp : Passes E fuel m w left m' w') (hs : Stacked m.frames)
    (o : base.Owned w.heap (claimsOf m.frames)) :
    Stacked m'.frames ∧ base.Owned w'.heap (claimsOf m'.frames) := by
  induction hp with
  | start => exact ⟨hs, o⟩
  | round hround _ ih =>
    obtain ⟨hs₁, o₁⟩ := (round_owned hE _ hs o).of_ok hround
    exact ih hs₁ o₁

end Machine.Passes

/-- The worlds that a run of a chunk passes between its rounds. -/
def Machine.Visits (E : Engine) (fuel : Nat) (m : Machine) (program : Program) (chunk : Nat)
    (locals : List Value) (w w₁ : World) : Prop :=
  ∃ f left m₁, Frame.enter? program chunk locals .entry = some f ∧
    Machine.Passes E fuel (m.withFrames (f :: m.frames)) w left m₁ w₁

/-- After a run that started at `w` and visited some worlds on its way, machine and world are clear
of its claims. -/
structure Machine.Cleared (w : World) (visited : World → Prop) (m' : Machine) (w' : World) :
    Prop where
  /-- No frame is left. -/
  frames : m'.frames = []
  /-- The claimed thunks are those that were claimed before. -/
  claimed : w'.heap.claimed = w.heap.claimed
  /-- A thunk that waited at the start has a value or waits for the same computation. -/
  waiting : ∀ t d, w.heap.thunk t = .waiting d → w'.heap.Available t d
  /-- So has a thunk that waited or was claimed on the way. -/
  visited : ∀ w₁, visited w₁ → ∀ t d,
    w₁.heap.thunk t = .waiting d ∨ w₁.heap.thunk t = .running d ∧ t ∉ w.heap.claimed →
      w'.heap.Available t d
  /-- A thunk that was not claimed before can be claimed again. -/
  claimable : ∀ t, t ∉ w.heap.claimed → Leads (claim t) w' fun r _ => ∃ c, r = .ok c

section Runs

variable {level fuel : Nat} {m m' : Machine} {program : Program} {w w' : World}

/-- A thunk that is not claimed can be claimed. -/
theorem leads_claim_of_not_claimed {t : Ref .thunk} (ht : t ∉ w.heap.claimed) :
    Leads (claim t) w fun r _ => ∃ c, r = .ok c := by
  have hclaimable : (w.heap.thunk t).Claimable := not_not.mp ht
  simp only [claim, leads_bind, leads_heap]
  cases hs : w.heap.thunk t with
  | valued s v => exact ⟨_, rfl⟩
  | waiting d => exact ⟨_, rfl⟩
  | running d => exact absurd hclaimable (by rw [hs]; exact id)
  | spent => exact absurd hclaimable (by rw [hs]; exact id)

/-- Settled claims are what it takes to be clear of them, if the run went through to its end. -/
theorem Machine.Cleared.of_settled {visited : World → Prop} (hframes : m'.frames = [])
    (s : w.heap.Settled w'.heap)
    (hvisited : ∀ w₁, visited w₁ → ∀ t d,
      w₁.heap.thunk t = .waiting d ∨ w₁.heap.thunk t = .running d ∧ t ∉ w.heap.claimed →
        w'.heap.Available t d) :
    Machine.Cleared w visited m' w' where
  frames := hframes
  claimed := s.claimed_eq
  waiting _ _ ht := s.available ht
  visited := hvisited
  claimable _ ht := leads_claim_of_not_claimed (by rwa [s.claimed_eq])

/-- Only the heap counts, and fewer worlds to speak of. -/
theorem Machine.Cleared.mono {visited visited' : World → Prop} {w'' : World}
    (h : Machine.Cleared w visited m' w') (hheap : w''.heap = w'.heap)
    (hv : ∀ w₁, visited' w₁ → visited w₁) : Machine.Cleared w visited' m' w'' where
  frames := h.frames
  claimed := by rw [hheap, h.claimed]
  waiting := by rw [hheap]; exact h.waiting
  visited := fun w₁ hw₁ => by rw [hheap]; exact h.visited w₁ (hv w₁ hw₁)
  claimable t ht := leads_claim_of_not_claimed (by rwa [hheap, h.claimed])

/-- A run that starts with an entry frame clears its claims. -/
theorem execute_clears (hm : m.frames = []) {f : Frame} {chunk : Nat} {locals : List Value}
    (hf : Frame.enter? program chunk locals .entry = some f) :
    Leads ((m.withFrames (f :: m.frames)).execute (engine level) fuel) w fun
      | .ok (_, m'), w' =>
        Machine.Cleared w (m.Visits (engine level) fuel program chunk locals w) m' w'
      | .error i, _ => i = .exhausted ∨ i = .crashed := by
  have hE := engine_settles level
  have hkind := Frame.kind_of_enter? hf
  refine .intro (fun (e, m') w' hrun => ?_) fun i w' hrun => ?_
  · have hend := (execute_entry_settles hE fuel hm hkind).of_ok hrun
    refine .of_settled hend.1 hend.2 ?_
    rintro w₁ ⟨g, left, m₁, hg, hpasses⟩ t d ht
    cases hf.symm.trans hg
    obtain ⟨hs, o⟩ := entry_owned m hm hkind w.heap
    obtain ⟨hs₁, o₁⟩ := hpasses.owned hE hs o
    rw [hpasses.execute_eq] at hrun
    exact o₁.available ((execute_settles hE left hs₁ o₁.restart).of_ok hrun).2 ht
  · have hend := (execute_entry_settles hE fuel hm hkind).of_error hrun
    cases i <;> simp_all

end Runs

/-- No run leaks a claim: whichever way the run of a program or of one of its chunks ends on a
machine without frames, machine and world are clear of its claims afterwards. The operations on the
way clear theirs one by one. -/
theorem releases_claims (level fuel : Nat) (m : Machine) (hm : m.frames = []) (program : Program)
    (w : World) :
    (Leads (m.run level program) w fun
      | .ok (_, m'), w' => Machine.Cleared w
          (m.Visits (engine level) level program program.entry [] w) m' w'
      | .error i, _ => i = .exhausted ∨ i = .crashed) ∧
    (∀ chunk locals, Leads (m.invoke (engine level) fuel program chunk locals) w fun
      | .ok (_, m'), w' => Machine.Cleared w (fun w₁ => w.context.interrupt? = none ∧
          m.Visits (engine level) fuel program chunk locals w w₁) m' w'
      | .error i, _ => i = .exhausted ∨ i = .crashed) ∧
    ∀ o w₁, Leads (engine level o) w₁ fun r w₂ => Regular r →
      w₂.heap.claimed = w₁.heap.claimed ∧
        ∀ t d, w₁.heap.thunk t = .waiting d → w₂.heap.Available t d := by
  refine ⟨?_, fun chunk locals => ?_, fun o w₁ => ?_⟩
  · unfold Machine.run
    -- a program without an entry starts no frame, so there is nothing to clear
    split
    · next hnone =>
      refine .of_settled hm (.refl _) ?_
      rintro w₁ ⟨f, left, m₁, hf, -⟩
      cases hnone.symm.trans hf
    · next f hf =>
      rw [leads_bind]
      refine (execute_clears hm hf).imp fun r w' h => ?_
      rcases r with i | ⟨v | _ | a, m'⟩
      · exact h
      · exact h
      · exact h.mono rfl fun _ => id
      · exact h
  · simp only [Machine.invoke, leads_bind, leads_context]
    split
    · next i hi =>
      refine .of_settled hm (.refl _) ?_
      rintro w₁ ⟨hlive, -⟩
      cases hi.symm.trans hlive
    · split
      · next hnone =>
        refine .of_settled hm (.refl _) ?_
        rintro w₁ ⟨-, f, left, m₁, hf, -⟩
        cases hnone.symm.trans hf
      · next f hf =>
        rw [leads_bind]
        refine (execute_clears hm hf).imp fun r w' h => ?_
        rcases r with i | ⟨v | _ | a, m'⟩
        · exact h
        · exact h.mono rfl fun w₁ h => h.2
        · exact h.mono rfl fun w₁ h => h.2
        · exact h.mono rfl fun w₁ h => h.2
  · exact (engine_settles level o w₁).imp fun r w₂ h hreg =>
      ⟨(h hreg).claimed_eq, fun t d ht => (h hreg).available ht⟩

/-- A program that forces a thunk, here in a frame of its own, and yields its value. -/
theorem releases_claims_force :
    ∃ m' w', ({} : Machine).run 9
        ⟨#[⟨"main", 0, #[.delay 1 0, .force, .ret]⟩, ⟨"seven", 0, #[.push (.int 7), .ret]⟩], 0⟩
        { context := { mode := .cooperative } } = .ok (.ok (.int 7), m') w' ∧
      m'.frames = [] ∧ w'.heap.claimed = Heap.claimed {} := by
  obtain ⟨m', w', hrun⟩ : ∃ m' w', ({} : Machine).run 9
      ⟨#[⟨"main", 0, #[.delay 1 0, .force, .ret]⟩, ⟨"seven", 0, #[.push (.int 7), .ret]⟩], 0⟩
      { context := { mode := .cooperative } } = .ok (.ok (.int 7), m') w' :=
    Eval.exists_of_endsWithInt (by decide +kernel)
  have h := (releases_claims 9 9 {} rfl _ _).1.of_ok hrun
  exact ⟨m', w', hrun, h.frames, h.claimed⟩

end LazyMachine
