import LazyMachine.Proofs.Interrupts

/-!
# Counting the runs of closures

A host that wants to know how often it runs the closure behind a thunk counts in it. Here a tally
`t` is set aside for that. The module introduces:

* `Heap.Quiet t` — host code counts under `t` only where a closure behind a thunk starts;
* `Heap.unrun t` — the number of thunks with such a closure that have not been started, and
  `World.stake t`, which adds to it what has been counted;
* `Heap.reports` — the number of variants by which handlers learn of failures;
* `Discipline.thrift t` — the stake does not rise without a failure, which either ends the
  evaluation or is reported to a handler.

Running a closure moves it from one part of the stake to the other. Giving it back to waiting, once
it has been run, would raise the stake; a failure does that. The discipline is lawful. What has to
be known of host functions without arguments, which may stand behind thunks as well, is that they
are never suspended (`HostCode.Immediate`), since that would give back the whole chain that waits
for them.
-/

namespace LazyMachine

variable {α : Type}

/-- What has been counted under a tally. -/
def Host.tally (h : Host) : Tally → Nat
  | .runs => h.runs
  | .calls => h.calls

/-- Counting adds one to its own tally. -/
theorem Host.tally_count_self (h : Host) (t : Tally) : (h.count t).tally t = h.tally t + 1 := by
  cases t <;> rfl

/-- Counting leaves the other tallies. -/
theorem Host.tally_count_of_ne (h : Host) {s t : Tally} (hst : s ≠ t) :
    (h.count s).tally t = h.tally t := by
  cases s <;> cases t <;> first | rfl | exact absurd rfl hst

/-! ### Host code that counts only where a closure starts -/

/-- On a live context the code is never suspended. -/
def HostCode.Immediate (code : HostCode) : Prop :=
  ∀ (level : Nat) (w : World), w.heap.Honest → w.context.Live →
    Leads (code.run (engine level)) w fun r _ => r ≠ .error .suspended

/-- Neither the code nor what it makes of other code counts under the tally, and the functions
without arguments that it makes are never suspended. -/
def HostCode.Quiet (t : Tally) : HostCode → Prop
  | .done _ => True
  | .stop _ => True
  | .fail _ => True
  | .perform _ next => ∀ v, (next v).Quiet t
  | .readVariable _ next => ∀ v, (next v).Quiet t
  | .count s next => s ≠ t ∧ next.Quiet t
  | .latch _ next => ∀ b, (next b).Quiet t
  | .makeList _ next => ∀ v, (next v).Quiet t
  | .makeThunk body next => body.Quiet t ∧ ∀ v, (next v).Quiet t
  | .makeFunction _ arity body next =>
    ((∀ args, (body args).Quiet t) ∧ (arity = 0 → (body []).Immediate)) ∧ ∀ v, (next v).Quiet t
  | .makeNaturals _ next => .runs ≠ t ∧ ∀ v, (next v).Quiet t

/-- The code of a closure, which may count once where it starts. -/
def HostCode.Metered (t : Tally) (code : HostCode) : Prop :=
  code.Quiet t ∨ ∃ next, code = .count t next ∧ next.Quiet t

/-- The host code of the computation is metered. -/
abbrev Deferred.Metered (t : Tally) (d : Deferred) : Prop :=
  d.Within (HostCode.Metered t)

/-- The host code of the thunk is metered. -/
abbrev Thunk.Metered (t : Tally) (u : Thunk) : Prop :=
  u.Within (HostCode.Metered t)

/-- A function that lacks arguments or has none applied, whose code does not count and is never
suspended if there are none to lack. -/
structure Function.Quiet (t : Tally) (f : Function) : Prop where
  applied : f.applied = [] ∨ f.applied.length < f.arity
  code : ∀ code, f.body = .native code →
    (∀ args, (code args).Quiet t) ∧ (f.arity = 0 → (code []).Immediate)

/-- The function that was never made counts nothing. -/
theorem Function.quiet_default (t : Tally) : (default : Function).Quiet t where
  applied := .inl rfl
  code := by
    rintro code ⟨⟩
    exact ⟨fun _ => trivial, fun _ _ _ _ _ => by rintro ⟨⟩⟩

/-- Host code counts under the tally only where a closure behind a thunk starts. -/
def Heap.Quiet (t : Tally) (h : Heap) : Prop :=
  h.Each (Thunk.Metered t) (Function.Quiet t)

namespace Heap.Quiet

variable {t : Tally} {h : Heap}

/-- The thunk of any reference is metered. -/
theorem thunk (hq : h.Quiet t) (r : Ref .thunk) : (h.thunk r).Metered t :=
  Each.thunk hq trivial r

/-- The function of any reference is quiet. -/
theorem function (hq : h.Quiet t) (f : Ref .function) : (h.function f).Quiet t :=
  Each.function hq (Function.quiet_default t) f

/-- Released thunks have the code that they had. -/
theorem releaseChain (hq : h.Quiet t) (chain : List (Ref .thunk)) :
    (h.releaseChain chain).Quiet t :=
  Each.releaseChain hq trivial (fun _ hd => hd) chain

/-- Completed thunks have no code. -/
theorem completeChain (hq : h.Quiet t) (chain : List (Ref .thunk)) (v : Value) :
    (h.completeChain chain v).2.Quiet t :=
  Each.completeChain hq (fun _ => trivial) chain v

end Heap.Quiet

/-! ### The stake -/

/-- Whether a thunk waits for a closure that counts. -/
def Thunk.unrun (t : Tally) : Thunk → Bool
  | .waiting (.native (.count s _)) => s = t
  | _ => false

/-- What is counted where a computation starts. -/
def Deferred.toll (t : Tally) (d : Deferred) : Nat :=
  if (Thunk.waiting d).unrun t then 1 else 0

/-- The entries of an array are as many or more when it is kept. -/
theorem Kept.countP_le {xs ys : Array α} (hkept : Kept xs ys) (p : α → Bool) :
    xs.countP p ≤ ys.countP p := by
  rw [← Array.countP_toList, ← Array.countP_toList]
  refine List.IsPrefix.countP_le (List.prefix_iff_getElem?.mpr fun i hi => ?_)
  rw [Array.getElem?_toList]
  exact hkept i _ (by simp)

namespace Heap

variable {h : Heap} {r : Ref .thunk}

/-- The thunks with a closure that counts and has not been started. -/
def unrun (t : Tally) (h : Heap) : Nat :=
  h.thunks.countP (Thunk.unrun t)

/-- The variants by which handlers learn of failures. -/
def reports (h : Heap) : Nat :=
  h.variants.countP fun v => v.tag.text = "Error"

/-- A new thunk adds its own toll. -/
theorem unrun_addThunk (t : Tally) (h : Heap) (d : Deferred) :
    (h.addThunk (.waiting d)).2.unrun t = h.unrun t + d.toll t :=
  Array.countP_push

/-- Replacing a thunk changes the number by what the two thunks count. -/
theorem unrun_setThunk (t : Tally) {s : Thunk} (hr : h.thunks[r.index]? = some s) (u : Thunk) :
    (h.setThunk r u).unrun t + (if s.unrun t then 1 else 0) =
      h.unrun t + if u.unrun t then 1 else 0 := by
  obtain ⟨hlt, hs⟩ := Array.getElem?_eq_some_iff.mp hr
  -- the thunk that is replaced was counted, so nothing is cut off in the subtraction below
  have hcount : (if s.unrun t then 1 else 0) ≤ h.unrun t := by
    split
    · next hunrun => exact Array.countP_pos_iff.mpr ⟨s, Array.mem_of_getElem? hr, hunrun⟩
    · exact Nat.zero_le _
  have hset : (h.setThunk r u).unrun t =
      (h.thunks.set r.index u hlt).countP (Thunk.unrun t) := by
    rw [unrun, setThunk, Array.setIfInBounds, dif_pos hlt]
  rw [hset, Array.countP_set hlt, hs]
  rw [unrun] at hcount ⊢
  omega

/-- Claiming a thunk starts its closure. -/
theorem unrun_claim (t : Tally) {d : Deferred} (hr : h.thunk r = .waiting d) :
    (h.setThunk r (.running d)).unrun t + d.toll t = h.unrun t :=
  unrun_setThunk t (h.getElem?_of_thunk r hr rfl) (.running d)

/-- A thunk that gets a value no longer waits. -/
theorem unrun_complete_le (t : Tally) (h : Heap) (r : Ref .thunk) (v : Value) :
    (h.complete r v).2.unrun t ≤ h.unrun t := by
  have hset (u : Value) : (h.setThunk r (.forced u)).unrun t ≤ h.unrun t := by
    by_cases hlt : r.index < h.thunks.size
    · have hcount := unrun_setThunk t (Array.getElem?_eq_getElem hlt) (.forced u)
      have hforced : (Thunk.forced u).unrun t = false := rfl
      rw [hforced, if_neg Bool.false_ne_true, Nat.add_zero] at hcount
      omega
    · simp [setThunk, Array.setIfInBounds, hlt]
  exact hset _

/-- Completing a chain adds no toll. -/
theorem unrun_completeChain_le (t : Tally) (h : Heap) (chain : List (Ref .thunk)) (v : Value) :
    (h.completeChain chain v).2.unrun t ≤ h.unrun t := by
  induction chain with
  | nil => exact Nat.le_refl _
  | cons r rs ih => exact Nat.le_trans (unrun_complete_le t _ r _) ih

/-- Releasing a chain leaves the reports. -/
theorem reports_releaseChain (h : Heap) (chain : List (Ref .thunk)) :
    (h.releaseChain chain).reports = h.reports := by
  rw [releaseChain_eq]
  rfl

/-- Completing a chain leaves the reports. -/
theorem reports_completeChain (h : Heap) (chain : List (Ref .thunk)) (v : Value) :
    (h.completeChain chain v).2.reports = h.reports := by
  induction chain with
  | nil => rfl
  | cons r rs ih =>
    rw [← ih]
    rfl

end Heap

/-- The runs counted and the closures that have not been started. -/
def World.stake (t : Tally) (w : World) : Nat :=
  w.host.tally t + w.heap.unrun t

/-- The stake rises by `n` at most, unless a handler has learnt of a failure. -/
structure World.Spares (t : Tally) (n : Nat) (w w' : World) : Prop where
  reports : w.heap.reports ≤ w'.heap.reports
  stake : w'.heap.reports ≤ w.heap.reports → w'.stake t ≤ w.stake t + n

namespace World.Spares

variable {t : Tally} {n m : Nat} {w w₁ w₂ : World}

theorem trans (h : w.Spares t n w₁) (h' : w₁.Spares t m w₂) : w.Spares t (n + m) w₂ where
  reports := Nat.le_trans h.reports h'.reports
  stake hle := by
    have h₁ := h.stake (Nat.le_trans h'.reports hle)
    have h₂ := h'.stake (Nat.le_trans hle h.reports)
    omega

/-- Only the heap is another, and no closure has been given back. -/
theorem of_heap {h : Heap} (hreports : w.heap.reports ≤ h.reports)
    (hunrun : h.unrun t ≤ w.heap.unrun t) : w.Spares t 0 (w.withHeap h) where
  reports := hreports
  stake _ := Nat.add_le_add_left hunrun _

end World.Spares

/-! ### The discipline -/

/-- To record interrupts, and not to give back a closure that has been run, unless a failure is
recorded or a handler has learnt of one. -/
def Discipline.thrift (t : Tally) : Discipline where
  start w := Discipline.honesty.start w ∧ w.heap.Quiet t
  done w w' := Discipline.honesty.done w w' ∧ w'.heap.Quiet t ∧ w.Spares t 0 w'
  stopped i w w' := Discipline.honesty.stopped i w w' ∧ w'.heap.Quiet t ∧
    w.heap.reports ≤ w'.heap.reports ∧ (i = .suspended → w.Spares t 0 w')
  code c := c.Honest ∧ c.Quiet t

section Thrift

variable {t : Tally}

open Discipline (Lawful LawfulCode)

/-- A world that differs in the heap only. -/
theorem thrift_withHeap {w : World} {h : Heap} (hhonest : h.Honest) (hquiet : h.Quiet t)
    (hreports : w.heap.reports ≤ h.reports) (hunrun : h.unrun t ≤ w.heap.unrun t) :
    (Discipline.thrift t).done w (w.withHeap h) :=
  ⟨⟨hhonest, rfl⟩, hquiet, .of_heap hreports hunrun⟩

/-- A quiet function may be added. -/
theorem thrift_addFunction {w : World} (hw : (Discipline.thrift t).start w) {f : Function}
    (hf : f.Honest) (hf' : f.Quiet t) :
    (Discipline.thrift t).done w (w.withHeap (w.heap.addFunction f).2) :=
  thrift_withHeap (hw.1.1.addFunction hf) (hw.2.addFunction hf') (Nat.le_refl _) (Nat.le_refl _)

/-- A thunk without toll may be added. -/
theorem thrift_addThunk {w : World} (hw : (Discipline.thrift t).start w) {d : Deferred}
    (hd : d.Honest) (hd' : d.Metered t) (htoll : d.toll t = 0) :
    (Discipline.thrift t).done w (w.withHeap (w.heap.addThunk (.waiting d)).2) := by
  refine thrift_withHeap (hw.1.1.addThunk hd) (hw.2.addThunk hd') (Nat.le_refl _) ?_
  rw [Heap.unrun_addThunk, htoll]
  exact Nat.le_refl _

/-- Quiet code counts nothing where it starts. -/
theorem HostCode.Quiet.toll {code : HostCode} (hcode : code.Quiet t) :
    (Deferred.native code).toll t = 0 := by
  cases code with
  | count s next => simp [Deferred.toll, Thunk.unrun, hcode.1]
  | _ => rfl

/-- Quiet code that is honest is thrifty. -/
instance : (Discipline.thrift t).LawfulCode where
  refl hw := ⟨Lawful.refl hw.1, hw.2, ⟨Nat.le_refl _, fun _ => Nat.le_refl _⟩⟩
  trans h h' := ⟨Lawful.trans h.1 h'.1, h'.2.1, h.2.2.trans h'.2.2⟩
  stop h h' := ⟨Lawful.stop h.1 h'.1, h'.2.1, Nat.le_trans h.2.2.reports h'.2.2.1,
    fun hi => h.2.2.trans (h'.2.2.2 hi)⟩
  next hw h := ⟨Lawful.next hw.1 h.1, h.2.1⟩
  dead hw hc := by
    rw [hw.1.2.interrupt?] at hc
    cases hc
  fail e hw := ⟨Lawful.fail e hw.1, hw.2, Nat.le_refl _, by rintro ⟨⟩⟩
  grow {w h} hw hgrows hfunctions := by
    refine thrift_withHeap (hw.1.1.congr hgrows.thunks hfunctions)
      (Heap.Each.congr hw.2 hgrows.thunks hfunctions) (hgrows.variants.countP_le _) ?_
    rw [Heap.unrun, hgrows.thunks]
    exact Nat.le_refl _
  enclose _ _ _ _ _ hw := thrift_addFunction hw trivial ⟨.inl rfl, by rintro _ ⟨⟩⟩
  curry {w args} f hw hargs := by
    -- the new function still lacks arguments, so nothing is asked of its code without any
    have hf := hw.2.function f
    refine thrift_addFunction hw (hw.1.1.function f) ⟨.inr ?_, hf.code⟩
    rw [Function.remaining] at hargs
    dsimp only
    rw [List.length_append]
    omega
  delay _ hw := thrift_addThunk hw trivial trivial rfl
  body {w f code} args hw hbody :=
    ⟨Lawful.body args hw.1 hbody, ((hw.2.function f).code code hbody).1 args⟩
  code_next hcode hnext := by
    refine ⟨LawfulCode.code_next (D := .honesty) hcode.1 hnext, ?_⟩
    obtain ⟨-, hquiet⟩ := hcode
    cases hnext with
    | count => exact hquiet.2
    | makeThunk v => exact hquiet.2 v
    | makeFunction v => exact hquiet.2 v
    | makeNaturals v => exact hquiet.2 v
    | perform v => exact hquiet v
    | readVariable v => exact hquiet v
    | latch b => exact hquiet b
    | makeList v => exact hquiet v
  code_stop hw hcode hreg := by
    rcases hreg with rfl | rfl
    · exact absurd rfl hcode.1.1
    · exact absurd rfl hcode.1.2
  code_count {w s next} hw hcode := by
    -- quiet code counts under the other tally
    refine ⟨⟨hw.1.1, rfl⟩, hw.2, Nat.le_refl _, fun _ => ?_⟩
    simp only [World.stake, Host.tally_count_of_ne _ hcode.2.1]
    exact Nat.le_refl _
  code_latch i hw := by
    refine ⟨⟨hw.1.1, rfl⟩, hw.2, Nat.le_refl _, fun _ => ?_⟩
    cases t <;> exact Nat.le_refl _
  code_makeThunk hw hcode :=
    thrift_addThunk hw hcode.1.1 (.inl hcode.2.1) (HostCode.Quiet.toll hcode.2.1)
  code_makeFunction hw hcode :=
    thrift_addFunction hw hcode.1.1 ⟨.inl rfl, by rintro _ ⟨⟩; exact hcode.2.1⟩
  code_makeNaturals {w first next} hw hcode := by
    have hquiet : (HostCode.count .runs (.makeNaturals (first + 1) .done)).Quiet t :=
      ⟨hcode.2.1, hcode.2.1, fun _ => trivial⟩
    exact thrift_addThunk hw (fun _ => trivial) (.inl hquiet) hquiet.toll
  eager hw := ⟨Lawful.eager hw.1, hw.2⟩
  eager_done hw h := ⟨Lawful.eager_done hw.1 h.1, h.2.1, ⟨h.2.2.reports, h.2.2.stake⟩⟩
  eager_stopped hw hreg h := by
    refine ⟨Lawful.eager_stopped hw.1 hreg h.1, h.2.1, h.2.2.1, fun hi => ?_⟩
    exact ⟨(h.2.2.2 hi).reports, (h.2.2.2 hi).stake⟩
  aside hw := ⟨Lawful.aside hw.1, hw.2⟩
  report e hw h := by
    refine ⟨Lawful.report e hw.1 (h.imp (·.1) fun ⟨i, h⟩ => ⟨i, h.1⟩), ?_, ?_, by rintro ⟨⟩⟩
    · exact h.elim (·.2.1) fun ⟨_, h⟩ => h.2.1
    · exact h.elim (·.2.2.reports) fun ⟨_, h⟩ => h.2.2.1

end Thrift

end LazyMachine
