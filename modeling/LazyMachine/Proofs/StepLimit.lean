import LazyMachine.Evaluation
import LazyMachine.Proofs.Rounds

/-!
# The limit on instructions

The limit of the settings is one on the machine that evaluates a program: it never executes more
instructions than the limit allows. In cooperative mode there is no other machine, since the code of
thunks runs in frames of that one, so the limit bounds the whole evaluation and every evaluation
ends (`evaluate_within_limit`). Machines that evaluate thunks at once, in eager mode or for
rendering, have no limit (`limit_exceeded`).
-/

namespace LazyMachine

variable {p : Program}

open Machine (Round)

/-! ### Counting -/

section Counting

variable {E : Engine} {fuel : Nat} {m : Machine} {w : World}

/-- The machine after a round. -/
def Machine.Round.machine : Round → Machine
  | .running m => m
  | .ended _ m => m

/-- The round neither counts instructions nor changes the limit. -/
def Uncounted (m : Machine) : Except Interrupt Round → Prop
  | .ok round => round.machine.steps = m.steps ∧ round.machine.stepLimit = m.stepLimit
  | .error _ => True

/-- Whatever follows an evaluation decides what the whole leads to. -/
theorem leads_bind_of {α β : Type} {x : Eval α} {f : α → Eval β}
    {Q : Except Interrupt β → World → Prop} (hf : ∀ a w', Leads (f a) w' Q)
    (herror : ∀ i w', Q (.error i) w') : Leads (x >>= f) w Q := by
  rw [leads_bind]
  exact .intro (fun a w' _ => hf a w') fun i w' _ => herror i w'

/-- Giving up counts nothing. -/
theorem abandon_uncounted (a : Abort) (w : World) :
    Leads (m.abandon a) w fun r _ => Uncounted m r :=
  leads_bind_of (fun _ _ => ⟨rfl, rfl⟩) fun _ _ => trivial

/-- Nor does recovery. -/
theorem recover_uncounted (stop : Stop) (w : World) :
    Leads (m.recover stop) w fun r _ => Uncounted m r := by
  cases stop with
  | abort a => exact abandon_uncounted a w
  | interrupt i =>
    refine leads_bind_of (fun found w' => ?_) fun _ _ => trivial
    obtain ⟨handled, frames⟩ := found
    cases handled <;> exact ⟨rfl, rfl⟩

/-- Nor does what is done about a stop. -/
theorem halt_uncounted (stop : Stop) (w : World) :
    Leads (m.halt E fuel stop) w fun r _ => Uncounted m r := by
  unfold Machine.halt
  split
  · refine leads_bind_of (fun outcome w' => ?_) fun _ _ => trivial
    split
    · exact ⟨rfl, rfl⟩
    · exact ⟨rfl, rfl⟩
    · exact recover_uncounted _ w'
  · exact recover_uncounted _ w

/-- Nor does leaving a frame. -/
theorem leave_uncounted (kind : FrameKind) (below : List Frame) (v : Value) (w : World) :
    Leads (m.leave E fuel kind below v) w fun r _ => Uncounted m r := by
  unfold Machine.leave
  split
  · exact ⟨rfl, rfl⟩
  · split
    · exact ⟨rfl, rfl⟩
    · exact abandon_uncounted _ w
  · refine leads_bind_of (fun outcome w' => ?_) fun _ _ => trivial
    split
    · exact ⟨rfl, rfl⟩
    · exact ⟨rfl, rfl⟩
    · exact halt_uncounted _ w'

/-- So a turn counts nothing. -/
theorem turn_uncounted (w : World) : Leads (m.turn E fuel) w fun r _ => Uncounted m r := by
  unfold Machine.turn
  split
  · exact abandon_uncounted _ w
  · refine leads_bind_of (fun outcome w' => ?_) fun _ _ => trivial
    split
    · exact ⟨rfl, rfl⟩
    · exact ⟨rfl, rfl⟩
    · exact ⟨rfl, rfl⟩
    · exact ⟨rfl, rfl⟩
    · exact leave_uncounted _ _ _ w'
    · exact halt_uncounted _ w'

/-- A machine does not count beyond its limit. -/
theorem execute_steps_le {limit : Nat} (hlimit : m.stepLimit = some limit) (hm : m.steps ≤ limit)
    (w : World) :
    Leads (m.execute E fuel) w fun r _ => ∀ exit m', r = .ok (exit, m') → m'.steps ≤ limit := by
  induction fuel generalizing m w with
  | zero => rintro exit m' ⟨⟩
  | succ fuel ih =>
    rcases Nat.lt_or_ge m.steps limit with hlt | hge
    · have hbelow : ∀ l ∈ m.stepLimit, m.steps < l := by simpa [hlimit] using hlt
      refine .of_eq ?_ (Machine.execute_below hbelow E fuel w)
      rw [Machine.proceed, leads_bind]
      refine (turn_uncounted _).imp fun r w' h => ?_
      rcases r with i | m' | ⟨exit, m'⟩
      · rintro exit m' ⟨⟩
      · obtain ⟨hsteps, hlimit'⟩ : m'.steps = m.steps + 1 ∧ m'.stepLimit = m.stepLimit := h
        exact ih (hlimit'.trans hlimit) (by omega) w'
      · rintro exit' m'' ⟨⟩
        obtain ⟨hsteps, -⟩ : m'.steps = m.steps + 1 ∧ m'.stepLimit = m.stepLimit := h
        omega
    · refine .of_eq_ok (Machine.execute_limit hlimit hge E fuel w) ?_
      rintro exit m' ⟨⟩
      exact hm

/-- A machine counts no more instructions than it makes rounds. -/
theorem execute_steps_le_fuel (m : Machine) (w : World) :
    Leads (m.execute E fuel) w fun r _ =>
      ∀ e m', r = .ok (e, m') → m'.steps ≤ m.steps + fuel := by
  induction fuel generalizing m w with
  | zero => rintro e m' ⟨⟩
  | succ fuel ih =>
    by_cases hbelow : ∀ k ∈ m.stepLimit, m.steps < k
    · refine .of_eq ?_ (Machine.execute_below hbelow E fuel w)
      rw [Machine.proceed, leads_bind]
      refine (turn_uncounted _).imp fun r w' h => ?_
      rcases r with i | m₁ | ⟨e, m₁⟩
      · rintro e m' ⟨⟩
      · obtain ⟨hsteps, -⟩ : m₁.steps = m.steps + 1 ∧ m₁.stepLimit = m.stepLimit := h
        refine (ih m₁ w').imp fun r _ hr e m' hm' => ?_
        have := hr e m' hm'
        omega
      · rintro e' m' ⟨⟩
        obtain ⟨hsteps, -⟩ : m₁.steps = m.steps + 1 ∧ m₁.stepLimit = m.stepLimit := h
        omega
    · push Not at hbelow
      -- at the limit no more rounds are made
      obtain ⟨k, hk, hle⟩ := hbelow
      refine .of_eq_ok (Machine.execute_limit hk hle E fuel w) ?_
      rintro e m' ⟨⟩
      exact Nat.le_add_right _ _

end Counting

/-! ### Cooperative evaluation -/

/-- Nothing is on the heap yet. -/
def Store.empty (p : Program) : Store p where
  heap := {}
  rank _ _ := 0
  ranked kind i v hv := by cases kind <;> simp [Heap.partsAt] at hv
  thunks := by simp
  functions := by simp

/-- The frame at which a run starts fits the empty store. -/
theorem stackSound_entry {f : Frame} (hf : Frame.enter? p p.entry [] .entry = some f) :
    StackSound (Store.empty p) [f] := by
  unfold Frame.enter? at hf
  split at hf
  · cases hf
    exact ⟨⟨rfl, by simp, by simp⟩, trivial, trivial⟩
  · cases hf

/-- A run ends, having executed no more instructions than the limit leaves. -/
def Bounded (executed : Nat) (r : Except Interrupt (Machine.Exit × Machine)) (w' : World) : Prop :=
  r ≠ .error .exhausted ∧ w'.executed ≤ executed

/-- In cooperative mode a run with a limit ends, and all its instructions count. -/
theorem execute_bounded {format : Format} {s : Store p} {frames : List Frame} {m : Machine}
    {w : World} {k : Nat} (hframes : StackSound s frames) (hw : w.At s.heap format False)
    (hlimit : m.stepLimit = some (m.steps + k)) :
    ∃ N, ∀ level fuel, N ≤ level → N ≤ fuel →
      Leads ((m.withFrames frames).execute (engine level) fuel) w (Bounded (w.executed + k)) := by
  induction k generalizing s frames m w with
  | zero =>
    refine ⟨1, fun level fuel _ hfuel => ?_⟩
    obtain ⟨fuel, rfl⟩ : ∃ n, fuel = n + 1 := ⟨fuel - 1, by omega⟩
    have hend := Machine.execute_limit (m := m.withFrames frames) hlimit (Nat.le_refl _)
      (engine level) fuel w
    exact .of_eq_ok hend ⟨by rintro ⟨⟩, Nat.le_refl _⟩
  | succ k ih =>
    have hbelow : ∀ l ∈ (m.withFrames frames).stepLimit, (m.withFrames frames).steps < l := by
      intro l hl
      rw [Machine.withFrames, hlimit] at hl
      cases hl
      exact Nat.lt_add_of_pos_right (Nat.succ_pos k)
    let m₁ : Machine := { m with steps := m.steps + 1 }
    have hw₁ : World.At { w with executed := w.executed + 1 } s.heap format False :=
      ⟨hw.heap, hw.context, hw.covered⟩
    obtain ⟨o, s₁, hlater, ho, N, hturn⟩ : (Conf.run frames).Progresses format s :=
      Conf.progresses_run hframes
    -- what follows the present round is bounded, too
    obtain ⟨N', hrest⟩ : ∃ N', ∀ level fuel, N ≤ level → N ≤ fuel → N' ≤ level → N' ≤ fuel →
        Leads ((m₁.withFrames frames).proceed (engine level) fuel)
          { w with executed := w.executed + 1 } (Bounded (w.executed + (k + 1))) := by
      cases o with
      | running frames' =>
        have hleft : m.steps + (k + 1) = m.steps + 1 + k := by omega
        have hlimit₁ : m₁.stepLimit = some (m₁.steps + k) := hlimit.trans (congrArg some hleft)
        obtain ⟨N', hexecute⟩ := ih ho (hw₁.onHeap s₁.heap) hlimit₁
        refine ⟨N', fun level fuel hlevel hfuel hlevel' hfuel' => ?_⟩
        have hnext := hexecute level fuel hlevel' hfuel'
        rw [Nat.add_assoc, Nat.add_comm 1 k] at hnext
        exact hnext.of_eq (bind_ok (hturn level fuel hlevel hfuel m₁ _ hw₁))
      | ended x frames' =>
        refine ⟨0, fun level fuel hlevel hfuel _ _ => ?_⟩
        have hend := hturn level fuel hlevel hfuel m₁ _ hw₁
        have hle : w.executed + 1 ≤ w.executed + (k + 1) := by omega
        cases x <;> exact .of_eq_ok (bind_ok hend) ⟨by rintro ⟨⟩, hle⟩
      | crashed =>
        refine ⟨0, fun level fuel hlevel hfuel _ _ => ?_⟩
        have hle : w.executed + 1 ≤ w.executed + (k + 1) := by omega
        exact .of_eq_error (bind_error (hturn level fuel hlevel hfuel m₁ _ hw₁)) ⟨by rintro ⟨⟩, hle⟩
    refine ⟨max N N' + 1, fun level fuel hlevel hfuel => ?_⟩
    obtain ⟨fuel, rfl⟩ : ∃ n, fuel = n + 1 := ⟨fuel - 1, by omega⟩
    exact (hrest level fuel (by omega) (by omega) (by omega) (by omega)).of_eq
      (Machine.execute_below hbelow _ fuel w)

/-- What the host is told of the end of a run. -/
def Machine.Exit.answer (c : Context) : Machine.Exit → Answer Value
  | .done v => .ok v
  | .failed => .error (c.hostError .failed)
  | .aborted a => .error (.aborted a)

/-- A recorded failure is taken from the context at the end of a run. -/
def Machine.Exit.context (c : Context) : Machine.Exit → Context
  | .failed => c.takeError.2
  | _ => c

/-- A run of a program that has an entry leads to what the host is told of its end. -/
theorem leads_run_iff {level : Nat} {m : Machine} {w : World} {f : Frame}
    {Q : Except Interrupt (Answer Value × Machine) → World → Prop}
    (hf : Frame.enter? p p.entry [] .entry = some f) :
    Leads (m.run level p) w Q ↔
      Leads (Machine.execute (engine level) level (m.withFrames (f :: m.frames))) w fun
        | .ok (e, m'), w' =>
          Q (.ok (e.answer w'.context, m')) { w' with context := e.context w'.context }
        | .error i, w' => Q (.error i) w' := by
  simp only [Machine.run, hf, leads_bind]
  refine ⟨fun h => h.imp fun r w' h => ?_, fun h => h.imp fun r w' h => ?_⟩
  all_goals
    rcases r with i | ⟨v | _ | a, m'⟩ <;> exact h

/-- A run of a program leads to whatever holds before it, if there is nothing to run, and of every
way in which the machine stops. -/
theorem leads_run {level : Nat} {m : Machine} {w : World}
    {Q : Except Interrupt (Answer Value × Machine) → World → Prop}
    (hnone : ∀ answer, Q (.ok (answer, m)) w)
    (hrun : ∀ f, Frame.enter? p p.entry [] .entry = some f →
      Leads (Machine.execute (engine level) level (m.withFrames (f :: m.frames))) w fun
        | .ok (_, m'), w' => ∀ answer context, Q (.ok (answer, m')) { w' with context }
        | .error i, w' => Q (.error i) w') :
    Leads (m.run level p) w Q := by
  cases hf : Frame.enter? p p.entry [] .entry with
  | none =>
    simp only [Machine.run, hf]
    exact hnone _
  | some f =>
    rw [leads_run_iff hf]
    refine (hrun f hf).imp fun r w' h => ?_
    match r with
    | .ok (e, m') => exact h _ _
    | .error i => exact h

/-- The limit on instructions. Whatever the mode, the machine that evaluates a program executes no
more instructions than the limit allows. In cooperative mode these are all the instructions that are
executed, those of thunks and functions included, and the evaluation ends. -/
theorem evaluate_within_limit (p : Program) (settings : Settings) (limit : Nat)
    (hlimit : settings.stepLimit = some limit) (w : World) (hw : w.heap = {}) :
    (∀ level answer m w', evaluate level settings p w = .ok (answer, m) w' → m.steps ≤ limit) ∧
      (settings.forceMode = .cooperative → ∃ enough, ∀ level, enough ≤ level →
        Leads (evaluate level settings p) w fun r w' =>
          r ≠ .error .exhausted ∧ w'.executed ≤ w.executed + limit) := by
  constructor
  · intro level answer m w' heq
    have hsteps : Leads (evaluate level settings p) w fun r _ =>
        ∀ answer m, r = .ok (answer, m) → m.steps ≤ limit := by
      unfold evaluate
      rw [leads_bind, leads_onContext]
      refine leads_run (fun _ _ _ h => ?_) fun f hf => ?_
      · cases h
        exact Nat.zero_le _
      · refine (execute_steps_le hlimit (Nat.zero_le limit) _).imp fun r w' h => ?_
        match r with
        | .ok (exit, m') =>
          rintro answer context _ _ ⟨⟩
          exact h exit m' rfl
        | .error i => exact nofun
    exact hsteps.of_ok heq answer m rfl
  · intro hmode
    have hw₁ : World.At { w with context := settings.context } (Store.empty p).heap
        settings.format False := ⟨hw, rfl, .inl hmode⟩
    -- the machine counts from its own steps, and it starts with none
    have hlimit₁ : settings.machine.stepLimit = some (settings.machine.steps + limit) :=
      hlimit.trans (congrArg some (Nat.zero_add limit).symm)
    obtain ⟨enough, hrun⟩ : ∃ N, ∀ level, N ≤ level →
        ∀ f, Frame.enter? p p.entry [] .entry = some f →
        Leads ((settings.machine.withFrames [f]).execute (engine level) level)
          { w with context := settings.context } (Bounded (w.executed + limit)) := by
      cases hf : Frame.enter? p p.entry [] .entry with
      | none => exact ⟨0, fun _ _ => nofun⟩
      | some f =>
        obtain ⟨N, hN⟩ := execute_bounded (stackSound_entry hf) hw₁ hlimit₁
        refine ⟨N, fun level hlevel => ?_⟩
        rintro _ ⟨⟩
        exact hN level level hlevel hlevel
    refine ⟨enough, fun level hlevel => ?_⟩
    unfold evaluate
    rw [leads_bind, leads_onContext]
    refine leads_run (fun _ => ⟨nofun, Nat.le_add_right _ _⟩) fun f hf => ?_
    refine (hrun level hlevel f hf).imp fun r w' h => ?_
    match r with
    | .ok (exit, m') => exact fun _ _ => ⟨nofun, h.2⟩
    | .error i => exact ⟨fun hi => h.1 (by cases hi; rfl), h.2⟩

/-- A thunk that is forced by the program. -/
def forcing : Program :=
  ⟨#[⟨"main", 0, #[.delay 1 0, .force]⟩, ⟨"body", 0, #[.push (.int 7)]⟩], 0⟩

/-- A thunk that is left to be forced for rendering. -/
def deferring : Program :=
  ⟨#[⟨"main", 0, #[.delay 1 0]⟩, ⟨"body", 0, #[.push (.int 7)]⟩], 0⟩

/-- The limit does not bound all instructions: in eager mode the code of a thunk is not counted, and
in neither mode is that of a thunk that is evaluated for rendering. -/
theorem limit_exceeded :
    (forcing.Valid ∧ ∃ m w, evaluate 9 { forceMode := .eager, stepLimit := some 3 } forcing {} =
      .ok (.ok (.int 7), m) w ∧ ¬ w.executed ≤ 3) ∧
    deferring.Valid ∧ ∃ v m w, evaluate 9 { stepLimit := some 2 } deferring {} = .ok (.ok v, m) w ∧
      ∃ w', renderText 9 { stepLimit := some 2 } v w = .ok (.ok "7") w' ∧ ¬ w'.executed ≤ 2 := by
  refine ⟨⟨rfl, ?_⟩, rfl, ?_⟩
  · exact ⟨_, _, rfl, by decide⟩
  · exact ⟨_, _, _, rfl, _, rfl, by decide⟩

/-- In cooperative mode the first of these programs keeps its limit. -/
theorem evaluate_within_limit_forcing :
    (∃ m w, evaluate 9 { stepLimit := some 6 } forcing {} = .ok (.ok (.int 7), m) w ∧ m.steps ≤ 6) ∧
      ∃ enough, ∀ level, enough ≤ level →
        Leads (evaluate level { stepLimit := some 6 } forcing) {} fun r w =>
          r ≠ .error .exhausted ∧ w.executed ≤ 0 + 6 := by
  have h := evaluate_within_limit forcing { stepLimit := some 6 } 6 rfl {} rfl
  obtain ⟨m, w, hrun⟩ : ∃ m w, evaluate 9 { stepLimit := some 6 } forcing {} =
      .ok (.ok (.int 7), m) w :=
    Eval.exists_of_endsWithInt (by decide +kernel)
  exact ⟨⟨m, w, hrun, h.1 9 _ _ _ hrun⟩, h.2 rfl⟩

end LazyMachine
