import LazyMachine.Proofs.Availability
import LazyMachine.Proofs.Passages
import LazyMachine.Proofs.StepLimit

/-!
# The limit as a cut-off

A limit on the instructions of a run decides when the run is given up, and nothing else. Two
machines that differ only in their limit do the same in one turn (`turn_withLimit`), and no
instruction gives up for a limit, only the check before it does (`turn_uncut`). So a run with a
limit is the run without it as long as the limit is not reached (`execute_withLimit`), and a run
that is given up for its limit has passed as many rounds as the limit allows (`execute_cut`).
-/

namespace LazyMachine

open Machine (Round)

variable {α β : Type}

namespace Machine

/-- The machine with another limit. -/
def withLimit (m : Machine) (limit : Option Nat) : Machine :=
  { m with stepLimit := limit }

/-- Another limit leaves the count. -/
@[simp]
theorem withLimit_steps (m : Machine) (limit : Option Nat) : (m.withLimit limit).steps = m.steps :=
  rfl

/-- Another limit leaves the frames. -/
@[simp]
theorem withLimit_frames (m : Machine) (limit : Option Nat) :
    (m.withLimit limit).frames = m.frames := rfl

/-- The limit is the one that was set. -/
@[simp]
theorem withLimit_stepLimit (m : Machine) (limit : Option Nat) :
    (m.withLimit limit).stepLimit = limit := rfl

/-- The limit set last counts. -/
@[simp]
theorem withLimit_withLimit (m : Machine) (limit limit' : Option Nat) :
    (m.withLimit limit).withLimit limit' = m.withLimit limit' := rfl

/-- What a round gives, on a machine with another limit. -/
def Round.withLimit (limit : Option Nat) : Round → Round
  | .running m => .running (m.withLimit limit)
  | .ended e m => .ended e (m.withLimit limit)

end Machine

/-! ### A turn does not see the limit -/

section Turn

variable {E : Engine} {fuel : Nat} {m : Machine} (limit : Option Nat)

/-- Giving up does not depend on the limit. -/
theorem abandon_withLimit (a : Abort) :
    (m.withLimit limit).abandon a = Round.withLimit limit <$> m.abandon a := by
  simp only [Machine.abandon, map_bind, map_pure]
  rfl

/-- Recovering does not depend on the limit. -/
theorem recover_withLimit (stop : Stop) :
    (m.withLimit limit).recover stop = Round.withLimit limit <$> m.recover stop := by
  cases stop with
  | abort a => exact abandon_withLimit limit a
  | interrupt i =>
    simp only [Machine.recover, map_bind]
    refine bind_congr fun found => ?_
    obtain ⟨handled, frames⟩ := found
    cases handled <;> rfl

/-- Stopping does not depend on the limit. -/
theorem halt_withLimit (stop : Stop) :
    (m.withLimit limit).halt E fuel stop = Round.withLimit limit <$> m.halt E fuel stop := by
  unfold Machine.halt
  split
  · simp only [map_bind]
    refine bind_congr fun outcome => ?_
    split
    · rfl
    · rfl
    · exact recover_withLimit limit _
  · exact recover_withLimit limit _

/-- Leaving a frame does not depend on the limit. -/
theorem leave_withLimit (kind : FrameKind) (below : List Frame) (v : Value) :
    (m.withLimit limit).leave E fuel kind below v =
      Round.withLimit limit <$> m.leave E fuel kind below v := by
  unfold Machine.leave
  split
  · rfl
  · split
    · rfl
    · exact abandon_withLimit (m := m.withFrames []) limit _
  · simp only [map_bind]
    refine bind_congr fun outcome => ?_
    split
    · rfl
    · rfl
    · exact halt_withLimit (m := m.withFrames below) limit _

/-- A turn of the machine does the same under another limit. -/
theorem turn_withLimit :
    (m.withLimit limit).turn E fuel = Round.withLimit limit <$> m.turn E fuel := by
  unfold Machine.turn
  rw [Machine.withLimit_frames]
  split
  · exact abandon_withLimit limit _
  · simp only [map_bind]
    refine bind_congr fun outcome => ?_
    split
    · rfl
    · rfl
    · rfl
    · rfl
    · exact leave_withLimit limit _ _ _
    · exact halt_withLimit limit _

end Turn

/-! ### No instruction gives up for a limit -/

/-- The run is not given up for a limit. -/
def Stop.Unlimited (stop : Stop) : Prop :=
  ∀ limit, stop ≠ .abort (.stepLimit limit)

/-- The step does not give up for a limit. -/
def Step.Unlimited (x : Step α) : Prop :=
  ∀ w, Leads x w fun r _ => ∀ stop, r = .error stop → stop.Unlimited

namespace Step.Unlimited

theorem pure (a : α) : (Pure.pure a : Step α).Unlimited := by
  rintro w _ ⟨⟩

theorem throw {stop : Stop} (h : stop.Unlimited) : (throw stop : Step α).Unlimited := by
  rintro w _ ⟨⟩
  exact h

/-- An interrupt is no limit. -/
theorem interrupt (i : Interrupt) : (MonadExcept.throw (.interrupt i) : Step α).Unlimited :=
  throw (by simp [Stop.Unlimited])

theorem ofEval (x : Eval α) : (Step.ofEval x).Unlimited := by
  intro w
  rw [leads_ofEval]
  refine .intro (fun a w' _ => by simp) fun i w' _ => ?_
  rintro _ ⟨⟩
  simp [Stop.Unlimited]

/-- Steps that do not give up for a limit may follow each other. -/
theorem bind {x : Step α} {f : α → Step β} (hx : x.Unlimited) (hf : ∀ a, (f a).Unlimited) :
    (x >>= f).Unlimited := by
  intro w
  rw [leads_bind]
  refine (hx w).imp fun r w' h => ?_
  cases r with
  | ok a => exact hf a w'
  | error stop =>
    rintro _ ⟨⟩
    exact h stop rfl

/-- A step that starts with an evaluation. -/
theorem ofEval_bind (x : Eval α) {f : α → Step β} (hf : ∀ a, (f a).Unlimited) :
    (Step.ofEval x >>= f).Unlimited :=
  bind (ofEval x) hf

/-- A handler sees only stops that are not for a limit. -/
theorem tryCatch {x : Step α} {f : Stop → Step α} (hx : x.Unlimited)
    (hf : ∀ stop, stop.Unlimited → (f stop).Unlimited) :
    (MonadExcept.tryCatch x f).Unlimited := by
  intro w
  rw [leads_tryCatch]
  refine (hx w).imp fun r w' h => ?_
  cases r with
  | ok a => simp
  | error stop => exact hf stop (h stop rfl) w'

end Step.Unlimited

section Instructions

variable (E : Engine) (fuel : Nat) (f : Frame)

open Step (Unlimited)

/-- A stack with too few operands is no limit. -/
theorem underflow_unlimited (need : Nat) : (f.underflow need : Step α).Unlimited :=
  .throw (by simp [Stop.Unlimited])

/-- A crash of a count is no limit. -/
theorem increment_unlimited (bound n : Nat) : (increment bound n).Unlimited := by
  unfold increment
  split
  · exact .pure _
  · exact .interrupt _

/-- Popping operands does not give up for a limit. -/
theorem operands_unlimited (n : Nat) : (f.operands n).Unlimited := by
  unfold Frame.operands
  split
  · exact .pure _
  · exact underflow_unlimited f n

/-- Receiving an application does not give up for a limit. -/
theorem receive_unlimited (base : List Value) (a : Application) :
    (f.receive base a).Unlimited := by
  unfold Frame.receive
  split
  · exact .pure _
  · split
    · exact .pure _
    · exact .throw (by simp [Stop.Unlimited])

/-- A call does not give up for a limit. -/
theorem apply_unlimited (count : Nat) : (f.apply E fuel count).Unlimited := by
  refine .bind (increment_unlimited _ _) fun need => ?_
  refine .bind (operands_unlimited f need) fun operands => ?_
  dsimp only
  split
  · exact underflow_unlimited f need
  · exact .ofEval_bind _ fun callee => .ofEval_bind _ fun a => receive_unlimited f _ a

/-- Capturing values does not give up for a limit. -/
theorem capture_unlimited (chunk captures : Nat) : (f.capture chunk captures).Unlimited := by
  refine .bind (operands_unlimited f captures) fun operands => ?_
  dsimp only
  split
  · exact .ofEval_bind _ fun g => .pure _
  · exact .throw (by simp [Stop.Unlimited])

/-- An operation on the top of the stack does not give up for a limit. -/
theorem onTop_unlimited (o : Value → Operation) : (f.onTop E o).Unlimited := by
  unfold Frame.onTop
  split
  · exact .ofEval_bind _ fun v => .pure _
  · exact underflow_unlimited f 1

/-- An operation on the two values on top does not give up for a limit. -/
theorem onTwo_unlimited (o : Value → Value → Operation) : (f.onTwo E o).Unlimited := by
  unfold Frame.onTwo
  split
  · exact .ofEval_bind _ fun v => .pure _
  · exact underflow_unlimited f 2

/-- No instruction gives up for a limit. -/
theorem step_unlimited (instr : Instr) : (f.step E fuel instr).Unlimited := by
  -- the limit is looked at between instructions, so none of them can report it
  cases instr with
  | push literal => exact .ofEval_bind _ fun v => .pure _
  | load slot =>
    dsimp only [Frame.step]
    split
    · exact .pure _
    · exact .throw (by simp [Stop.Unlimited])
  | store slot =>
    dsimp only [Frame.step]
    split
    · split
      · exact .bind (increment_unlimited _ slot) fun _ => .pure _
      · exact .pure _
    · exact underflow_unlimited f 1
  | pop | dup | swap =>
    dsimp only [Frame.step]
    split
    · exact .pure _
    · exact underflow_unlimited f _
  | binary | index | cons => exact onTwo_unlimited E f _
  | unary | length | head | tail | isNil | empty | tag | untag | convert | force =>
    exact onTop_unlimited E f _
  | render => exact .ofEval_bind _ fun _ => onTop_unlimited E f _
  | setIndex =>
    dsimp only [Frame.step]
    split
    · exact .ofEval_bind _ fun v => .pure _
    · exact underflow_unlimited f 3
  | makeList | makeRecord =>
    exact .bind (operands_unlimited f _) fun _ => .ofEval_bind _ fun v => .pure _
  | makeVariant =>
    dsimp only [Frame.step]
    split
    · exact .ofEval_bind _ fun v => .pure _
    · exact underflow_unlimited f 1
  | delay chunk captures =>
    exact .bind (capture_unlimited f chunk captures) fun _ => .ofEval_bind _ fun v => .pure _
  | closure chunk captures => exact .bind (capture_unlimited f chunk captures) fun _ => .pure _
  | call count =>
    refine .bind (apply_unlimited E fuel f count) fun called => ?_
    obtain ⟨caller, callee⟩ := called
    cases callee <;> exact .pure _
  | jumpIfFalse target =>
    dsimp only [Frame.step]
    split
    · refine .ofEval_bind _ fun v => ?_
      split
      · exact .pure _
      · exact .pure _
      · exact .ofEval _
    · exact underflow_unlimited f 1
  | jump | attempt | endAttempt | ret => exact .pure _

/-- Advancing a frame does not give up for a limit. -/
theorem advance_unlimited : (f.advance E fuel).Unlimited := by
  unfold Frame.advance
  split
  · refine .bind (apply_unlimited E fuel _ _) fun called => ?_
    obtain ⟨caller, callee⟩ := called
    cases callee <;> exact .pure _
  · split
    · exact step_unlimited E fuel f _
    · exact .pure _

/-- Waking up does not give up for a limit. -/
theorem resume_unlimited : (resume E fuel).Unlimited := by
  induction fuel with
  | zero => exact .interrupt _
  | succ fuel ih =>
    refine .ofEval_bind _ fun context => .ofEval_bind _ fun _ => ?_
    split
    · exact .throw (by simp [Stop.Unlimited])
    · refine .tryCatch (.ofEval _) fun stop hstop => ?_
      split
      · exact ih
      · exact .throw hstop

end Instructions

section Turn

variable {E : Engine} {fuel : Nat} {m : Machine}

/-- The run is not given up for a limit in this round. -/
def Uncut (r : Except Interrupt Round) : Prop :=
  ∀ limit m, r ≠ .ok (.ended (.aborted (.stepLimit limit)) m)

/-- An interrupted round is not cut by a limit. -/
theorem uncut_error (i : Interrupt) : Uncut (.error i) := by
  simp [Uncut]

/-- A round that goes on is not cut by a limit. -/
theorem uncut_running (m : Machine) : Uncut (.ok (.running m)) := by
  simp [Uncut]

/-- Giving up for another reason is not a cut. -/
theorem abandon_uncut {a : Abort} (ha : (Stop.abort a).Unlimited) (w : World) :
    Leads (m.abandon a) w fun r _ => Uncut r := by
  simp only [Machine.abandon, releaseChain, leads_bind, leads_onHeap, leads_pure]
  rintro limit _ ⟨⟩
  exact ha limit rfl

/-- Recovering from another stop is not a cut. -/
theorem recover_uncut {stop : Stop} (hstop : stop.Unlimited) (w : World) :
    Leads (m.recover stop) w fun r _ => Uncut r := by
  cases stop with
  | abort a => exact abandon_uncut hstop w
  | interrupt i => exact (recover_handled m i w).imp fun r w' h limit => h.2 (.stepLimit limit)

/-- Stopping for another reason is not a cut. -/
theorem halt_uncut {stop : Stop} (hstop : stop.Unlimited) (w : World) :
    Leads (m.halt E fuel stop) w fun r _ => Uncut r := by
  unfold Machine.halt
  split
  · rw [leads_bind]
    refine leads_outcome ((resume_unlimited E fuel w).imp fun r w' h hreg => ?_)
      fun i w' _ => uncut_error i
    rcases r with stop | _ | f
    · exact recover_uncut (h stop rfl) w'
    · exact uncut_running _
    · exact uncut_running _
  · exact recover_uncut hstop w

/-- Leaving a frame is not a cut. -/
theorem leave_uncut (kind : FrameKind) (below : List Frame) (v : Value) (w : World) :
    Leads (m.leave E fuel kind below v) w fun r _ => Uncut r := by
  unfold Machine.leave
  split
  · simp [Uncut]
  · split
    · exact uncut_running _
    · exact abandon_uncut (by simp [Stop.Unlimited]) w
  · next chain =>
    rw [leads_bind]
    have hsettled := Step.Unlimited.ofEval (settle E fuel chain v) w
    refine leads_outcome (hsettled.imp fun r w' h hreg => ?_) fun i w' _ => uncut_error i
    rcases r with stop | _ | f
    · exact halt_uncut (h stop rfl) w'
    · exact uncut_running _
    · exact uncut_running _

/-- A turn of the machine does not give up for a limit. -/
theorem turn_uncut (w : World) : Leads (m.turn E fuel) w fun r _ => Uncut r := by
  unfold Machine.turn
  split
  · exact abandon_uncut (by simp [Stop.Unlimited]) w
  · next f below _ =>
    rw [leads_bind]
    refine leads_outcome ((advance_unlimited E fuel f w).imp fun r w' h hreg => ?_)
      fun i w' _ => uncut_error i
    rcases r with stop | flow
    · exact halt_uncut (h stop rfl) w'
    · cases flow with
      | leave v => exact leave_uncut _ _ v w'
      | next | stay | jump | enter => exact uncut_running _

end Turn

/-! ### Runs -/

/-- A function of the result is applied to the value found. -/
theorem map_apply (g : α → β) (x : Eval α) (w : World) :
    (g <$> x) w = match x w with
      | .ok a w' => .ok (g a) w'
      | .error i w' => .error i w' := by
  simp only [Functor.map, EStateM.map]
  cases x w <;> rfl

/-- A function of the result is applied to the value. -/
theorem map_ok {g : α → β} {x : Eval α} {a : α} {w w' : World} (h : x w = .ok a w') :
    (g <$> x) w = .ok (g a) w' := by
  rw [map_apply, h]

/-- A function of the result does not see an interrupt. -/
theorem map_error {g : α → β} {x : Eval α} {i : Interrupt} {w w' : World}
    (h : x w = .error i w') : (g <$> x) w = .error i w' := by
  rw [map_apply, h]

section Runs

variable {E : Engine} {fuel n : Nat} {m m' : Machine} {limit : Option Nat} {w w' : World}

/-- A run that is not given up for its limit is the run with any limit that is no lower. -/
theorem execute_withLimit (hm : m.stepLimit = some n) (hlimit : ∀ k ∈ limit, n ≤ k)
    (hend : ∀ m' w', m.execute E fuel w ≠ .ok (.aborted (.stepLimit n), m') w') :
    (m.withLimit limit).execute E fuel w =
      (Prod.map id (·.withLimit limit) <$> m.execute E fuel) w := by
  induction fuel generalizing m w with
  | zero => rfl
  | succ fuel ih =>
    by_cases hsteps : m.steps < n
    · have hbelow : ∀ k ∈ m.stepLimit, m.steps < k := by simpa [hm] using hsteps
      have hbelow' : ∀ k ∈ (m.withLimit limit).stepLimit, (m.withLimit limit).steps < k :=
        fun k hk => Nat.lt_of_lt_of_le hsteps (hlimit k hk)
      -- both count the instruction and take the same turn
      let m₁ : Machine := { m with steps := m.steps + 1 }
      let w₁ : World := { w with executed := w.executed + 1 }
      have hexecute : m.execute E (fuel + 1) w = Machine.proceed E fuel m₁ w₁ :=
        Machine.execute_below hbelow E fuel w
      have hexecute' : (m.withLimit limit).execute E (fuel + 1) w =
          Machine.proceed E fuel (m₁.withLimit limit) w₁ :=
        Machine.execute_below hbelow' E fuel w
      rw [map_apply, hexecute, hexecute', Machine.proceed, turn_withLimit, Machine.proceed]
      cases hturn : m₁.turn E fuel w₁ with
      | error i w₂ =>
        rw [bind_error (map_error hturn), bind_error hturn]
      | ok r w₂ =>
        rw [bind_ok (map_ok hturn), bind_ok hturn]
        cases r with
        | ended e m₂ => rfl
        | running m₂ =>
          have hm₂ : m₂.stepLimit = some n :=
            ((turn_uncounted w₁).of_ok hturn).2.trans hm
          refine (ih hm₂ fun m' w' hrun => hend m' w' ?_).trans (map_apply _ _ _)
          rw [hexecute, Machine.proceed, bind_ok hturn]
          exact hrun
    · -- at the limit the run is given up
      exact absurd (Machine.execute_limit hm (Nat.le_of_not_lt hsteps) E fuel w) (hend _ _)

/-- A run that is given up for its limit has passed as many rounds as the limit leaves, and it stops
in the state that the run without a limit passes then, with the claims of its frames returned. -/
theorem execute_cut (hm : m.stepLimit = some n) (hsteps : m.steps ≤ n)
    (hrun : m.execute E fuel w = .ok (.aborted (.stepLimit n), m') w') :
    ∃ left m₁ w₁, fuel + m.steps = left + 1 + n ∧
      Machine.Passes E fuel (m.withLimit none) w (left + 1) m₁ w₁ ∧ m₁.steps = n ∧
      m₁.stepLimit = none ∧ m' = (m₁.withLimit (some n)).withFrames [] ∧
      w' = { w₁ with heap := w₁.heap.releaseChain (claimsOf m₁.frames) } := by
  induction fuel generalizing m w with
  | zero => cases hrun
  | succ fuel ih =>
    by_cases hlt : m.steps < n
    · have hbelow : ∀ k ∈ m.stepLimit, m.steps < k := by simpa [hm] using hlt
      let m₁ : Machine := { m with steps := m.steps + 1 }
      let w₁ : World := { w with executed := w.executed + 1 }
      have hround : (m.withLimit none).round E fuel w = (m₁.withLimit none).turn E fuel w₁ :=
        Machine.round_below (by simp) E fuel w
      rw [Machine.execute_below hbelow] at hrun
      cases hturn : m₁.turn E fuel w₁ with
      | error i w₂ =>
        rw [Machine.proceed, bind_error hturn] at hrun
        cases hrun
      | ok r w₂ =>
        rw [Machine.proceed, bind_ok hturn] at hrun
        cases r with
        | ended e m₂ =>
          -- the check of the limit is all that gives up for it
          cases hrun
          exact absurd rfl ((turn_uncut w₁).of_ok hturn n _)
        | running m₂ =>
          obtain ⟨hsteps₂, hlimit₂⟩ : m₂.steps = m.steps + 1 ∧ m₂.stepLimit = m.stepLimit :=
            (turn_uncounted w₁).of_ok hturn
          have hle : m₂.steps ≤ n := by omega
          -- the round that was taken comes before those of the rest
          obtain ⟨left, m₃, w₃, hleft, hpasses, hrest⟩ := ih (hlimit₂.trans hm) hle hrun
          refine ⟨left, m₃, w₃, by omega, .round ?_ hpasses, hrest⟩
          rw [hround, turn_withLimit, map_ok hturn]
          rfl
    · -- at the limit no round is passed, and the claims of the frames are returned
      have heq : m.steps = n := by omega
      rw [Machine.execute_limit hm (by omega)] at hrun
      cases hrun
      refine ⟨fuel, m.withLimit none, w, by omega, .start _ _ _, heq, rfl, ?_, rfl⟩
      rw [← hm]
      rfl

end Runs

/-! ### Programs -/

section Programs

variable {p : Program} {level n : Nat} {w w' : World} {m m' : Machine} {limit : Option Nat}

/-- A run of a program is the run from its entry, whose end the host is told. -/
theorem run_eq {f : Frame} (hf : Frame.enter? p p.entry [] .entry = some f) (m : Machine) :
    m.run level p w = match (m.withFrames (f :: m.frames)).execute (engine level) level w with
      | .ok (e, m') w' =>
        .ok (e.answer w'.context, m') { w' with context := e.context w'.context }
      | .error i w' => .error i w' := by
  simp only [Machine.run, hf, Bind.bind, EStateM.bind]
  rcases (m.withFrames (f :: m.frames)).execute (engine level) level w with ⟨⟨e, m'⟩, w'⟩ | _
  · cases e <;> rfl
  · rfl

/-- What the host is told to be given up has been given up. -/
theorem Machine.Exit.eq_aborted {e : Exit} {c : Context} {a : Abort}
    (h : e.answer c = .error (.aborted a)) : e = .aborted a := by
  cases e with
  | aborted a' =>
    cases h
    rfl
  | done v => cases h
  | failed =>
    rw [answer, Context.hostError] at h
    split at h <;> cases h

/-- The host is told that a run was given up by the run itself. -/
theorem execute_of_run_aborted {f : Frame} {a : Abort}
    (hf : Frame.enter? p p.entry [] .entry = some f)
    (hrun : m.run level p w = .ok (.error (.aborted a), m') w') :
    (m.withFrames (f :: m.frames)).execute (engine level) level w = .ok (.aborted a, m') w' := by
  rw [run_eq hf] at hrun
  split at hrun
  · next e m₁ w₁ hexecute =>
    obtain ⟨hanswer, rfl⟩ := Prod.mk.inj (EStateM.Result.ok.inj hrun).1
    obtain rfl := Machine.Exit.eq_aborted hanswer
    rw [hexecute]
    cases hrun
    rfl
  · cases hrun

/-- A run of a program that is not given up for its limit is the run with any limit that is no
lower. -/
theorem run_withLimit (hm : m.stepLimit = some n) (hlimit : ∀ k ∈ limit, n ≤ k)
    (hend : ∀ m' w', m.run level p w ≠ .ok (.error (.aborted (.stepLimit n)), m') w') :
    (m.withLimit limit).run level p w =
      (Prod.map id (·.withLimit limit) <$> m.run level p) w := by
  rw [map_apply]
  cases hf : Frame.enter? p p.entry [] .entry with
  | none =>
    simp only [Machine.run, hf]
    rfl
  | some f =>
    have hexecute :
        ((m.withLimit limit).withFrames (f :: m.frames)).execute (engine level) level w =
          (Prod.map id (·.withLimit limit) <$>
            (m.withFrames (f :: m.frames)).execute (engine level) level) w := by
      refine execute_withLimit (m := m.withFrames (f :: m.frames)) hm hlimit fun m' w' hrun => ?_
      refine hend m' w' ?_
      rw [run_eq hf, hrun]
      rfl
    rw [run_eq hf, run_eq hf, Machine.withLimit_frames, hexecute, map_apply]
    rcases (m.withFrames (f :: m.frames)).execute (engine level) level w with r | _ <;> rfl

end Programs

/-- The machine is stopped between two rounds: the thunks that its frames have claimed wait again,
and nothing else changes. -/
structure Machine.Stopped (m : Machine) (w w' : World) : Prop where
  /-- Only thunks are changed. -/
  world : w' = { w with heap := { w.heap with thunks := w'.heap.thunks } }
  /-- What a frame has claimed waits for the computation that was to be run. -/
  claims : ∀ t ∈ claimsOf m.frames, ∃ d,
    w.heap.thunk t = .running d ∧ w'.heap.thunk t = .waiting d
  /-- The other thunks are as they were. -/
  others : ∀ t, t ∉ claimsOf m.frames → w'.heap.thunk t = w.heap.thunk t

/-- The limit on instructions is a cut-off. A run of a program on a fresh machine that is not given
up for its limit is the run with any limit that is no lower, and the run without one, whatever it
comes to. A run that is given up has counted as many instructions as the limit allows and has no
frame left; it has passed the rounds of the run without a limit up to there and is stopped in the
state between them, whatever frames there are, so no handler of theirs is entered. -/
theorem limit_cutOff (p : Program) (level n : Nat) (w : World) :
    ((∀ m w', Machine.run level { stepLimit := some n } p w ≠
        .ok (.error (.aborted (.stepLimit n)), m) w') →
      ∀ limit, (∀ k ∈ limit, n ≤ k) →
        Machine.run level { stepLimit := limit } p w =
          (Prod.map id (·.withLimit limit) <$>
            Machine.run level { stepLimit := some n } p) w) ∧
    ∀ m w', Machine.run level { stepLimit := some n } p w =
        .ok (.error (.aborted (.stepLimit n)), m) w' →
      m.steps = n ∧ m.frames = [] ∧
      ∃ f left m₁ w₁, Frame.enter? p p.entry [] .entry = some f ∧ level = left + 1 + n ∧
        Machine.Passes (engine level) level { frames := [f] } w (left + 1) m₁ w₁ ∧
        m₁.steps = n ∧ m₁.Stopped w₁ w' ∧
        ∀ frames, ∃ w₂,
          ((m₁.withFrames frames).withLimit (some n)).round (engine level) left w₁ =
            .ok (.ended (.aborted (.stepLimit n)) m) w₂ ∧
          w₂.context = w₁.context := by
  constructor
  · intro hend limit hlimit
    exact run_withLimit rfl hlimit hend
  · intro m w' hrun
    cases hf : Frame.enter? p p.entry [] .entry with
    | none =>
      simp only [Machine.run, hf] at hrun
      cases hrun
    | some f =>
      obtain ⟨left, m₁, w₁, hleft, hpasses, hsteps, -, rfl, rfl⟩ :=
        execute_cut rfl (Nat.zero_le n) (execute_of_run_aborted hf hrun)
      -- the claims of the frames are those of the thunks that are being run
      obtain ⟨hs, o⟩ := entry_owned {} rfl (Frame.kind_of_enter? hf) w.heap
      obtain ⟨-, o₁⟩ := hpasses.owned (engine_settles level) hs o
      refine ⟨hsteps, rfl, f, left, m₁, w₁, rfl, hleft, hpasses, hsteps, ?_, fun frames => ?_⟩
      · refine ⟨?_, fun t ht => ?_, fun t ht => Heap.thunk_releaseChain_of_not_mem ht⟩
        · rw [← Heap.releaseChain_eq]
        · obtain ⟨d, hd, -⟩ := o₁.claimed t ht
          have hthunk := w₁.heap.thunk_of_getElem? t hd
          exact ⟨d, hthunk, Heap.thunk_releaseChain hthunk ht⟩
      · have hround := Machine.round_limit (m := (m₁.withFrames frames).withLimit (some n)) rfl
          hsteps.ge (engine level) left w₁
        exact ⟨_, hround, rfl⟩

/-- A loop in the computation of a thunk that is forced under a handler. -/
def looping : Program :=
  ⟨#[⟨"main", 0, #[.attempt 3, .delay 1 0, .force, .ret]⟩, ⟨"loop", 0, #[.jump 0]⟩], 0⟩

/-- Within its limit a program comes to what it comes to without one. The loop is stopped under its
handler, which is not entered, and the thunk that it computes waits again. -/
theorem limit_cutOff_looping :
    (∃ m w, Machine.run 9 { stepLimit := some 6 } forcing { context := { mode := .cooperative } } =
        .ok (.ok (.int 7), m) w ∧
      Machine.run 9 {} forcing { context := { mode := .cooperative } } =
        .ok (.ok (.int 7), m.withLimit none) w) ∧
    ∃ m w, Machine.run 9 { stepLimit := some 6 } looping { context := { mode := .cooperative } } =
        .ok (.error (.aborted (.stepLimit 6)), m) w ∧
      w.heap.thunk ⟨0⟩ = .waiting (.call ⟨0⟩) ∧ m.steps = 6 ∧
      ∃ f left m₁ w₁, left = 2 ∧ Machine.Passes (engine 9) 9 { frames := [f] }
        { context := { mode := .cooperative } } (left + 1) m₁ w₁ ∧ m₁.Stopped w₁ w := by
  constructor
  · obtain ⟨m, w, hrun⟩ : ∃ m w, Machine.run 9 { stepLimit := some 6 } forcing
        { context := { mode := .cooperative } } = .ok (.ok (.int 7), m) w :=
      Eval.exists_of_endsWithInt (by decide +kernel)
    refine ⟨m, w, hrun, ?_⟩
    have hsame := (limit_cutOff forcing 9 6 { context := { mode := .cooperative } }).1
      (by simp [hrun]) none (by simp)
    rw [hsame, map_ok hrun]
    rfl
  · obtain ⟨m, w, hrun, hthunk⟩ : ∃ m w, Machine.run 9 { stepLimit := some 6 } looping
        { context := { mode := .cooperative } } = .ok (.error (.aborted (.stepLimit 6)), m) w ∧
          w.heap.thunk ⟨0⟩ = .waiting (.call ⟨0⟩) := ⟨_, _, rfl, by rfl⟩
    obtain ⟨hsteps, -, f, left, m₁, w₁, -, hleft, hpasses, -, hstopped, -⟩ :=
      (limit_cutOff looping 9 6 { context := { mode := .cooperative } }).2 m w hrun
    exact ⟨m, w, hrun, hthunk, hsteps, f, left, m₁, w₁, by omega, hpasses, hstopped⟩

end LazyMachine
