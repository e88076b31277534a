import LazyMachine.Proofs.Driving
import LazyMachine.Proofs.Level
import LazyMachine.Proofs.Settling

/-!
# The cooperative machine step by step

On a store the run of a machine in cooperative mode is a sequence of configurations: a stack of
frames about to run, a thunk to be driven, a frame that is left with a value, or a failure on its
way to a handler. `Conf.Turns` says what the present round of the machine comes to from a
configuration, whatever the level, if only it is high enough; the lemmas below give this in each
case. `Conf.EndsIn` counts the rounds up to the end of the run, and `Conf.Reaches` says that a run
passes through another configuration.
-/

namespace LazyMachine

variable {p : Program}

/-! ### Stacks of frames -/

/-- Whatever waits for the result of a frame fits the store below the bounds of the frames further
down. -/
def FrameKind.Sound (s : Store p) (bounds : List ℚ) : FrameKind → Prop
  | .entry => True
  | .call rest => ∀ v ∈ rest, s.Fits bounds v
  | .thunk chain => s.Descends chain ∧ ∀ t ∈ chain, ∀ b ∈ bounds, s.rank .thunk t.index < b

/-- The bounds that the thunks under evaluation put on the values of the top frame. -/
def Store.boundsOn (s : Store p) (frames : List Frame) : List ℚ :=
  s.boundsOf (claimsOf frames)

/-- The frames fit the store. -/
def StackSound (s : Store p) : List Frame → Prop
  | [] => True
  | f :: below => f.Sound s (s.boundsOn (f :: below)) ∧ f.kind.Sound s (s.boundsOn below) ∧
      StackSound s below

section Stacks

variable {s s' : Store p} {f : Frame} {frames below : List Frame} {kind : FrameKind}

/-- The thunks that wait for the result of a frame of a kind. -/
def FrameKind.chain : FrameKind → List (Ref .thunk)
  | .thunk chain => chain
  | _ => []

/-- The chain of a frame is that of its kind. -/
theorem Frame.chain_eq (f : Frame) : f.chain = f.kind.chain := by
  unfold Frame.chain FrameKind.chain
  split <;> simp_all

/-- The bounds on a stack of frames are those of the frames. -/
theorem Store.boundsOn_cons (s : Store p) (f : Frame) (below : List Frame) :
    s.boundsOn (f :: below) = s.boundsOf f.kind.chain ++ s.boundsOn below := by
  simp [boundsOn, claimsOf, boundsOf, Frame.chain_eq]

/-- The bounds of a sound kind stay as they are. -/
theorem FrameKind.Sound.boundsOf_eq {bounds : List ℚ} (hkind : kind.Sound s bounds)
    (hs : s.Later s') : s'.boundsOf kind.chain = s.boundsOf kind.chain := by
  cases kind with
  | thunk chain => exact List.map_congr_left fun t ht => hs.rank .thunk t.index (hkind.1.1 t ht)
  | _ => rfl

/-- A sound kind stays sound. -/
theorem FrameKind.Sound.later {bounds : List ℚ} (hkind : kind.Sound s bounds) (hs : s.Later s') :
    kind.Sound s' bounds := by
  cases kind with
  | entry => trivial
  | call rest => exact fun v hv => hs.fits (hkind v hv)
  | thunk chain =>
    obtain ⟨⟨hheld, hpairwise⟩, hbounds⟩ := hkind
    have hrank (t : Ref .thunk) (ht : t ∈ chain) :
        s'.rank .thunk t.index = s.rank .thunk t.index := hs.rank .thunk t.index (hheld t ht)
    refine ⟨⟨fun t ht => Nat.lt_of_lt_of_le (hheld t ht) hs.size, ?_⟩, fun t ht b hb => ?_⟩
    · refine hpairwise.imp_of_mem fun ht hu hlt => ?_
      rwa [hrank _ ht, hrank _ hu]
    · rw [hrank t ht]
      exact hbounds t ht b hb

/-- The bounds on a sound stack stay as they are. -/
theorem StackSound.boundsOn_eq (hframes : StackSound s frames) (hs : s.Later s') :
    s'.boundsOn frames = s.boundsOn frames := by
  induction frames with
  | nil => rfl
  | cons f below ih =>
    obtain ⟨-, hkind, hbelow⟩ := hframes
    rw [s'.boundsOn_cons, s.boundsOn_cons, hkind.boundsOf_eq hs, ih hbelow]

/-- A sound stack stays sound. -/
theorem StackSound.later (hframes : StackSound s frames) (hs : s.Later s') :
    StackSound s' frames := by
  induction frames with
  | nil => trivial
  | cons f below ih =>
    have hbounds := hframes.boundsOn_eq hs
    obtain ⟨hf, hkind, hbelow⟩ := hframes
    refine ⟨?_, ?_, ih hbelow⟩
    · rw [hbounds]
      exact hf.later hs
    · rw [hbelow.boundsOn_eq hs]
      exact hkind.later hs

/-- The top frame may change on a later store. -/
theorem StackSound.replace {g : Frame} (hframes : StackSound s (f :: below)) (hs : s.Later s')
    (hg : g.Sound s' (s.boundsOn (f :: below))) (hsame : g.kind = f.kind) :
    StackSound s' (g :: below) := by
  obtain ⟨-, hkind, hbelow⟩ := hframes
  have hbounds : s'.boundsOn (g :: below) = s.boundsOn (f :: below) := by
    rw [s'.boundsOn_cons, s.boundsOn_cons, hsame, hkind.boundsOf_eq hs, hbelow.boundsOn_eq hs]
  refine ⟨by rwa [hbounds], ?_, hbelow.later hs⟩
  rw [hsame, hbelow.boundsOn_eq hs]
  exact hkind.later hs

/-- A call may be entered. -/
theorem StackSound.enter {callee : Frame} {rest : List Value} (hframes : StackSound s frames)
    (hcallee : callee.Sound s (s.boundsOn frames)) (hcall : callee.kind = .call rest)
    (hrest : ∀ v ∈ rest, s.Fits (s.boundsOn frames) v) : StackSound s (callee :: frames) := by
  have hbounds : s.boundsOn (callee :: frames) = s.boundsOn frames := by
    rw [s.boundsOn_cons, hcall]
    rfl
  refine ⟨by rwa [hbounds], ?_, hframes⟩
  rw [hcall]
  exact hrest

end Stacks

/-! ### Rounds -/

namespace Machine

/-- Below the limit a round counts itself and executes an instruction. -/
theorem round_below {m : Machine} (hm : ∀ limit ∈ m.stepLimit, m.steps < limit) (E : Engine)
    (fuel : Nat) (w : World) :
    m.round E fuel w =
      turn E fuel { m with steps := m.steps + 1 } { w with executed := w.executed + 1 } := by
  have hlimit : m.stepLimit.filter (· ≤ m.steps) = none := by
    refine Option.filter_eq_none_iff.mpr fun limit hlimit => ?_
    simpa using hm limit hlimit
  simp only [round, hlimit]
  rfl

/-- At the limit the run is given up. -/
theorem round_limit {m : Machine} {limit : Nat} (hlimit : m.stepLimit = some limit)
    (hm : limit ≤ m.steps) (E : Engine) (fuel : Nat) (w : World) :
    m.round E fuel w = .ok (.ended (.aborted (.stepLimit limit)) (m.withFrames []))
      { w with heap := w.heap.releaseChain (claimsOf m.frames) } := by
  have hfilter : m.stepLimit.filter (· ≤ m.steps) = some limit := by
    rw [hlimit, Option.filter_some]
    simp [hm]
  simp only [round, hfilter]
  rfl

/-- Goes on after a round. -/
def carryOn (E : Engine) (fuel : Nat) : Round → Eval (Exit × Machine)
  | .running m => m.execute E fuel
  | .ended e m => return (e, m)

/-- Executes the next instruction without counting it, and goes on. -/
def proceed (E : Engine) (fuel : Nat) (m : Machine) : Eval (Exit × Machine) :=
  m.turn E fuel >>= carryOn E fuel

/-- A run goes on after its first round. -/
theorem execute_succ (m : Machine) (E : Engine) (fuel : Nat) :
    m.execute E (fuel + 1) = m.round E fuel >>= carryOn E fuel := rfl

/-- Below the limit a run executes an instruction and goes on. -/
theorem execute_below {m : Machine} (hm : ∀ limit ∈ m.stepLimit, m.steps < limit) (E : Engine)
    (fuel : Nat) (w : World) :
    m.execute E (fuel + 1) w = proceed E fuel { m with steps := m.steps + 1 }
      { w with executed := w.executed + 1 } := by
  rw [execute_succ, proceed]
  simp only [Bind.bind, EStateM.bind, round_below hm]

/-- At the limit a run is given up. -/
theorem execute_limit {m : Machine} {limit : Nat} (hlimit : m.stepLimit = some limit)
    (hm : limit ≤ m.steps) (E : Engine) (fuel : Nat) (w : World) :
    m.execute E (fuel + 1) w = .ok (.aborted (.stepLimit limit), m.withFrames [])
      { w with heap := w.heap.releaseChain (claimsOf m.frames) } := by
  rw [execute_succ, bind_ok (round_limit hlimit hm E fuel w)]
  rfl

end Machine

/-! ### Configurations -/

/-- How a run on a store ends. -/
inductive Ending where
  /-- With a value. -/
  | done (v : Value)
  /-- With a failure. -/
  | failed (e : RuntimeError)
  /-- It is given up. -/
  | aborted (a : Abort)

/-- What a round of the machine comes to on a store. -/
inductive Turned where
  /-- The run goes on with these frames. -/
  | running (frames : List Frame)
  /-- The run has ended and left these frames. -/
  | ended (x : Ending) (frames : List Frame)
  /-- The machine has crashed. -/
  | crashed

open Machine (Round)

/-- The same as the outcome of a round on a world whose heap is up to date. -/
def Turned.result (m : Machine) (w : World) : Turned → EStateM.Result Interrupt World Round
  | .running frames => .ok (.running (m.withFrames frames)) w
  | .ended (.done v) frames => .ok (.ended (.done v) (m.withFrames frames)) w
  | .ended (.failed e) frames =>
    .ok (.ended .failed (m.withFrames frames)) { w with context := w.context.fail e }
  | .ended (.aborted a) frames => .ok (.ended (.aborted a) (m.withFrames frames)) w
  | .crashed => .error .crashed w

/-- What an outcome shows of what the round has come to, with the heap. -/
def Turned.shown : EStateM.Result Interrupt World Round → Option (Turned × Heap)
  | .ok (.running m) w => some (.running m.frames, w.heap)
  | .ok (.ended (.done v) m) w => some (.ended (.done v) m.frames, w.heap)
  | .ok (.ended .failed m) w =>
    w.context.error.map fun e => (.ended (.failed e) m.frames, w.heap)
  | .ok (.ended (.aborted a) m) w => some (.ended (.aborted a) m.frames, w.heap)
  | .error _ w => some (.crashed, w.heap)

/-- What a turn has come to can be read off its result. -/
theorem Turned.shown_result {w : World} (hw : w.context.error = none) (o : Turned) (m : Machine) :
    shown (o.result m w) = some (o, w.heap) := by
  match o with
  | .ended (.failed e) frames =>
    simp only [result, shown, Context.fail, hw, Option.none_or, Option.map_some,
      Machine.withFrames]
  | .running _ | .ended (.done _) _ | .ended (.aborted _) _ | .crashed => rfl

/-- A point in the round of a machine. -/
inductive Conf where
  /-- The top frame is about to execute an instruction. -/
  | run (frames : List Frame)
  /-- A chain of thunks waits on one more. -/
  | drive (chain : List (Ref .thunk)) (t : Ref .thunk) (frames : List Frame)
  /-- A frame has been left with a value. -/
  | leave (kind : FrameKind) (below : List Frame) (v : Value)
  /-- A failure goes to the nearest handler. -/
  | fail (e : RuntimeError) (frames : List Frame)
  /-- A frame without a handler is dropped because of a failure. -/
  | drop (e : RuntimeError) (kind : FrameKind) (below : List Frame)

namespace Conf

/-- The round from a configuration on. -/
def turn (level fuel : Nat) (m : Machine) : Conf → Eval Round
  | .run frames => (m.withFrames frames).turn (engine level) fuel
  | .drive chain t frames => do
    match ← (Step.ofEval (LazyMachine.drive (engine level) fuel chain t)).outcome with
    | .ok none => return .running (m.withFrames frames)
    | .ok (some f) => return .running (m.withFrames (f :: frames))
    | .error stop => (m.withFrames frames).halt (engine level) fuel stop
  | .leave kind below v => m.leave (engine level) fuel kind below v
  | .fail e frames => do
    Eval.onContext (·.fail e)
    (m.withFrames frames).recover (.interrupt .failed)
  | .drop e kind below => do
    Eval.onContext (·.fail e)
    match kind with
    | .entry => return .ended .failed (m.withFrames below)
    | _ =>
      releaseChain kind.chain
      (m.withFrames below).recover (.interrupt .failed)

/-- In cooperative mode the round from the configuration on the heap `h` comes to `o` and the heap
`h'`. -/
def Turns (format : Format) (c : Conf) (h : Heap) (o : Turned) (h' : Heap) : Prop :=
  ∃ N, ∀ level fuel, N ≤ level → N ≤ fuel → ∀ (m : Machine) (w : World), w.At h format False →
    c.turn level fuel m w = o.result m { w with heap := h' }

/-- In cooperative mode the round from the configuration on the heap `h` is that from `c'` on the
heap `h'`. -/
def Becomes (format : Format) (c : Conf) (h : Heap) (c' : Conf) (h' : Heap) : Prop :=
  ∃ N d, ∀ level fuel, N ≤ level → N ≤ fuel → ∀ (m : Machine) (w : World), w.At h format False →
    c.turn level (fuel + d) m w = c'.turn level fuel m { w with heap := h' }

variable {format : Format} {c c' c'' : Conf} {h h' h'' : Heap} {o o' : Turned}

/-- There is a world on every heap. -/
theorem exists_at (h : Heap) (format : Format) : ∃ w : World, w.At h format False :=
  ⟨{ heap := h, context := { mode := .cooperative, format } }, rfl, rfl, .inl rfl⟩

/-- A round comes to one thing only. -/
theorem Turns.unique (ho : c.Turns format h o h') (ho' : c.Turns format h o' h'') :
    o = o' ∧ h' = h'' := by
  obtain ⟨N, hN⟩ := ho
  obtain ⟨N', hN'⟩ := ho'
  obtain ⟨w, hw⟩ := exists_at h format
  have heq : o.result {} { w with heap := h' } = o'.result {} { w with heap := h'' } := by
    rw [← hN (max N N') (max N N') (le_max_left _ _) (le_max_left _ _) {} w hw,
      ← hN' (max N N') (max N N') (le_max_right _ _) (le_max_right _ _) {} w hw]
  have hshown (h : Heap) (o : Turned) :
      Turned.shown (o.result {} { w with heap := h }) = some (o, h) :=
    Turned.shown_result (by rw [hw.context]) o {}
  have hsame := hshown h' o
  rw [heq, hshown h'' o'] at hsame
  cases hsame
  exact ⟨rfl, rfl⟩

theorem Becomes.refl (c : Conf) (h : Heap) : c.Becomes format h c h :=
  ⟨0, 0, fun _ _ _ _ m w hw => by rw [← hw.heap]; rfl⟩

/-- What it becomes may become something else. -/
theorem Becomes.trans (hc : c.Becomes format h c' h') (hc' : c'.Becomes format h' c'' h'') :
    c.Becomes format h c'' h'' := by
  obtain ⟨N, d, hN⟩ := hc
  obtain ⟨N', d', hN'⟩ := hc'
  refine ⟨max N N', d' + d, fun level fuel hlevel hfuel m w hw => ?_⟩
  rw [← Nat.add_assoc, hN level (fuel + d') (by omega) (by omega) m w hw,
    hN' level fuel (by omega) (by omega) m _ (hw.onHeap h')]

/-- Configurations with the same round come to the same. -/
theorem Becomes.turns_iff (hc : c.Becomes format h c' h') :
    c.Turns format h o h'' ↔ c'.Turns format h' o h'' := by
  obtain ⟨N, d, hN⟩ := hc
  constructor
  · rintro ⟨N', hN'⟩
    refine ⟨max N N', fun level fuel hlevel hfuel m w' hw' => ?_⟩
    have hw : World.At { w' with heap := h } h format False := hw'.onHeap h
    have heq := hN level fuel (by omega) (by omega) m _ hw
    rw [hN' level (fuel + d) (by omega) (by omega) m _ hw] at heq
    rw [← hw'.heap] at heq
    exact heq.symm
  · rintro ⟨N', hN'⟩
    refine ⟨max N N' + d, fun level fuel hlevel hfuel m w hw => ?_⟩
    obtain ⟨rest, rfl⟩ : ∃ rest, fuel = rest + d := ⟨fuel - d, by omega⟩
    rw [hN level rest (by omega) (by omega) m w hw,
      hN' level rest (by omega) (by omega) m _ (hw.onHeap h')]

/-! ### Runs -/

/-- The run from the configuration on the heap `h` ends after `n` more rounds, with `o` and the heap
`h'`. -/
def EndsIn (format : Format) : Nat → Conf → Heap → Turned → Heap → Prop
  | 0, c, h, o, h' => c.Turns format h o h' ∧ ∀ frames, o ≠ .running frames
  | n + 1, c, h, o, h' => ∃ frames h₁, c.Turns format h (.running frames) h₁ ∧
      EndsIn format n (.run frames) h₁ o h'

/-- The run from the configuration on the heap `h` comes to the configuration `c'` on the heap `h'`
after `k` rounds. -/
def Reaches (format : Format) (k : Nat) (c : Conf) (h : Heap) (c' : Conf) (h' : Heap) : Prop :=
  ∀ n o h'', c.EndsIn format n h o h'' ↔ ∃ n', n = n' + k ∧ c'.EndsIn format n' h' o h''

/-- A machine ends in one way, after one number of rounds. -/
theorem EndsIn.unique {n n' : Nat} (ho : c.EndsIn format n h o h')
    (ho' : c.EndsIn format n' h o' h'') : n = n' ∧ o = o' ∧ h' = h'' := by
  induction n generalizing c h n' with
  | zero =>
    cases n' with
    | zero =>
      obtain ⟨rfl, rfl⟩ := ho.1.unique ho'.1
      exact ⟨rfl, rfl, rfl⟩
    | succ n' =>
      obtain ⟨frames, h₁, hturns, -⟩ := ho'
      exact absurd (ho.1.unique hturns).1 (ho.2 frames)
  | succ n ih =>
    obtain ⟨frames, h₁, hturns, hrest⟩ := ho
    cases n' with
    | zero => exact absurd (ho'.1.unique hturns).1 (ho'.2 frames)
    | succ n' =>
      obtain ⟨frames', h₁', hturns', hrest'⟩ := ho'
      obtain ⟨hframes, rfl⟩ := hturns.unique hturns'
      cases hframes
      obtain ⟨rfl, rfl, rfl⟩ := ih hrest hrest'
      exact ⟨rfl, rfl, rfl⟩

/-- To become another machine takes no round. -/
theorem Becomes.reaches (hc : c.Becomes format h c' h') : Reaches format 0 c h c' h' := by
  intro n o h''
  have hiff : c.EndsIn format n h o h'' ↔ c'.EndsIn format n h' o h'' := by
    cases n with
    | zero => exact and_congr_left' hc.turns_iff
    | succ n => exact exists_congr fun _ => exists_congr fun _ => and_congr_left' hc.turns_iff
  rw [hiff]
  exact ⟨fun h => ⟨n, rfl, h⟩, fun ⟨_, hn, h⟩ => by rwa [hn]⟩

/-- A turn is one round. -/
theorem Turns.reaches {frames : List Frame} (hc : c.Turns format h (.running frames) h') :
    Reaches format 1 c h (.run frames) h' := by
  intro n o h''
  constructor
  · intro ho
    cases n with
    | zero => exact absurd (ho.1.unique hc).1 (ho.2 frames)
    | succ n =>
      obtain ⟨frames', h₁, hturns, hrest⟩ := ho
      obtain ⟨hframes, rfl⟩ := hturns.unique hc
      cases hframes
      exact ⟨n, rfl, hrest⟩
  · rintro ⟨n, rfl, hrest⟩
    exact ⟨frames, h', hc, hrest⟩

/-- Rounds add up. -/
theorem Reaches.trans {k k' : Nat} (hc : Reaches format k c h c' h')
    (hc' : Reaches format k' c' h' c'' h'') : Reaches format (k' + k) c h c'' h'' := by
  intro n o h₁
  rw [hc n o h₁]
  constructor
  · rintro ⟨n', rfl, ho⟩
    obtain ⟨n'', rfl, ho'⟩ := (hc' n' o h₁).mp ho
    exact ⟨n'', Nat.add_assoc _ _ _, ho'⟩
  · rintro ⟨n'', rfl, ho⟩
    exact ⟨n'' + k', (Nat.add_assoc _ _ _).symm, (hc' _ o h₁).mpr ⟨n'', rfl, ho⟩⟩

/-- The run from the configuration is given up. -/
def Aborts (format : Format) (c : Conf) (h : Heap) : Prop :=
  ∃ n a frames h', c.EndsIn format n h (.ended (.aborted a) frames) h'

/-- The run from the configuration comes to `c'` after at least `least` rounds, unless it is given
up before. -/
def Passes (format : Format) (least : Nat) (c : Conf) (h : Heap) (c' : Conf) (h' : Heap) : Prop :=
  (∃ k, Reaches format (k + least) c h c' h') ∨ c.Aborts format h

/-- A machine that reaches one which aborts does so itself. -/
theorem Reaches.aborts {k : Nat} (hc : Reaches format k c h c' h') (hc' : c'.Aborts format h') :
    c.Aborts format h := by
  obtain ⟨n, a, frames, h'', hend⟩ := hc'
  exact ⟨n + k, a, frames, h'', (hc _ _ _).mpr ⟨n, rfl, hend⟩⟩

/-- A number of rounds is at least that number. -/
theorem Reaches.passes {k : Nat} (hc : Reaches format k c h c' h') : Passes format k c h c' h' :=
  .inl ⟨0, by rwa [Nat.zero_add]⟩

theorem Passes.mono {least least' : Nat} (hc : Passes format least c h c' h')
    (hle : least' ≤ least) : Passes format least' c h c' h' := by
  refine hc.imp_left fun ⟨k, hk⟩ => ⟨k + (least - least'), ?_⟩
  rwa [Nat.add_assoc, Nat.sub_add_cancel hle]

/-- Lower bounds of rounds add up. -/
theorem Passes.trans {least least' : Nat} (hc : Passes format least c h c' h')
    (hc' : Passes format least' c' h' c'' h'') : Passes format (least' + least) c h c'' h'' := by
  rcases hc with ⟨k, hc⟩ | hc
  · rcases hc' with ⟨k', hc'⟩ | hc'
    · refine .inl ⟨k' + k, ?_⟩
      have hsum : k' + k + (least' + least) = k' + least' + (k + least) := by omega
      rw [hsum]
      exact hc.trans hc'
    · exact .inr (hc.aborts hc')
  · exact .inr hc

/-- A machine that passes to one which aborts does so itself. -/
theorem Passes.aborts {least : Nat} (hc : Passes format least c h c' h')
    (hc' : c'.Aborts format h') : c.Aborts format h := by
  rcases hc with ⟨k, hc⟩ | hc
  · exact hc.aborts hc'
  · exact hc

end Conf

end LazyMachine
