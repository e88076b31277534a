import LazyMachine.Proofs.Suspension

/-!
# Frames of a valid program

Validity is a property of the code alone: the chunks that instructions name are there and no jump
leads out of its chunk. It is enough for every run in cooperative mode: in every state that a run
visits, each frame is at an instruction of an existing chunk or just behind the last one, and so are
its handlers; only the lowest frame is the entry; and only the top frame is executed
(`valid_runs_placed`). What a run can be given up for is then the limit, an operand or a local that
is not there.

`Frame.Within` is what a round keeps of each frame. Where an instruction goes on is read off
`Flow.Follows`; frames that come on top are at the start of a chunk, and a failure goes on at a
handler that the frame had.
-/

namespace LazyMachine

variable {p : Program} {format : Format} {level : Nat}

open Machine (Round)
open Snapshot (Handled)

/-! ### Valid code -/

namespace Program.Valid

variable {chunk pc target captures : Nat} {c : Chunk}

/-- No instruction of a valid program has a defect. -/
theorem instrDefect? {instr : Instr} (hp : p.Valid) (hc : p.chunk? chunk = some c)
    (hinstr : c.code[pc]? = some instr) : p.instrDefect? c pc instr = none := by
  unfold Program.Valid defect? at hp
  split at hp
  · cases hp
  · split at hp
    · cases hp
    · have hchunk : p.chunkDefect? c = none :=
        List.findSome?_eq_none_iff.mp hp c (Array.mem_toList_iff.mpr (Array.mem_of_getElem? hc))
      refine List.findSome?_eq_none_iff.mp hchunk (instr, pc) ?_
      rwa [List.mem_zipIdx_iff_getElem?, Array.getElem?_toList]

/-- A valid program has a frame to start with. -/
theorem exists_entry (hp : p.Valid) : ∃ f, Frame.enter? p p.entry [] .entry = some f := by
  unfold Program.Valid defect? at hp
  split at hp
  · cases hp
  · next c hc =>
    refine ⟨{ program := p, chunk := p.entry, locals := #[], kind := .entry }, ?_⟩
    simp only [Frame.enter?, hc]

/-- A jump or a handler leads into the code of its chunk or just behind it. -/
theorem target_le (hp : p.Valid) (hc : p.chunk? chunk = some c)
    (hinstr : c.code[pc]? = some (.jump target) ∨ c.code[pc]? = some (.jumpIfFalse target) ∨
      c.code[pc]? = some (.attempt target)) : target ≤ c.code.size := by
  have htarget :
      (if c.code.size < target then some (Defect.jumpTarget c.name pc target) else none) =
        none := by
    rcases hinstr with h | h | h
    · exact hp.instrDefect? hc h
    · exact hp.instrDefect? hc h
    · exact hp.instrDefect? hc h
  by_contra hlt
  rw [if_pos (Nat.lt_of_not_le hlt)] at htarget
  cases htarget

/-- The chunk of a function that the code makes is there. -/
theorem chunk?_ne_none (hp : p.Valid) {index : Nat} (hc : p.chunk? chunk = some c)
    (hinstr : c.code[pc]? = some (.delay index captures) ∨
      c.code[pc]? = some (.closure index captures)) : p.chunk? index ≠ none := by
  have hindex :
      (if p.chunks.size ≤ index then some (Defect.missingChunk c.name pc index) else none) =
        none := by
    rcases hinstr with h | h
    · exact hp.instrDefect? hc h
    · exact hp.instrDefect? hc h
  intro hnone
  rw [if_pos (Array.getElem?_eq_none_iff.mp hnone)] at hindex
  cases hindex

end Program.Valid

/-! ### Places of frames -/

namespace Frame

variable {f g : Frame} {instr : Instr}

/-- The frame and its handlers are at instructions of its chunk, or just behind the last one. -/
def Within (f : Frame) : Prop :=
  ∃ c, f.program.chunk? f.chunk = some c ∧ f.pc ≤ c.code.size ∧
    ∀ h ∈ f.handlers, h.target ≤ c.code.size

/-- A frame at the start of its chunk. -/
theorem Started.within (hf : f.Started) : f.Within := by
  obtain ⟨locals, hf⟩ := hf
  unfold Frame.enter? at hf
  split at hf
  · next c hc =>
    have hpc : 0 = f.pc := congrArg Frame.pc (Option.some.inj hf)
    have hhandlers : [] = f.handlers := congrArg Frame.handlers (Option.some.inj hf)
    refine ⟨c, hc, ?_, ?_⟩
    · exact hpc ▸ Nat.zero_le _
    · exact hhandlers ▸ nofun
  · cases hf

/-- The chunk of an instruction that is executed. -/
theorem exists_chunk_of_instr? (hinstr : f.instr? = some instr) :
    ∃ c, f.program.chunk? f.chunk = some c ∧ c.code[f.pc]? = some instr := by
  obtain ⟨c, hc, hcode⟩ := Option.bind_eq_some_iff.mp hinstr
  exact ⟨c, hc, hcode⟩

/-- Where a frame is depends on its task, its instruction and its handlers only. -/
theorem within_of_control {pc : Nat} {handlers : List Handler} {c : Chunk}
    (hg : g.control = (f.task, pc, handlers)) (hc : f.program.chunk? f.chunk = some c)
    (hpc : pc ≤ c.code.size) (hhandlers : ∀ h ∈ handlers, h.target ≤ c.code.size) : g.Within := by
  have hprogram : g.program = f.program := congrArg (·.1.1) hg
  have hchunk : g.chunk = f.chunk := congrArg (·.1.2.1) hg
  have hpc' : g.pc = pc := congrArg (·.2.1) hg
  have hhandlers' : g.handlers = handlers := congrArg (·.2.2) hg
  refine ⟨c, ?_, ?_, ?_⟩
  · rw [hprogram, hchunk, hc]
  · rwa [hpc']
  · rwa [hhandlers']

theorem Within.of_control (hf : f.Within) (hg : g.control = f.control) : g.Within := by
  obtain ⟨c, hc, hpc, hhandlers⟩ := hf
  exact within_of_control hg hc hpc hhandlers

/-- The handlers that an instruction leaves lead into the code. -/
theorem Within.handlersAfter {c : Chunk} (hp : f.program.Valid)
    (hc : f.program.chunk? f.chunk = some c) (hcode : c.code[f.pc]? = some instr)
    (hhandlers : ∀ h ∈ f.handlers, h.target ≤ c.code.size) :
    ∀ h ∈ f.handlersAfter instr, h.target ≤ c.code.size := by
  intro h hh
  unfold Frame.handlersAfter at hh
  split at hh
  · next target =>
    rcases List.mem_cons.mp hh with rfl | hh
    · exact hp.target_le hc (.inr (.inr hcode))
    · exact hhandlers h hh
  · exact hhandlers h (List.mem_of_mem_tail hh)
  · exact hhandlers h hh

/-- Where the frames are after an instruction that goes through. -/
theorem Within.flow {flow : Flow} (hp : f.program.Valid) (hf : f.Within)
    (hflow : flow.Follows f) (hleave : ∀ v, flow ≠ .leave v) : ∀ g ∈ flow.frames, g.Within := by
  obtain ⟨c, hc, hpc, hhandlers⟩ := id hf
  -- an instruction is not behind the code, so there is room for the next one
  have hnext {instr : Instr} (hinstr : f.instr? = some instr) :
      c.code[f.pc]? = some instr ∧ f.pc + 1 ≤ c.code.size := by
    obtain ⟨c', hc', hcode⟩ := exists_chunk_of_instr? hinstr
    cases hc.symm.trans hc'
    exact ⟨hcode, (Array.getElem?_eq_some_iff.mp hcode).1⟩
  cases hflow with
  | @next instr g hinstr hg =>
    obtain ⟨hcode, hroom⟩ := hnext hinstr.2
    refine List.forall_mem_singleton.mpr ?_
    have hcontrol := congrArg (fun c => (c.1, c.2.1 + 1, c.2.2)) hg
    exact within_of_control hcontrol hc hroom (Within.handlersAfter hp hc hcode hhandlers)
  | @jump target g hinstr hg =>
    have hcode : c.code[f.pc]? = some (.jump target) ∨ c.code[f.pc]? = some (.jumpIfFalse target) :=
      hinstr.imp (fun h => (hnext h.2).1) fun h => (hnext h.2).1
    have htarget : target ≤ c.code.size :=
      hp.target_le hc (hcode.imp_right .inl)
    refine List.forall_mem_singleton.mpr ?_
    have hcontrol := congrArg (fun c => (c.1, target, c.2.2)) hg
    exact within_of_control hcontrol hc htarget hhandlers
  | call hinstr hcaller hcallee =>
    obtain ⟨-, hroom⟩ := hnext hinstr.2
    refine List.forall_mem_cons.mpr ⟨hcallee.1.within, List.forall_mem_singleton.mpr ?_⟩
    exact within_of_control hcaller hc hroom hhandlers
  | stay hpending hg => exact List.forall_mem_singleton.mpr (hf.of_control hg)
  | pending hpending hcaller hcallee =>
    exact List.forall_mem_cons.mpr
      ⟨hcallee.1.within, List.forall_mem_singleton.mpr (hf.of_control hcaller)⟩
  | leave v => exact absurd rfl (hleave v)

/-- A handler leads to where it was meant to. -/
theorem Within.handle {handler : Handler} {handlers : List Handler} {v : Value} (hf : f.Within)
    (hhandlers : f.handlers = handler :: handlers) : (f.handle handler handlers v).Within := by
  obtain ⟨c, hc, -, hwithin⟩ := hf
  rw [hhandlers] at hwithin
  exact ⟨c, hc, hwithin handler List.mem_cons_self,
    fun h hh => hwithin h (List.mem_cons_of_mem handler hh)⟩

end Frame

/-- The aborts of valid programs: the limit is reached, or operands or a local are not there. -/
def Abort.Ordinary (x : Abort) : Prop :=
  (∃ limit, x = .stepLimit limit) ∨ (∃ chunk pc need held, x = .underflow chunk pc need held) ∨
    ∃ slot, x = .undefinedSlot slot

theorem Frame.Aborts.ordinary {f : Frame} {x : Abort} (hp : f.program.Valid) (hx : f.Aborts x) :
    x.Ordinary := by
  cases hx with
  | underflow chunk pc need held => exact .inr (.inl ⟨chunk, pc, need, held, rfl⟩)
  | undefinedSlot slot => exact .inr (.inr ⟨slot, rfl⟩)
  | missingChunk hinstr hchunk =>
    -- the chunk that the instruction names is there
    rcases hinstr with hinstr | hinstr
    · obtain ⟨c, hc, hcode⟩ := exists_chunk_of_instr? hinstr
      exact absurd hchunk (hp.chunk?_ne_none hc (.inl hcode))
    · obtain ⟨c, hc, hcode⟩ := exists_chunk_of_instr? hinstr
      exact absurd hchunk (hp.chunk?_ne_none hc (.inr hcode))

/-! ### Rounds -/

namespace Snapshot

variable {a b : Snapshot}

theorem Handled.within {frames frames' : List Frame} (hhandled : Handled frames frames')
    (hwithin : ∀ f ∈ frames, f.Within) : ∀ f ∈ frames', f.Within := by
  induction hhandled with
  | here hf =>
    obtain ⟨hfirst, hbelow⟩ := List.forall_mem_cons.mp hwithin
    exact List.forall_mem_cons.mpr ⟨hfirst.handle hf, hbelow⟩
  | drop hbelow ih => exact ih (List.forall_mem_cons.mp hwithin).2

/-- A round keeps each frame within its chunk. -/
theorem Sound.within (hp : p.Valid) (ha : a.Sound p format) (hgoes : a.Goes (engine level) b)
    (hwithin : ∀ f ∈ a.frames, f.Within) : ∀ f ∈ b.frames, f.Within := by
  -- a frame of the next state is one that was there, or comes from one, or was entered at its start
  cases ha.passage hgoes with
  | @flows f below flow hframes hadvance hleave hb =>
    obtain ⟨s, hw, hstack⟩ := ha.fits
    rw [hframes] at hstack hwithin
    have hprogram : f.program = p := hstack.1.program
    have hflow : flow.Follows f :=
      ((advance_follows (engine_settles level) a.fuel f _).of_ok hadvance).2 flow rfl
    have hfirst : ∀ g ∈ flow.frames, g.Within :=
      (hwithin f List.mem_cons_self).flow (hprogram ▸ hp) hflow hleave
    rw [hb]
    exact List.forall_mem_append.mpr ⟨hfirst, (List.forall_mem_cons.mp hwithin).2⟩
  | @returns f caller below rest v hframes hkind hadvance hb =>
    rw [hframes, List.forall_mem_cons, List.forall_mem_cons] at hwithin
    rw [hb]
    refine List.forall_mem_cons.mpr ⟨?_, hwithin.2.2⟩
    exact hwithin.2.1.of_control (caller.control_pushResult _ _ _)
  | @drives chain waiting x hdrives hb =>
    have hwaiting : ∀ f ∈ waiting, f.Within := by
      rcases hdrives.frames_eq with ⟨-, hframes⟩ | ⟨f, -, hframes⟩
      · rwa [hframes] at hwithin
      · rw [hframes] at hwithin
        exact (List.forall_mem_cons.mp hwithin).2
    rw [hb]
    cases x with
    | none => exact hwaiting
    | some g =>
      obtain ⟨u, h, -, -, -, hstarted, -⟩ := (ha.drives hdrives).of_ok rfl
      exact List.forall_mem_cons.mpr ⟨hstarted.within, hwaiting⟩
  | fails hfails hb => exact hb.within hwithin

/-! ### Aborts -/

/-- A run is given up because the limit is reached or the top frame gives up. -/
theorem Sound.aborts_cases {x : Abort} (ha : a.Sound p format) (hx : a.Aborts (engine level) x) :
    (∃ limit, x = .stepLimit limit ∧ a.machine.stepLimit = some limit ∧ limit ≤ a.machine.steps) ∨
      ∃ f below, a.Allowed ∧ a.frames = f :: below ∧ f.program = p ∧ f.Aborts x ∧
        f.advance (engine level) a.fuel a.world.counted = .error (.abort x) a.world.counted := by
  have hstacked := ha.stacked
  cases hx with
  | limit hlimit hle => exact .inl ⟨_, rfl, hlimit, hle⟩
  | instruction hallowed hframes hadvance =>
    obtain ⟨s, hw, hstack⟩ := ha.fits
    rw [hframes] at hstack
    obtain ⟨haborts, rfl⟩ := (advance_spec hstack hw.counted).of_error hadvance
    exact .inr ⟨_, _, hallowed, hframes, hstack.1.program, haborts, hadvance⟩
  | driving hallowed hdrives =>
    -- driving stops by an interrupt
    obtain ⟨i, hi, -⟩ := (ha.drives hdrives).of_error rfl
    cases hi
  | noFrame hallowed hframes =>
    rw [hframes] at hstacked
    exact hstacked.elim
  | noCaller hallowed hframes hkind =>
    rw [hframes, Stacked, hkind] at hstacked
    exact hstacked.elim

/-- What a valid program may be given up for. -/
theorem Sound.ordinary {x : Abort} (hp : p.Valid) (ha : a.Sound p format)
    (hx : a.Aborts (engine level) x) : x.Ordinary := by
  rcases ha.aborts_cases hx with ⟨limit, rfl, -⟩ | ⟨f, below, -, -, hprogram, haborts, -⟩
  · exact .inl ⟨limit, rfl⟩
  · exact haborts.ordinary (hprogram ▸ hp)

/-! ### Runs -/

variable {m : Machine} {w : World}

/-- Each frame of a visited state is within its chunk. -/
theorem Visited.within (hp : p.Valid) (hm : m.frames = []) (hheap : w.heap = {})
    (hcontext : w.context = { mode := .cooperative, format }) (hvisited : a.Visited level m p w) :
    ∀ f ∈ a.frames, f.Within := by
  -- a round keeps frames within their chunks in sound states only, so both go through together
  have hboth : a.Sound p format ∧ ∀ f ∈ a.frames, f.Within := by
    refine hvisited.induction (P := fun a => a.Sound p format ∧ ∀ f ∈ a.frames, f.Within)
      (fun _ _ _ _ h => ⟨h.1.refuel, h.2⟩) (fun f hf => ?_)
      fun _ _ h hgoes => ⟨h.1.step hgoes, h.1.within hp hgoes h.2⟩
    refine ⟨.start hm hheap hcontext hf, ?_⟩
    have hframes : (m.withFrames (f :: m.frames)).frames = [f] := congrArg (f :: ·) hm
    rw [frames, hframes]
    exact List.forall_mem_singleton.mpr (Frame.started_of_enter? hf).within
  exact hboth.2

/-- A run that is given up is so in a visited state. -/
theorem exists_aborts {f : Frame} (hm : m.frames = []) (hheap : w.heap = {})
    (hcontext : w.context = { mode := .cooperative, format })
    (hf : Frame.enter? p p.entry [] .entry = some f) :
    Leads (m.run level p) w fun r _ => ∀ answer m', r = .ok (answer, m') →
      (∀ entry, answer ≠ .error (.missingEntry entry)) ∧ ∀ x, answer = .error (.aborted x) →
        ∃ a : Snapshot, a.Visited level m p w ∧ a.Aborts (engine level) x := by
  rw [leads_run_iff hf]
  refine .intro (fun (e, m₁) w₁ hexecute => ?_) fun _ _ _ => nofun
  rintro answer m' ⟨⟩
  cases e with
  | done v => exact ⟨nofun, nofun⟩
  | failed =>
    -- the host is told of a failure, whether one is recorded or not
    simp only [Machine.Exit.answer, Context.hostError]
    split <;> exact ⟨nofun, nofun⟩
  | aborted y =>
    refine ⟨nofun, ?_⟩
    rintro x ⟨⟩
    obtain ⟨left, m₂, w₂, hpasses, hlast⟩ := Machine.Passes.exists_last hexecute
    have hvisited : Visited level m p w ⟨left, m₂, w₂⟩ := ⟨f, hf, hpasses⟩
    have hsound : Sound p format ⟨left, m₂, w₂⟩ := .visited hm hheap hcontext hvisited
    have hclassified := (round_classified fun _ _ _ => hsound.not_suspended).of_ok hlast
    exact ⟨_, hvisited, hclassified.2 _ _ rfl⟩

/-- What a round leaves of the frames below the top one: all of it, but that the caller takes the
result of a call, or that a handler takes a failure. -/
inductive Spares (E : Engine) (f : Frame) (below : List Frame) (a b : Snapshot) : Prop
  | kept {above : List Frame} (hb : b.frames = above ++ below)
  | returned {caller : Frame} {others : List Frame} {v : Value} {rest : List Value}
      (hkind : f.kind = .call rest) (hbelow : below = caller :: others)
      (hb : b.frames = caller.pushResult caller.stack v rest :: others)
  | failed (hfails : a.Fails E) (hb : Handled (f :: below) b.frames)

/-- There is a frame as long as the run goes on. -/
theorem Sound.exists_top (ha : a.Sound p format) : ∃ f below, a.frames = f :: below := by
  have hstacked := ha.stacked
  cases hframes : a.frames with
  | nil =>
    rw [hframes] at hstacked
    exact hstacked.elim
  | cons f below => exact ⟨f, below, rfl⟩

/-- Only the top frame is executed. -/
theorem Sound.spares (ha : a.Sound p format) (hgoes : a.Goes (engine level) b) :
    ∃ f below, a.frames = f :: below ∧ Spares (engine level) f below a b := by
  cases ha.passage hgoes with
  | @flows f below flow hframes hadvance hleave hb => exact ⟨f, below, hframes, .kept hb⟩
  | @returns f caller below rest v hframes hkind hadvance hb =>
    exact ⟨f, caller :: below, hframes, .returned hkind rfl hb⟩
  | @drives chain waiting x hdrives hb =>
    -- the frame that waits is still there, the one whose result is driven has been left
    rcases hdrives.frames_eq with ⟨-, rfl⟩ | ⟨f, -, hframes⟩
    · obtain ⟨f, below, hframes⟩ := ha.exists_top
      have hkept : b.frames = (x.toList ++ [f]) ++ below := by
        rw [hb, hframes, List.append_assoc]
        rfl
      exact ⟨f, below, hframes, .kept hkept⟩
    · exact ⟨f, waiting, hframes, .kept hb⟩
  | fails hfails hb =>
    obtain ⟨f, below, hframes⟩ := ha.exists_top
    exact ⟨f, below, hframes, .failed hfails (hframes ▸ hb)⟩

end Snapshot

/-- The lowest of the frames is the entry, and no other one is. -/
theorem Stacked.exists_entry {frames : List Frame} (hs : Stacked frames) :
    ∃ above entry, frames = above ++ [entry] ∧ entry.kind = .entry ∧
      ∀ f ∈ above, f.kind ≠ .entry := by
  induction frames with
  | nil => exact hs.elim
  | cons f below ih =>
    unfold Stacked at hs
    split at hs
    · next hkind => exact ⟨[], f, by rw [hs]; rfl, hkind, nofun⟩
    · next hkind =>
      obtain ⟨above, entry, rfl, hentry, habove⟩ := ih hs
      exact ⟨f :: above, entry, rfl, hentry, List.forall_mem_cons.mpr ⟨hkind, habove⟩⟩

/-- The frame runs an existing chunk of the program, and it and its handlers are at instructions of
that chunk or just behind the last one. -/
structure Frame.Placed (p : Program) (f : Frame) : Prop where
  program : f.program = p
  chunk : f.chunk < p.chunks.size
  pc : f.pc ≤ p.chunks[f.chunk].code.size
  handlers : ∀ h ∈ f.handlers, h.target ≤ p.chunks[f.chunk].code.size

theorem Frame.Within.placed {f : Frame} (hf : f.Within) (hprogram : f.program = p) :
    f.Placed p := by
  obtain ⟨c, hc, hpc, hhandlers⟩ := hf
  rw [hprogram] at hc
  obtain ⟨hchunk, rfl⟩ := Array.getElem?_eq_some_iff.mp hc
  exact ⟨hprogram, hchunk, hpc, hhandlers⟩

theorem StackSound.program {s : Store p} {frames : List Frame} (hframes : StackSound s frames) :
    ∀ f ∈ frames, f.program = p := by
  induction frames with
  | nil => exact nofun
  | cons f below ih => exact List.forall_mem_cons.mpr ⟨hframes.1.program, ih hframes.2.2⟩

/-- Validation is all that the frames need. Let a valid program run in cooperative mode, on a fresh
heap. In every state that the run visits each frame is at an instruction of an existing chunk or
just behind its last one, and so are its handlers; the lowest frame, and no other, is the entry; and
a round executes the top frame only. The run is given up for nothing but the limit, an operand or a
local that is not there. -/
theorem valid_runs_placed (p : Program) (hp : p.Valid) (level : Nat) (m : Machine)
    (hm : m.frames = []) (w : World) (hheap : w.heap = {}) (format : Format)
    (hcontext : w.context = { mode := .cooperative, format }) :
    (∀ a : Snapshot, a.Visited level m p w →
      (∀ f ∈ a.frames, f.Placed p) ∧
      (∃ above entry, a.frames = above ++ [entry] ∧ entry.kind = .entry ∧
        ∀ f ∈ above, f.kind ≠ .entry) ∧
      ∀ b, a.Goes (engine level) b →
        ∃ f below, a.frames = f :: below ∧ Snapshot.Spares (engine level) f below a b) ∧
    ∀ answer m' w', m.run level p w = .ok (answer, m') w' →
      (∀ entry, answer ≠ .error (.missingEntry entry)) ∧
      ∀ x, answer = .error (.aborted x) → x.Ordinary := by
  refine ⟨fun a ha => ?_, fun answer m' w' hrun => ?_⟩
  · have hsound := Snapshot.Sound.visited hm hheap hcontext ha
    obtain ⟨s, -, hstack⟩ := hsound.fits
    refine ⟨fun f hf => ?_, hsound.stacked.exists_entry, fun b hgoes => hsound.spares hgoes⟩
    exact (ha.within hp hm hheap hcontext f hf).placed (hstack.program f hf)
  · obtain ⟨f, hf⟩ := hp.exists_entry
    obtain ⟨hentry, haborts⟩ :=
      (Snapshot.exists_aborts hm hheap hcontext hf).of_ok hrun answer m' rfl
    refine ⟨hentry, fun x hx => ?_⟩
    obtain ⟨a, ha, hreason⟩ := haborts x hx
    exact (Snapshot.Sound.visited hm hheap hcontext ha).ordinary hp hreason

/-- A program that forces a thunk while a handler is installed, which leads just behind the code. -/
def guarding : Program :=
  ⟨#[⟨"main", 0, #[.attempt 3, .delay 1 0, .force]⟩, ⟨"body", 0, #[.push (.int 7)]⟩], 0⟩

/-- While the code of the thunk runs, both frames are placed. -/
theorem valid_runs_placed_guarding :
    guarding.Valid ∧ ∃ a : Snapshot,
      a.Visited 9 {} guarding { context := { mode := .cooperative } } ∧ a.frames.length = 2 ∧
      ∀ f ∈ a.frames, f.Placed guarding := by
  have ha : Snapshot.Visited 9 {} guarding { context := { mode := .cooperative } } ⟨5, _, _⟩ :=
    ⟨_, rfl, .round rfl (.round rfl (.round rfl (.start _ _ _)))⟩
  have hplaced := valid_runs_placed guarding rfl 9 {} rfl
    { context := { mode := .cooperative } } rfl {} rfl
  exact ⟨rfl, _, ha, rfl, (hplaced.1 _ ha).1⟩

end LazyMachine
