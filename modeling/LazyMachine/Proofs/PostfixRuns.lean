import LazyMachine.Postfix.Compile
import LazyMachine.Proofs.CutOff
import LazyMachine.Proofs.PlainOperations
import Mathlib.Data.Nat.SuccPred

/-!
# Postfix expressions end

The instructions that tokens stand for are straight: none of them jumps, touches a local, installs a
handler, makes a thunk or a function, or calls one. Executing a straight instruction on a stack of
plain data leaves such a stack and goes on with the next instruction, or records a failure, or lacks
operands (`step_straight`). So straight code ends when it is at its end at the latest
(`execute_straight`), and with it every run of a compiled source (`postfix_ends`).
-/

namespace LazyMachine

open Machine (Exit)

/-! ### Straight instructions -/

/-- Whether an instruction does nothing but replace topmost values of the stack. -/
def Instr.straight : Instr → Bool
  | .load _ | .store _ | .delay _ _ | .closure _ _ | .call _ | .jump _ | .jumpIfFalse _ | .attempt _
  | .endAttempt | .ret => false
  | _ => true

/-- What a straight instruction of a frame leads to. -/
def Stepped (f : Frame) (w : World) : Except Stop Flow → World → Prop
  | .ok flow, w' => w'.context = w.context ∧
      ∃ stack, flow = .next (f.withStack stack) ∧ ∀ v ∈ stack, w'.heap.Plain v
  | .error (.interrupt i), w' => i = .failed ∧ w'.context.error.isSome = true
  | .error (.abort a), _ => ∃ chunk pc need held, a = .underflow chunk pc need held

section Steps

variable {f : Frame} {w : World} {base : List Value}

/-- The value of a tame evaluation is pushed. -/
theorem Tame.pushes {x : Eval Value} (hx : Tame w Heap.Plain x)
    (hbase : ∀ v ∈ base, w.heap.Plain v) :
    Leads (do return .next (f.withStack ((← x) :: base)) : Step Flow) w (Stepped f w) := by
  rw [leads_bind, Step.liftM_eq_ofEval, leads_ofEval]
  refine Leads.imp hx fun r w' h => ?_
  cases r with
  | error i => exact h
  | ok v =>
    obtain ⟨hcontext, hretains, hv⟩ := h
    have hkept : ∀ u ∈ base, w'.heap.Plain u := fun u hu => (hbase u hu).retains hretains
    exact ⟨hcontext, _, rfl, List.forall_mem_cons.mpr ⟨hv, hkept⟩⟩

/-- An underflow aborts. -/
theorem underflow_stepped (need : Nat) : Leads (f.underflow need : Step Flow) w (Stepped f w) :=
  ⟨_, _, _, _, rfl⟩

/-- A literal is plain. -/
theorem literal_tame (literal : Literal) : Tame w Heap.Plain (Eval.literal literal) := by
  cases literal with
  | str text => exact makeStr_tame text
  | _ => exact .pure (.atom rfl)

/-- The stack may change by itself. -/
theorem replaced_stepped {stack : List Value} (hstack : ∀ v ∈ stack, w.heap.Plain v) :
    Stepped f w (.ok (.next (f.withStack stack))) w :=
  ⟨rfl, _, rfl, hstack⟩

section Operations

variable (hlive : w.context.interrupt? = none) (hstack : ∀ v ∈ f.stack, w.heap.Plain v)

/-- An operation on topmost values, in place of which its result is pushed. -/
theorem operation_stepped (hlive : w.context.interrupt? = none) {o : Operation}
    (ho : ∀ v ∈ o.operands, w.heap.Plain v) (hwide : ¬ o.Wide)
    (hbase : ∀ v ∈ base, w.heap.Plain v) :
    ∃ level, Leads (do return .next (f.withStack ((← engine level o) :: base)) : Step Flow) w
      (Stepped f w) := by
  obtain ⟨level, hlevel⟩ := engine_tame hlive ho hwide
  exact ⟨level, (hlevel level le_rfl).pushes hbase⟩

include hlive hstack

/-- An operation on the top of the stack replaces it by what it comes to. -/
theorem onTop_stepped {o : Value → Operation} (ho : ∀ x, (o x).operands = [x] ∧ ¬ (o x).Wide) :
    ∃ level, Leads (f.onTop (engine level) o) w (Stepped f w) := by
  unfold Frame.onTop
  cases hs : f.stack with
  | nil => exact ⟨0, underflow_stepped 1⟩
  | cons x base =>
    rw [hs, List.forall_mem_cons] at hstack
    exact operation_stepped hlive (by simpa [ho] using hstack.1) (ho x).2 hstack.2

/-- So does one on the topmost two. -/
theorem onTwo_stepped {o : Value → Value → Operation}
    (ho : ∀ x y, (o x y).operands = [x, y] ∧ ¬ (o x y).Wide) :
    ∃ level, Leads (f.onTwo (engine level) o) w (Stepped f w) := by
  unfold Frame.onTwo
  rcases hs : f.stack with _ | ⟨y, _ | ⟨x, base⟩⟩
  · exact ⟨0, underflow_stepped 2⟩
  · exact ⟨0, underflow_stepped 2⟩
  · rw [hs, List.forall_mem_cons, List.forall_mem_cons] at hstack
    obtain ⟨hy, hx, hbase⟩ := hstack
    exact operation_stepped hlive (by simpa [ho] using ⟨hx, hy⟩) (ho x y).2 hbase

omit hlive in
/-- A number of topmost values, in place of which something made of them is pushed. -/
theorem operands_stepped (n : Nat) {x : List Value → Eval Value}
    (hx : ∀ items, (∀ v ∈ items, w.heap.Plain v) → Tame w Heap.Plain (x items)) :
    Leads (do
      let (items, base) ← f.operands n
      return .next (f.withStack ((← x items) :: base)) : Step Flow) w (Stepped f w) := by
  unfold Frame.operands
  split
  · have hitems : ∀ v ∈ (f.stack.take n).reverse, w.heap.Plain v := fun v hv =>
      hstack v (List.mem_of_mem_take (List.mem_reverse.mp hv))
    exact (hx _ hitems).pushes fun v hv => hstack v (List.mem_of_mem_drop hv)
  · exact underflow_stepped n

/-- A straight instruction on plain data goes on with plain data, fails or lacks operands. -/
theorem step_straight (hformat : ¬ w.context.format.Wide) {instr : Instr}
    (hinstr : instr.straight = true) (fuel : Nat) :
    ∃ level, Leads (f.step (engine level) fuel instr) w (Stepped f w) := by
  cases instr with
  | load | store | delay | closure | call | jump | jumpIfFalse | attempt | endAttempt | ret =>
    cases hinstr
  | push literal => exact ⟨0, (literal_tame literal).pushes hstack⟩
  | pop =>
    refine ⟨0, ?_⟩
    simp only [Frame.step]
    cases hs : f.stack with
    | nil => exact underflow_stepped 1
    | cons x base =>
      rw [hs, List.forall_mem_cons] at hstack
      exact replaced_stepped hstack.2
  | dup =>
    refine ⟨0, ?_⟩
    simp only [Frame.step]
    cases hs : f.stack with
    | nil => exact underflow_stepped 1
    | cons x base =>
      rw [hs] at hstack
      exact replaced_stepped (List.forall_mem_cons.mpr ⟨hstack x List.mem_cons_self, hstack⟩)
  | swap =>
    refine ⟨0, ?_⟩
    simp only [Frame.step]
    rcases hs : f.stack with _ | ⟨y, _ | ⟨x, base⟩⟩
    · exact underflow_stepped 2
    · exact underflow_stepped 2
    · rw [hs] at hstack
      exact replaced_stepped fun v hv => hstack v ((List.Perm.swap x y base).mem_iff.mpr hv)
  | binary | index | cons => exact onTwo_stepped hlive hstack fun _ _ => ⟨rfl, id⟩
  | unary | length | head | tail | isNil | empty | tag | untag | convert | force =>
    exact onTop_stepped hlive hstack fun _ => ⟨rfl, id⟩
  | render =>
    -- the format of the context is read before the operand is looked at
    obtain ⟨level, hlevel⟩ := onTop_stepped hlive hstack
      (o := fun x => .render x w.context.format) fun _ => ⟨rfl, hformat⟩
    exact ⟨level, hlevel⟩
  | setIndex =>
    simp only [Frame.step]
    rcases hs : f.stack with _ | ⟨item, _ | ⟨key, _ | ⟨x, base⟩⟩⟩
    iterate 3 exact ⟨0, underflow_stepped 3⟩
    · simp only [hs, List.forall_mem_cons] at hstack
      obtain ⟨hitem, hkey, hx, hbase⟩ := hstack
      have hoperands : ∀ v ∈ [x, key, item], w.heap.Plain v := by simpa using ⟨hx, hkey, hitem⟩
      exact operation_stepped hlive (o := .set x key item) hoperands id hbase
  | makeList count => exact ⟨0, operands_stepped hstack count fun _ => makeList_tame⟩
  | makeRecord names =>
    refine ⟨0, operands_stepped hstack names.length (x := fun items =>
      Eval.makeRecord ⟨names.zip items⟩) fun items hitems => makeRecord_tame fun x hx => ?_⟩
    exact hitems x.2 (List.of_mem_zip hx).2
  | makeVariant tag =>
    refine ⟨0, ?_⟩
    simp only [Frame.step]
    cases hs : f.stack with
    | nil => exact underflow_stepped 1
    | cons x base =>
      rw [hs, List.forall_mem_cons] at hstack
      exact (makeVariant_tame tag hstack.1).pushes hstack.2

end Operations

end Steps

/-! ### Straight code -/

/-- A program of one chunk, which returns what straight code leaves on top of the stack. -/
def Program.straightLine (code : List Instr) : Program :=
  ⟨#[⟨"main", 0, (code ++ [Instr.ret]).toArray⟩], 0⟩

/-- The frame of straight code before the instruction `i`. -/
def Frame.straightAt (code : List Instr) (i : Nat) (stack : List Value) : Frame where
  program := .straightLine code
  chunk := 0
  pc := i
  locals := #[]
  stack := stack
  kind := .entry

/-- The machine that runs straight code, before the instruction `i`. -/
def Machine.straightAt (code : List Instr) (limit : Option Nat) (i : Nat) (stack : List Value) :
    Machine where
  frames := [.straightAt code i stack]
  steps := i
  stepLimit := limit

/-- The ends that a run of straight code of `n` instructions may come to. -/
def EndsWithin (n : Nat) (limit : Option Nat) : Except Interrupt (Exit × Machine) → World → Prop
  | .ok (.done v, m), w => w.heap.Plain v ∧ m.steps = n + 1
  | .ok (.failed, m), w => w.context.error.isSome = true ∧ m.steps ≤ n
  | .ok (.aborted (.underflow _ _ _ _), m), _ => m.steps ≤ n
  | .ok (.aborted (.stepLimit k), m), _ => limit = some k ∧ m.steps = k ∧ k ≤ n
  | _, _ => False

section Runs

variable {code : List Instr} {limit : Option Nat} {i : Nat} {stack : List Value} {E : Engine}
  {fuel : Nat} {instr : Instr} {w w' : World}

/-- The frame executes its next instruction. -/
theorem advance_straight (hinstr : (code ++ [Instr.ret])[i]? = some instr) :
    (Frame.straightAt code i stack).advance E fuel =
      (Frame.straightAt code i stack).step E fuel instr := by
  simp [Frame.advance, Frame.straightAt, Frame.instr?, Program.chunk?, Program.straightLine, hinstr]

variable {m : Machine} (hframes : m.frames = [.straightAt code i stack])
  (hinstr : (code ++ [Instr.ret])[i]? = some instr)

include hframes hinstr

/-- The machine goes on to the next instruction. -/
theorem turn_next {stack' : List Value}
    (hstep : (Frame.straightAt code i stack).step E fuel instr w =
      .ok (.next ((Frame.straightAt code i stack).withStack stack')) w') :
    m.turn E fuel w = .ok (.running (m.withFrames [.straightAt code (i + 1) stack'])) w' := by
  rw [← advance_straight hinstr] at hstep
  rw [Machine.turn, hframes]
  exact bind_ok (Step.outcome_ok hstep)

/-- A failure ends the run. -/
theorem turn_failed
    (hstep : (Frame.straightAt code i stack).step E fuel instr w = .error (.interrupt .failed) w') :
    m.turn E fuel w = .ok (.ended .failed (m.withFrames [])) w' := by
  rw [← advance_straight hinstr] at hstep
  rw [Machine.turn, hframes]
  have hrecover : m.recover (.interrupt .failed) w' =
      .ok (.ended .failed (m.withFrames [])) w' := by
    rw [Machine.recover, hframes]
    rfl
  exact (bind_ok (Step.outcome_stop hstep (.inl rfl))).trans hrecover

/-- So does an abort. -/
theorem turn_aborted {a : Abort}
    (hstep : (Frame.straightAt code i stack).step E fuel instr w = .error (.abort a) w') :
    m.turn E fuel w = .ok (.ended (.aborted a) (m.withFrames [])) w' := by
  rw [← advance_straight hinstr] at hstep
  rw [Machine.turn, hframes]
  have hrecover : m.recover (.abort a) w' = .ok (.ended (.aborted a) (m.withFrames [])) w' := by
    rw [Machine.recover, Machine.abandon, hframes]
    rfl
  exact (bind_ok (Step.outcome_stop hstep trivial)).trans hrecover

omit hinstr in
/-- Behind the last instruction the top of the stack is the result. -/
theorem turn_return (hi : i = code.length) :
    m.turn E fuel w = .ok (.ended (.done (stack.head?.getD .unit)) (m.withFrames [])) w := by
  have hret : (code ++ [Instr.ret])[i]? = some .ret := by simp [hi]
  have hstep : (Frame.straightAt code i stack).step E fuel .ret w =
      .ok (.leave (stack.head?.getD .unit)) w := rfl
  rw [← advance_straight hret] at hstep
  rw [Machine.turn, hframes]
  exact bind_ok (Step.outcome_ok hstep)

end Runs

/-- At the limit the run is given up. -/
theorem ended_at_limit {code : List Instr} {limit : Option Nat} {i : Nat} {stack : List Value}
    (hlimit : ∀ k ∈ limit, i ≤ k) (hreached : ¬ ∀ k ∈ limit, i < k) (hi : i ≤ code.length)
    (E : Engine) (fuel : Nat) (w : World) :
    Leads ((Machine.straightAt code limit i stack).execute E (fuel + 1)) w
      (EndsWithin code.length limit) := by
  push Not at hreached
  obtain ⟨k, hk, hle⟩ := hreached
  -- the limit was not exceeded before, so it is just reached
  obtain rfl : i = k := le_antisymm (hlimit k hk) hle
  exact .of_eq_ok (Machine.execute_limit (m := .straightAt code limit i stack) hk hle E fuel w)
    ⟨hk, rfl, hi⟩

/-- Straight code ends after a round for each instruction that is left, and one more, at the
latest. -/
theorem execute_straight {code : List Instr} (hcode : ∀ instr ∈ code, instr.straight = true)
    {limit : Option Nat} {before rest : List Instr} (hsplit : code = before ++ rest)
    {stack : List Value} {w : World} (hlive : w.context.interrupt? = none)
    (hformat : ¬ w.context.format.Wide) (hstack : ∀ v ∈ stack, w.heap.Plain v)
    (hlimit : ∀ k ∈ limit, before.length ≤ k) :
    ∃ level, Leads ((Machine.straightAt code limit before.length stack).execute (engine level)
      (rest.length + 1)) w (EndsWithin code.length limit) := by
  -- the induction is on the instructions that are left; the stack stays plain on the way
  induction rest generalizing before stack w with
  | nil =>
    -- nothing but the return is left
    have hlength : before.length = code.length := by simp [hsplit]
    by_cases hbelow : ∀ k ∈ limit, before.length < k
    swap
    · exact ⟨0, ended_at_limit hlimit hbelow hlength.le _ _ w⟩
    have hround := Machine.execute_below (m := .straightAt code limit before.length stack) hbelow
      (engine 0) 0 w
    refine ⟨0, .of_eq_ok (hround.trans (bind_ok (turn_return rfl hlength))) ⟨?_, ?_⟩⟩
    · cases stack with
      | nil => exact .atom rfl
      | cons v stack => exact hstack v List.mem_cons_self
    · exact congrArg (· + 1) hlength
  | cons instr rest ih =>
    have hsteps : before.length + 1 ≤ code.length := by simp [hsplit]
    by_cases hbelow : ∀ k ∈ limit, before.length < k
    swap
    · exact ⟨0, ended_at_limit hlimit hbelow (by omega) _ _ w⟩
    have hinstr : (code ++ [Instr.ret])[before.length]? = some instr := by simp [hsplit]
    obtain ⟨level, hlevel⟩ := step_straight (f := .straightAt code before.length stack)
      (w := { w with executed := w.executed + 1 }) hlive hstack hformat
      (hcode instr (by simp [hsplit])) (rest.length + 1)
    have hround (level : Nat) := Machine.execute_below
      (m := .straightAt code limit before.length stack) hbelow (engine level) (rest.length + 1) w
    cases hstep : (Frame.straightAt code before.length stack).step (engine level) (rest.length + 1)
        instr { w with executed := w.executed + 1 } with
    | error stop w' =>
      have hstopped := hlevel.of_error hstep
      cases stop with
      | interrupt i =>
        obtain ⟨rfl, hrecorded⟩ := hstopped
        exact ⟨level, .of_eq_ok ((hround level).trans (bind_ok (turn_failed rfl hinstr hstep)))
          ⟨hrecorded, hsteps⟩⟩
      | abort a =>
        obtain ⟨chunk, pc, need, held, rfl⟩ := hstopped
        exact ⟨level, .of_eq_ok ((hround level).trans (bind_ok (turn_aborted rfl hinstr hstep)))
          hsteps⟩
    | ok flow w' =>
      obtain ⟨hcontext, stack', rfl, hstack'⟩ := hlevel.of_ok hstep
      have hsplit' : code = (before ++ [instr]) ++ rest := by simp [hsplit]
      obtain ⟨level', hrest⟩ :=
        ih hsplit' (hcontext ▸ hlive) (hcontext ▸ hformat) hstack' (by simpa using hbelow)
      -- at a level that is high enough for the rest the instruction does the same
      have hstep' := (step_approximates (engine_approximates (le_max_left level level'))
        (le_refl (rest.length + 1)) _ instr).eq_ok hstep
      refine ⟨max level level',
        .of_eq ?_ ((hround _).trans (bind_ok (turn_next rfl hinstr hstep')))⟩
      rw [List.length_append] at hrest
      exact (execute_approximates (engine_approximates (le_max_right level level')) le_rfl _).leads
        hrest fun _ h => h

/-! ### Compiled sources -/

namespace Postfix

/-- Words with an argument stand for straight instructions. -/
theorem straight_of_withArgument {word head : String} {argument : List Char} {instr : Instr}
    (h : withArgument word head argument = .ok instr) : instr.straight = true := by
  unfold withArgument at h
  dsimp only at h
  split at h
  · split at h <;> cases h
    rfl
  · cases h
    rfl
  · cases h
    rfl
  · split at h <;> cases h
    rfl
  · cases h

/-- All words do. -/
theorem straight_of_wordInstr {word : String} {instr : Instr} (h : wordInstr word = .ok instr) :
    instr.straight = true := by
  unfold wordInstr at h
  split at h
  iterate 3
    cases h
    rfl
  split at h
  · exact straight_of_withArgument h
  · split at h
    · next hlookup =>
      cases h
      have hvocabulary : ∀ entry ∈ vocabulary, entry.2.straight = true := by
        simp [vocabulary, Instr.straight]
      obtain ⟨before, after, hsplit, -⟩ := List.lookup_eq_some_iff.mp hlookup
      exact hvocabulary (word, instr) (by simp [hsplit])
    · cases h

/-- Tokens stand for straight instructions. -/
theorem Token.straight_instr {t : Token} {instr : Instr} (h : t.instr = .ok instr) :
    instr.straight = true := by
  cases t with
  | word text => exact straight_of_wordInstr h
  | str | char =>
    cases h
    rfl

/-- A composition is fine only if its parts are. -/
theorem of_bind_eq_ok {α β : Type} {x : Except Error α} {f : α → Except Error β} {b : β}
    (h : x >>= f = .ok b) : ∃ a, x = .ok a ∧ f a = .ok b := by
  cases x with
  | error e => cases h
  | ok a => exact ⟨a, rfl, h⟩

/-- The instructions of tokens are one for each token. -/
theorem forall₂_of_mapM {tokens : List Token} {code : List Instr}
    (h : tokens.mapM Token.instr = .ok code) :
    List.Forall₂ (fun t instr => t.instr = .ok instr) tokens code := by
  induction tokens generalizing code with
  | nil =>
    cases h
    exact .nil
  | cons t tokens ih =>
    rw [List.mapM_cons] at h
    obtain ⟨instr, ht, h⟩ := of_bind_eq_ok h
    obtain ⟨rest, hrest, h⟩ := of_bind_eq_ok h
    cases h
    exact .cons ht (ih hrest)

/-- A compiled source is straight code with an instruction for each token. -/
theorem exists_straightLine {source : String} {p : Program} (h : compile source = .ok p) :
    ∃ tokens code, tokenize source = .ok tokens ∧
      List.Forall₂ (fun t instr => t.instr = .ok instr) tokens code ∧ p = .straightLine code := by
  obtain ⟨tokens, htokens, h⟩ := of_bind_eq_ok h
  obtain ⟨code, hcode, h⟩ := of_bind_eq_ok h
  refine ⟨tokens, code, htokens, forall₂_of_mapM hcode, ?_⟩
  split at h
  · cases h
  · cases h
    rfl

/-- Straight instructions have nothing that could be defective. -/
theorem instrDefect?_straight {p : Program} {c : Chunk} {pc : Nat} {instr : Instr}
    (hinstr : instr.straight = true) : p.instrDefect? c pc instr = none := by
  cases instr <;> first | rfl | cases hinstr

/-- Straight code makes a valid program. -/
theorem valid_straightLine {code : List Instr} (hcode : ∀ instr ∈ code, instr.straight = true) :
    (Program.straightLine code).Valid := by
  have hdefect (p : Program) (c : Chunk) (pc : Nat) {instr : Instr}
      (hinstr : instr ∈ code ++ [.ret]) : p.instrDefect? c pc instr = none := by
    rcases List.mem_append.mp hinstr with hinstr | hinstr
    · exact instrDefect?_straight (hcode instr hinstr)
    · rw [List.mem_singleton.mp hinstr]
      rfl
  have hchunk (p : Program) (c : Chunk) (hc : c.code = (code ++ [Instr.ret]).toArray) :
      p.chunkDefect? c = none := by
    refine List.findSome?_eq_none_iff.mpr fun x hx => hdefect p c x.2 ?_
    have hmem := List.fst_mem_of_mem_zipIdx hx
    rwa [hc] at hmem
  have hentry := hchunk (.straightLine code) ⟨"main", 0, (code ++ [Instr.ret]).toArray⟩ rfl
  simpa [Program.Valid, Program.defect?, Program.chunk?, Program.straightLine] using hentry

/-- Compiled tokens are straight code. -/
theorem straight_of_tokens {tokens : List Token} {code : List Instr}
    (h : List.Forall₂ (fun t instr => t.instr = .ok instr) tokens code) :
    ∀ instr ∈ code, instr.straight = true := by
  induction h with
  | nil => nofun
  | cons ht _ ih => exact List.forall_mem_cons.mpr ⟨Token.straight_instr ht, ih⟩

end Postfix

/-! ### Runs -/

/-- What the host may be told of a run of straight code of `n` instructions: a value in which
nothing waits to be run, after as many instructions and the return, a failure, a lack of operands or
that the limit is reached. -/
def AnswersWithin (n : Nat) (limit : Option Nat) (h : Heap) (m : Machine) : Answer Value → Prop
  | .ok v => m.steps = n + 1 ∧ ∀ u, h.Reaches v u →
      u.kind? ≠ some .lazy ∧ u.kind? ≠ some .function ∧ u.kind? ≠ some .module
  | .error (.runtime _) => m.steps ≤ n
  | .error (.aborted (.underflow _ _ _ _)) => m.steps ≤ n
  | .error (.aborted (.stepLimit k)) => limit = some k ∧ m.steps = k ∧ k ≤ n
  | .error _ => False

/-- The answer tells how the run has ended. -/
theorem EndsWithin.answers {n : Nat} {limit : Option Nat} {e : Exit} {m : Machine} {w : World}
    (h : EndsWithin n limit (.ok (e, m)) w) :
    AnswersWithin n limit w.heap m (e.answer w.context) := by
  cases e with
  | done v => exact ⟨h.2, fun u hu => (h.1.reaches hu).kind?_ne⟩
  | failed =>
    obtain ⟨error, herror⟩ := Option.isSome_iff_exists.mp h.1
    simp only [Machine.Exit.answer, Context.hostError, herror]
    exact h.2
  | aborted a => cases a <;> exact h

section Settings

variable {code : List Instr} {s : Settings} {w : World}

/-- A run of straight code ends in the same way at every level and with every number of rounds that
is high enough. -/
theorem exists_end (hcode : ∀ instr ∈ code, instr.straight = true) (s : Settings)
    (hlive : w.context.interrupt? = none) (hformat : ¬ w.context.format.Wide) :
    ∃ e m w' enough, EndsWithin code.length s.stepLimit (.ok (e, m)) w' ∧
      ∀ level rounds, enough ≤ level → code.length + 1 ≤ rounds →
        (s.machine.withFrames [.straightAt code 0 []]).execute (engine level) rounds w =
          .ok (e, m) w' := by
  have hsplit : code = [] ++ code := rfl
  have hempty : ∀ v ∈ ([] : List Value), w.heap.Plain v := nofun
  obtain ⟨level, hrun⟩ := execute_straight hcode hsplit hlive hformat hempty
    fun k (_ : k ∈ s.stepLimit) => k.zero_le
  cases hexecute : (Machine.straightAt code s.stepLimit 0 []).execute (engine level)
      (code.length + 1) w with
  | error i w' => exact (hrun.of_error hexecute).elim
  | ok r w' =>
    refine ⟨r.1, r.2, w', level, hrun.of_ok hexecute, fun level' rounds hlevel hrounds => ?_⟩
    exact (execute_approximates (engine_approximates hlevel) hrounds _).eq_ok hexecute

/-- A run does not end otherwise at other levels and with other numbers of rounds. -/
theorem eq_of_execute {m : Machine} {r r' : Exit × Machine} {w' w'' : World}
    {level level' rounds rounds' : Nat}
    (h : m.execute (engine level) rounds w = .ok r w')
    (h' : m.execute (engine level') rounds' w = .ok r' w'') : r = r' := by
  have hleft := (execute_approximates (engine_approximates (le_max_left level level'))
    (le_max_left rounds rounds') m).eq_ok h
  have hright := (execute_approximates (engine_approximates (le_max_right level level'))
    (le_max_right rounds rounds') m).eq_ok h'
  rw [hleft] at hright
  cases hright
  rfl

end Settings

namespace Postfix

/-- Every postfix expression ends. A compiled source is a valid program of one instruction for each
token and a return. Whatever the world and the settings, of which only the format must not be wide,
its run on a fresh context ends, at every level that is high enough, after as many rounds as there
are tokens and one more at the latest: with a value that contains no lazy value, function or module
anywhere, and then not after fewer rounds, with a failure, for lack of operands or at the limit on
instructions. -/
theorem postfix_ends {source : String} {p : Program} (hp : compile source = .ok p) :
    p.Valid ∧ ∃ tokens code, tokenize source = .ok tokens ∧
      List.Forall₂ (fun t instr => t.instr = .ok instr) tokens code ∧
      p = ⟨#[⟨"main", 0, (code ++ [Instr.ret]).toArray⟩], 0⟩ ∧
      ∃ f, Frame.enter? p p.entry [] .entry = some f ∧
        ∀ s : Settings, ¬ s.format.Wide → ∀ w : World,
          ∃ (e : Exit) (m : Machine) (w' : World) (enough : Nat),
            AnswersWithin tokens.length s.stepLimit w'.heap m (e.answer w'.context) ∧
            (∀ level rounds, enough ≤ level → tokens.length + 1 ≤ rounds →
              (s.machine.withFrames [f]).execute (engine level) rounds
                { w with context := s.context } = .ok (e, m) w') ∧
            (∀ v, e = .done v → ∀ level rounds r w'', (s.machine.withFrames [f]).execute
              (engine level) rounds { w with context := s.context } = .ok r w'' →
                tokens.length + 1 ≤ rounds) ∧
            ∀ level, enough ≤ level → evaluate level s p w =
              .ok (e.answer w'.context, m) { w' with context := e.context w'.context } := by
  obtain ⟨tokens, code, htokens, hcode, rfl⟩ := exists_straightLine hp
  have hstraight := straight_of_tokens hcode
  refine ⟨valid_straightLine hstraight, tokens, code, htokens, hcode, rfl,
    .straightAt code 0 [], rfl, fun s hformat w => ?_⟩
  rw [hcode.length_eq]
  have hlive : ({ w with context := s.context } : World).context.interrupt? = none := rfl
  obtain ⟨e, m, w', enough, hended, hexecute⟩ := exists_end hstraight s hlive hformat
  refine ⟨e, m, w', max enough (code.length + 1), hended.answers,
    fun level rounds hlevel => hexecute level rounds (by omega), ?_, fun level hlevel => ?_⟩
  · -- the machine counts its rounds, and it does not end otherwise with more of them
    rintro v rfl level rounds r w'' hfewer
    obtain rfl := eq_of_execute (hexecute enough _ le_rfl le_rfl) hfewer
    have hsteps := (execute_steps_le_fuel _ _).of_ok hfewer _ _ rfl
    exact hended.2 ▸ hsteps.trans_eq (Nat.zero_add rounds)
  · have hentry : Frame.enter? (.straightLine code) 0 [] .entry = some (.straightAt code 0 []) :=
      rfl
    have hrun := hexecute level level (by omega) (by omega)
    exact (run_eq hentry s.machine).trans (by rw [show s.machine.frames = [] from rfl, hrun])

/-- The sum of two numbers. -/
def sum : Program :=
  .straightLine [.push (.int 1), .push (.int 2), .binary .add]

/-- The sum ends after four rounds, and the same at every level that is high enough. -/
theorem postfix_ends_sum :
    compile "1 2 +" = .ok sum ∧
      (∃ m w, evaluate 5 {} sum {} = .ok (.ok (.int 3), m) w ∧ m.steps = 4) ∧
      ∃ (e : Exit) (m : Machine) (w : World) (enough : Nat),
        AnswersWithin 3 none w.heap m (e.answer w.context) ∧
        ∀ level, enough ≤ level → evaluate level {} sum {} =
          .ok (e.answer w.context, m) { w with context := e.context w.context } := by
  have hsum : compile "1 2 +" = .ok sum := rfl
  have hevaluates : ∃ m w, evaluate 5 {} sum {} = .ok (.ok (.int 3), m) w ∧ m.steps = 4 :=
    ⟨_, _, rfl, rfl⟩
  obtain ⟨-, tokens, code, htokens, -, -, f, -, hruns⟩ := postfix_ends hsum
  cases htokens
  obtain ⟨e, m, w, enough, hends, -, -, hevaluate⟩ := hruns {} Format.not_wide_default {}
  exact ⟨hsum, hevaluates, e, m, w, enough, hends, hevaluate⟩

end Postfix

end LazyMachine
