import LazyMachine.Proofs.Outcome

/-!
# Operands by position

Instructions find their operands by matching on the stack. A machine may as well keep the stack as a
sequence that grows at its end and read it by position, after one check of its height: this module
executes instructions in that way and crashes at every position that is out of range, at every
difference that is negative and at every prefix that is longer than the whole.

`stepByPosition_eq` and `bindByPosition_eq` show that the check suffices: whatever the frame, the
function, its arguments and the engine are, reading by position comes to the same and so is never
out of range.
-/

namespace LazyMachine

variable {α : Type}

/-! ### Reading by position -/

/-- The entry at a position. -/
def entryAt (xs : List α) (i : Nat) : Eval α :=
  match xs[i]? with
  | some x => return x
  | none => throw .crashed

/-- The entries from a position on. -/
def entriesFrom (xs : List α) (n : Nat) : Eval (List α) :=
  if n ≤ xs.length then return xs.drop n else throw .crashed

/-- The entries before a position. -/
def entriesBefore (xs : List α) (n : Nat) : Eval (List α) :=
  if n ≤ xs.length then return xs.take n else throw .crashed

/-- The entries with another one at a position. -/
def putAt (xs : Array α) (i : Nat) (x : α) : Eval (Array α) :=
  if h : i < xs.size then return xs.set i x h else throw .crashed

/-- The difference of two counts. -/
def difference (m n : Nat) : Eval Nat :=
  if n ≤ m then return m - n else throw .crashed

section Reading

variable {xs : List α} {x : α} {i m n : Nat}

/-- An entry that is there is read. -/
theorem entryAt_eq (h : xs[i]? = some x) : entryAt xs i = pure x := by
  rw [entryAt, h]

/-- The first entry is there. -/
@[simp]
theorem entryAt_zero (x : α) (xs : List α) : entryAt (x :: xs) 0 = pure x := rfl

/-- Within the bounds the entries behind a position are the rest. -/
theorem entriesFrom_eq (h : n ≤ xs.length) : entriesFrom xs n = pure (xs.drop n) :=
  if_pos h

/-- Within the bounds the entries before a position are the first. -/
theorem entriesBefore_eq (h : n ≤ xs.length) : entriesBefore xs n = pure (xs.take n) :=
  if_pos h

/-- Within the bounds an entry is written. -/
theorem putAt_eq {xs : Array α} (h : i < xs.size) : putAt xs i x = pure (xs.setIfInBounds i x) := by
  rw [putAt, dif_pos h, Array.setIfInBounds, dif_pos h]

/-- The difference from a smaller number is a number. -/
theorem difference_eq (h : n ≤ m) : difference m n = pure (m - n) :=
  if_pos h

/-- An evaluation that only yields a value is no more as a step. -/
theorem ofEval_pure (a : α) : Step.ofEval (pure a : Eval α) = pure a := rfl

end Reading

/-! ### Binding -/

/-- Binds arguments to a function, cutting them where the function has enough. -/
def bindByPosition (E : Engine) : (fuel : Nat) → Ref .function → List Value → Eval Application
  | 0, _, _ => throw .exhausted
  | fuel + 1, f, args => do
    Eval.ensureLive
    let fn := (← Eval.heap).function f
    if 0 < fn.remaining ∧ args.length < fn.remaining then
      if args.isEmpty then return .value (.function f) []
      else return .value (← Eval.makeFunction { fn with applied := fn.applied ++ args }) []
    else
      let full := fn.applied ++ (← entriesBefore args fn.remaining)
      let rest ← entriesFrom args fn.remaining
      match fn.body with
      | .native code => return .value (← (code full).run E) rest
      | .code program chunk captures => return .enter program chunk (captures ++ full) rest
      | .overloaded table =>
        let (target, forced) ← table.select E full
        return (← bindByPosition E fuel target forced).withRest rest

/-- Arguments are cut within their range. -/
theorem bindByPosition_eq (E : Engine) (fuel : Nat) (f : Ref .function) (args : List Value) :
    bindByPosition E fuel f args = bind E fuel f args := by
  induction fuel generalizing f args with
  | zero => rfl
  | succ fuel ih =>
    rw [bindByPosition, bind]
    congr 1
    funext _
    congr 1
    funext heap
    -- with nothing remaining there cannot be too few arguments
    have hfew : (0 < (heap.function f).remaining ∧ args.length < (heap.function f).remaining) ↔
        args.length < (heap.function f).remaining := by
      omega
    simp only [hfew]
    split
    · rfl
    · next henough =>
      have hle : (heap.function f).remaining ≤ args.length := Nat.le_of_not_lt henough
      cases (heap.function f).body <;>
        simp only [entriesBefore_eq hle, entriesFrom_eq hle, Embedding.run_standard, pure_bind, ih]

/-- Binds arguments to a forced value. -/
def bindValueByPosition (E : Engine) (fuel : Nat) (callee : Value) (args : List Value) :
    Eval Application :=
  match callee with
  | .function g => bindByPosition E fuel g args
  | .foreign g => do return .value (← g.call args) []
  | other => Eval.invalidUnary "Call" other

/-- The arguments of any callee are cut within their range. -/
theorem bindValueByPosition_eq (E : Engine) (fuel : Nat) (callee : Value) (args : List Value) :
    bindValueByPosition E fuel callee args = bindValue E fuel callee args := by
  cases callee with
  | function g => exact bindByPosition_eq E fuel g args
  | _ => rfl

/-! ### Instructions -/

namespace Frame

/-- The topmost `n` values, the top last. -/
def peek (f : Frame) (n : Nat) : Step (List Value) :=
  if n ≤ f.stack.length then entriesFrom f.stack.reverse (f.stack.length - n) else f.underflow n

/-- The topmost value. -/
def top (f : Frame) : Step Value := do
  entryAt (← f.peek 1) 0

/-- What is below the topmost `n` values. -/
def below (f : Frame) (n : Nat) : List Value :=
  (f.stack.reverse.take (f.stack.length - n)).reverse

/-- The frame with a value in place of the topmost `n`. -/
def replace (f : Frame) (n : Nat) (v : Value) : Frame :=
  f.withStack (v :: f.below n)

/-- Applies the value below the topmost `count` ones to them. -/
def applyByPosition (E : Engine) (fuel : Nat) (f : Frame) (count : Nat) :
    Step (Frame × Option Frame) := do
  let need ← increment Word.bound count
  let slots ← f.peek need
  let callee ← E (.force (← entryAt slots 0))
  let application ← bindValueByPosition E fuel callee (← entriesFrom slots 1)
  let height ← difference f.stack.length need
  f.receive (f.stack.reverse.take height).reverse application

/-- Executes an instruction with the operation on its one operand. -/
def onTopByPosition (E : Engine) (f : Frame) (o : Value → Operation) : Step Flow := do
  let v ← E (o (← f.top))
  return .next (f.replace 1 v)

/-- Executes an instruction with the operation on its two operands. -/
def onTwoByPosition (E : Engine) (f : Frame) (o : Value → Value → Operation) : Step Flow := do
  let args ← f.peek 2
  let v ← E (o (← entryAt args 0) (← entryAt args 1))
  return .next (f.replace 2 v)

/-- A function over a chunk of the frame's program that captures the topmost values. -/
def captureByPosition (f : Frame) (chunk captures : Nat) : Step (Ref .function) := do
  let values ← f.peek captures
  match f.program.chunk? chunk with
  | some target =>
    Eval.onHeap (·.addFunction ⟨target.name, target.arity, [], .code f.program chunk values⟩)
  | none => throw (.abort (.missingChunk chunk))

/-- Executes one instruction. Those that read no position are executed as before. -/
def stepByPosition (E : Engine) (fuel : Nat) (f : Frame) : Instr → Step Flow
  | .store slot => do
    let v ← f.top
    let locals ← if f.locals.size ≤ slot then do
        let size ← increment Word.arrayBound slot
        pure (f.locals ++ Array.replicate (size - f.locals.size) Value.unit)
      else pure f.locals
    let locals ← putAt locals slot v
    return .next { f with stack := f.below 1, locals }
  | .pop => do
    let _ ← f.peek 1
    return .next (f.withStack (f.below 1))
  | .dup => do
    let v ← f.top
    return .next (f.withStack (v :: f.stack))
  | .swap => do
    let _ ← f.peek 2
    let last ← difference f.stack.length 1
    let other ← difference f.stack.length 2
    let stack := f.stack.reverse
    let y ← entryAt stack last
    let x ← entryAt stack other
    return .next (f.withStack ((stack.set last x).set other y).reverse)
  | .binary op => f.onTwoByPosition E (.binary op)
  | .unary op => f.onTopByPosition E (.unary op)
  | .index => f.onTwoByPosition E .get
  | .setIndex => do
    let args ← f.peek 3
    let v ← E (.set (← entryAt args 0) (← entryAt args 1) (← entryAt args 2))
    return .next (f.replace 3 v)
  | .length => f.onTopByPosition E .length
  | .head => f.onTopByPosition E .head
  | .tail => f.onTopByPosition E .tail
  | .isNil => f.onTopByPosition E .isNil
  | .cons => f.onTwoByPosition E (.binary .cons)
  | .empty => f.onTopByPosition E .nilOf
  | .makeList count => do
    let items ← f.peek count
    let v ← Eval.makeList items
    return .next (f.replace count v)
  | .makeRecord names => do
    let items ← f.peek names.length
    let v ← Eval.makeRecord ⟨names.zip items⟩
    return .next (f.replace names.length v)
  | .makeVariant tag => do
    let v ← Eval.makeVariant tag (← f.top)
    return .next (f.replace 1 v)
  | .tag => f.onTopByPosition E .tagOf
  | .untag => f.onTopByPosition E .untag
  | .render => do
    let format := (← Eval.context).format
    f.onTopByPosition E (.render · format)
  | .convert kind => f.onTopByPosition E (.convert · kind)
  | .delay chunk captures => do
    let g ← f.captureByPosition chunk captures
    let v ← Eval.makeThunk (.waiting (.call g))
    return .next (f.replace captures v)
  | .closure chunk captures => do
    let g ← f.captureByPosition chunk captures
    return .next (f.replace captures (.function g))
  | .force => f.onTopByPosition E .force
  | .call count => do
    match ← f.applyByPosition E fuel count with
    | (caller, none) => return .next caller
    | (caller, some callee) => return .enter { caller with pc := caller.pc + 1 } callee
  | .jumpIfFalse target => do
    match ← E (.force (← f.top)) with
    | .bool true => return .next (f.withStack (f.below 1))
    | .bool false => return .jump (f.withStack (f.below 1)) target
    | other => Eval.invalidUnary "JumpIfFalse" other
  | instr => f.step E fuel instr

/-- Executes the pending call or the next instruction. -/
def advanceByPosition (E : Engine) (fuel : Nat) (f : Frame) : Step Flow := do
  match f.pendingCall with
  | some count =>
    match ← applyByPosition E fuel { f with pendingCall := none } count with
    | (caller, none) => return .stay caller
    | (caller, some callee) => return .enter caller callee
  | none =>
    match f.instr? with
    | some instr => f.stepByPosition E fuel instr
    | none => return .leave (f.stack.head?.getD .unit)

section Steps

variable {f : Frame} {E : Engine} {x y z : Value} {base : List Value}

/-- What is below the topmost values is the rest of the stack. -/
theorem below_eq (f : Frame) (n : Nat) : f.below n = f.stack.drop n := by
  rw [below, List.take_reverse, List.reverse_reverse]
  by_cases hn : n ≤ f.stack.length
  · rw [Nat.sub_sub_self hn]
  · rw [Nat.sub_eq_zero_of_le (Nat.le_of_not_le hn), Nat.sub_zero, List.drop_length,
      List.drop_eq_nil_of_le (Nat.le_of_not_le hn)]

/-- The topmost values are replaced by one. -/
theorem replace_eq (f : Frame) (n : Nat) (v : Value) :
    f.replace n v = f.withStack (v :: f.stack.drop n) := by
  rw [replace, below_eq]

/-- The height of the stack is checked before it is cut. -/
theorem peek_eq (f : Frame) (n : Nat) : f.peek n = (·.1) <$> f.operands n := by
  rw [peek, operands]
  split
  · next hn =>
    have hle : f.stack.length - n ≤ f.stack.reverse.length := by
      rw [List.length_reverse]
      exact Nat.sub_le _ _
    rw [entriesFrom_eq hle, List.drop_reverse, Nat.sub_sub_self hn]
    rfl
  · rfl

/-- What follows the operands may be cut off below them. -/
theorem peek_bind {β : Type} (f : Frame) (n : Nat) (k : List Value → Step β) :
    f.peek n >>= k = f.operands n >>= fun r => k r.1 := by
  rw [peek_eq, map_eq_pure_bind, bind_assoc]
  rfl

/-- With too few values there is an underflow. -/
theorem peek_of_lt {n : Nat} (hn : f.stack.length < n) : f.peek n = f.underflow n :=
  if_neg (Nat.not_le_of_lt hn)

/-- With enough values the topmost are read. -/
theorem peek_of_le {n : Nat} (hn : n ≤ f.stack.length) :
    f.peek n = pure (f.stack.take n).reverse := by
  rw [peek_eq, operands, if_pos hn]
  rfl

/-- The top is the first value of the stack. -/
theorem top_cons (hstack : f.stack = x :: base) : f.top = pure x := by
  rw [top, peek_of_le (by simp [hstack]), hstack]
  rfl

/-- An empty stack has no top. -/
theorem top_nil (hstack : f.stack = []) : f.top = f.underflow 1 := by
  rw [top, peek_of_lt (by simp [hstack])]
  rfl

/-- The operand is read in range. -/
theorem onTopByPosition_eq (o : Value → Operation) :
    f.onTopByPosition E o = f.onTop E o := by
  rw [onTopByPosition, onTop]
  cases hstack : f.stack with
  | nil =>
    rw [top_nil hstack]
    rfl
  | cons x base =>
    simp only [top_cons hstack, pure_bind, replace_eq, hstack]
    rfl

/-- Both operands are read in range. -/
theorem onTwoByPosition_eq (o : Value → Value → Operation) :
    f.onTwoByPosition E o = f.onTwo E o := by
  rw [onTwoByPosition, onTwo]
  rcases hstack : f.stack with _ | ⟨y, _ | ⟨x, base⟩⟩
  · rw [peek_of_lt (by simp [hstack])]
    rfl
  · rw [peek_of_lt (by simp [hstack])]
    rfl
  · rw [peek_of_le (by simp [hstack])]
    simp only [replace_eq, hstack]
    rfl

/-- The callee is below the arguments, so the operands of a call are never none. -/
theorem applyByPosition_eq (E : Engine) (fuel : Nat) (f : Frame) (count : Nat) :
    f.applyByPosition E fuel count = f.apply E fuel count := by
  rw [applyByPosition, apply, increment]
  split
  · simp only [pure_bind, peek_bind]
    rw [operands]
    split
    · next hneed =>
      have hlength : (f.stack.take (count + 1)).reverse.length = count + 1 := by
        rw [List.length_reverse, List.length_take_of_le hneed]
      have hbase : (f.stack.reverse.take (f.stack.length - (count + 1))).reverse =
          f.stack.drop (count + 1) := f.below_eq (count + 1)
      simp only [pure_bind]
      rcases hslots : (f.stack.take (count + 1)).reverse with _ | ⟨callee, args⟩
      · -- there is at least the callee
        rw [hslots] at hlength
        cases hlength
      · have hfrom : entriesFrom (callee :: args) 1 = pure args := rfl
        simp only [entryAt_zero, hfrom, difference_eq hneed, ofEval_pure, Step.liftM_eq_ofEval,
          pure_bind, hbase, bindValueByPosition_eq]
    · rfl
  · rfl

/-- The captures are the topmost values, below which is the rest of the stack. -/
theorem captureByPosition_bind {β : Type} (f : Frame) (chunk captures : Nat)
    (k : Ref .function → List Value → Step β) :
    (f.captureByPosition chunk captures >>= fun g => k g (f.stack.drop captures)) =
      f.capture chunk captures >>= fun r => k r.1 r.2 := by
  rw [captureByPosition, capture, peek_bind, operands]
  split
  · cases f.program.chunk? chunk <;> rfl
  · rfl

/-- A local is stored where there are enough of them by then. -/
theorem storeByPosition_eq (E : Engine) (fuel : Nat) (f : Frame) (slot : Nat) :
    f.stepByPosition E fuel (.store slot) = f.step E fuel (.store slot) := by
  rw [stepByPosition, step]
  cases hstack : f.stack with
  | nil =>
    rw [top_nil hstack]
    rfl
  | cons v base =>
    simp only [top_cons hstack, pure_bind, below_eq, hstack, List.drop_succ_cons, List.drop_zero]
    by_cases hslot : f.locals.size ≤ slot
    · simp only [if_pos hslot, increment]
      -- where the slot has no room for one more both crash
      split
      · have hsize :
            slot < (f.locals ++ Array.replicate (slot + 1 - f.locals.size) Value.unit).size := by
          rw [Array.size_append, Array.size_replicate]
          omega
        simp only [pure_bind, Step.liftM_eq_ofEval, putAt_eq hsize, ofEval_pure]
        rfl
      · rfl
    · have hsize : slot < f.locals.size := Nat.lt_of_not_le hslot
      have hstore : f.store slot v = f.locals.setIfInBounds slot v := by
        rw [store, Nat.sub_eq_zero_of_le hsize, Array.replicate_zero, Array.append_empty]
      simp only [if_neg hslot, pure_bind, Step.liftM_eq_ofEval, putAt_eq hsize, ofEval_pure, hstore]

/-- The two topmost values are at the last two positions. -/
theorem swapByPosition_eq (E : Engine) (fuel : Nat) (f : Frame) :
    f.stepByPosition E fuel .swap = f.step E fuel .swap := by
  rw [stepByPosition, step]
  rcases hstack : f.stack with _ | ⟨y, _ | ⟨x, base⟩⟩
  · rw [peek_of_lt (by simp [hstack])]
    rfl
  · rw [peek_of_lt (by simp [hstack])]
    rfl
  · have hreverse : (y :: x :: base).reverse = base.reverse ++ [x, y] := by simp
    have hlast : entryAt (base.reverse ++ [x, y]) (base.length + 1) = pure y :=
      entryAt_eq (by simp)
    have hother : entryAt (base.reverse ++ [x, y]) base.length = pure x :=
      entryAt_eq (by simp)
    have hset : (((base.reverse ++ [x, y]).set (base.length + 1) x).set base.length y).reverse =
        x :: y :: base := by
      simp
    rw [peek_of_le (by simp [hstack])]
    have hone : difference (base.length + 1 + 1) 1 = pure (base.length + 1) := rfl
    have htwo : difference (base.length + 1 + 1) 2 = pure base.length := rfl
    simp only [hreverse, List.length_cons, hone, htwo, hlast, hother, hset, ofEval_pure,
      Step.liftM_eq_ofEval, pure_bind]

/-- Executing an instruction by position is executing it: no position is out of range. -/
theorem stepByPosition_eq (E : Engine) (fuel : Nat) (f : Frame) (instr : Instr) :
    f.stepByPosition E fuel instr = f.step E fuel instr := by
  cases instr with
  | store slot => exact storeByPosition_eq E fuel f slot
  | swap => exact swapByPosition_eq E fuel f
  | pop =>
    rw [stepByPosition, step, below_eq]
    -- missing operands are found out before any position is used
    cases hstack : f.stack with
    | nil =>
      rw [peek_of_lt (by simp [hstack])]
      rfl
    | cons v base =>
      rw [peek_of_le (by simp [hstack])]
      rfl
  | dup =>
    rw [stepByPosition, step]
    cases hstack : f.stack with
    | nil =>
      rw [top_nil hstack]
      rfl
    | cons v base =>
      rw [top_cons hstack]
      rfl
  | setIndex =>
    rw [stepByPosition, step]
    rcases hstack : f.stack with _ | ⟨z, _ | ⟨y, _ | ⟨x, base⟩⟩⟩
    · rw [peek_of_lt (by simp [hstack])]
      rfl
    · rw [peek_of_lt (by simp [hstack])]
      rfl
    · rw [peek_of_lt (by simp [hstack])]
      rfl
    · rw [peek_of_le (by simp [hstack])]
      simp only [replace_eq, hstack]
      rfl
  | makeList | makeRecord =>
    rw [stepByPosition, step, peek_bind]
    simp only [replace_eq]
    rw [operands]
    split <;> rfl
  | makeVariant tag =>
    rw [stepByPosition, step]
    cases hstack : f.stack with
    | nil =>
      rw [top_nil hstack]
      rfl
    | cons x base =>
      simp only [top_cons hstack, pure_bind, replace_eq, hstack]
      rfl
  | delay chunk captures =>
    rw [stepByPosition, step]
    simp only [replace_eq]
    exact captureByPosition_bind f chunk captures fun g base => do
      let v ← Eval.makeThunk (.waiting (.call g))
      return Flow.next (f.withStack (v :: base))
  | closure chunk captures =>
    rw [stepByPosition, step]
    simp only [replace_eq]
    exact captureByPosition_bind f chunk captures fun g base =>
      return Flow.next (f.withStack (.function g :: base))
  | call count => exact congrArg (· >>= _) (applyByPosition_eq E fuel f count)
  | jumpIfFalse target =>
    rw [stepByPosition, step]
    cases hstack : f.stack with
    | nil =>
      rw [top_nil hstack]
      rfl
    | cons x base =>
      simp only [top_cons hstack, pure_bind, below_eq, hstack]
      rfl
  | render =>
    rw [stepByPosition, step]
    simp only [onTopByPosition_eq]
  | _ =>
    first
    | rfl
    | exact onTopByPosition_eq _
    | exact onTwoByPosition_eq _

/-- The same of whatever the frame does next. -/
theorem advanceByPosition_eq (E : Engine) (fuel : Nat) (f : Frame) :
    f.advanceByPosition E fuel = f.advance E fuel := by
  rw [advanceByPosition, advance]
  cases f.pendingCall with
  | some count =>
    exact congrArg (· >>= _) (applyByPosition_eq E fuel { f with pendingCall := none } count)
  | none =>
    cases f.instr? with
    | some instr => exact stepByPosition_eq E fuel f instr
    | none => rfl

end Steps

end Frame

end LazyMachine
