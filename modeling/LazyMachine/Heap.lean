import LazyMachine.Operation

/-!
# The heap

Objects of each kind are kept in an array of their own and never removed. Only thunks change after
they are made: a waiting thunk is claimed when its evaluation starts, and then either forced, which
is final, or returned to waiting.
-/

namespace LazyMachine

/-- A cell of a list. The tail is a list or a lazy value that yields one. -/
structure Cell where
  /-- The element. -/
  head : Value
  /-- What follows it. -/
  tail : Value

/-- A reference to a cell that was never made reads as a list of unit. -/
instance : Inhabited Cell :=
  ⟨⟨.unit, .list none⟩⟩

/-- Named fields in order. Names may repeat; a lookup by name sees the first. -/
structure Record where
  /-- The fields. -/
  fields : List (String × Value)
deriving Inhabited

namespace Record

/-- The number of fields. -/
def length (r : Record) : Nat :=
  r.fields.length

/-- The position of the first field of a name. -/
def position? (r : Record) (name : String) : Option Nat :=
  r.fields.findIdx? (·.1 = name)

/-- The value of the first field of a name. -/
def get? (r : Record) (name : String) : Option Value :=
  (r.fields.find? (·.1 = name)).map (·.2)

/-- The value at a position. -/
def at? (r : Record) (i : Nat) : Option Value :=
  r.fields[i]?.map (·.2)

/-- The name at a position. -/
def nameAt? (r : Record) (i : Nat) : Option String :=
  r.fields[i]?.map (·.1)

/-- The record with the value at a position replaced. -/
def setAt? (r : Record) (i : Nat) (v : Value) : Option Record :=
  match r.fields[i]? with
  | some (name, _) => some ⟨r.fields.set i (name, v)⟩
  | none => none

/-- The fields of one record followed by those of another. -/
def append (a b : Record) : Record :=
  ⟨a.fields ++ b.fields⟩

end Record

/-- A tagged value; unit stands for no payload. -/
structure Variant where
  /-- The tag. -/
  tag : Str
  /-- The payload. -/
  payload : Value
deriving Inhabited

/-- A name and exported bindings. -/
structure Module where
  /-- The name. -/
  name : String
  /-- The exports. -/
  exports : Record
deriving Inhabited

/-- The computation behind a thunk. -/
inductive Deferred where
  /-- Host code. -/
  | native (code : HostCode)
  /-- A function of no arguments. -/
  | call (f : Ref .function)

/-- How far the evaluation of a thunk has come. -/
inductive ThunkState where
  /-- Not started. -/
  | waiting (d : Deferred)
  /-- Claimed by an evaluation under way. -/
  | running (d : Deferred)
  /-- Over; the computation is dropped. -/
  | done

/-- A deferred computation whose value is kept. The value is set once; the state is kept beside
it. -/
structure Thunk where
  /-- How far its evaluation has come. -/
  state : ThunkState
  /-- The value, once one is published. -/
  memo? : Option Value

namespace Thunk

/-- A thunk whose evaluation has not started. -/
@[match_pattern]
abbrev waiting (d : Deferred) : Thunk :=
  ⟨.waiting d, none⟩

/-- A thunk claimed by an evaluation under way. -/
@[match_pattern]
abbrev running (d : Deferred) : Thunk :=
  ⟨.running d, none⟩

/-- A thunk that has been evaluated. -/
@[match_pattern]
abbrev forced (v : Value) : Thunk :=
  ⟨.done, some v⟩

/-- What matters of a thunk is its value, and without one how far its evaluation has come. -/
@[elab_as_elim, cases_eliminator]
theorem casesValue {motive : Thunk → Prop} (valued : ∀ s v, motive ⟨s, some v⟩)
    (waiting : ∀ d, motive (waiting d)) (running : ∀ d, motive (running d))
    (spent : motive ⟨.done, none⟩) (t : Thunk) : motive t :=
  match t with
  | ⟨s, some v⟩ => valued s v
  | .waiting d => waiting d
  | .running d => running d
  | ⟨.done, none⟩ => spent

end Thunk

/-- The thunk that stands for one that was never made is evaluated. -/
instance : Inhabited Thunk :=
  ⟨.forced .unit⟩

/-- A clause of an overload table. A missing parameter accepts every type. -/
structure Clause where
  /-- The accepted type ids. -/
  params : List (Option Nat)
  /-- The function it selects. -/
  target : Ref .function

/-- Functions selected by the types of their arguments; the first matching clause wins. -/
structure OverloadTable where
  /-- The name of the overloaded function. -/
  name : String
  /-- The number of arguments. -/
  arity : Nat
  /-- The clauses. -/
  clauses : List Clause

/-- What a function does with its arguments. -/
inductive Body where
  /-- Host code. -/
  | native (code : List Value → HostCode)
  /-- A chunk of a program; the locals are the captures followed by the arguments. -/
  | code (program : Program) (chunk : Nat) (captures : List Value)
  /-- A choice by the types of the arguments. -/
  | overloaded (table : OverloadTable)

/-- A curried function. -/
structure Function where
  /-- The name. -/
  name : String
  /-- The number of arguments of the body. -/
  arity : Nat
  /-- The arguments given so far. -/
  applied : List Value
  /-- The body, which runs once all arguments are there. -/
  body : Body

/-- A reference to a function that was never made reads as one that yields unit. -/
instance : Inhabited Function :=
  ⟨⟨"", 0, [], .native fun _ => .done .unit⟩⟩

/-- The number of arguments still needed. -/
def Function.remaining (f : Function) : Nat :=
  f.arity - f.applied.length

/-- All objects. -/
structure Heap where
  /-- Cells of lists. -/
  cells : Array Cell := #[]
  /-- Records. -/
  records : Array Record := #[]
  /-- Variants. -/
  variants : Array Variant := #[]
  /-- Thunks. -/
  thunks : Array Thunk := #[]
  /-- Functions. -/
  functions : Array Function := #[]
  /-- Modules. -/
  modules : Array Module := #[]
  /-- The next unused stamp. -/
  nextStamp : Nat := 0
deriving Inhabited

namespace Heap

/-- The cell of a reference. -/
def cell (h : Heap) (r : Ref .cell) : Cell :=
  h.cells.getD r.index default

/-- The record of a reference. -/
def record (h : Heap) (r : Ref .record) : Record :=
  h.records.getD r.index default

/-- The variant of a reference. -/
def variant (h : Heap) (r : Ref .variant) : Variant :=
  h.variants.getD r.index default

/-- The thunk of a reference. -/
def thunk (h : Heap) (r : Ref .thunk) : Thunk :=
  h.thunks.getD r.index default

/-- The function of a reference. -/
def function (h : Heap) (r : Ref .function) : Function :=
  h.functions.getD r.index default

/-- The module of a reference. -/
def module (h : Heap) (r : Ref .module) : Module :=
  h.modules.getD r.index default

/-- Adds a cell. -/
def addCell (h : Heap) (c : Cell) : Ref .cell × Heap :=
  (⟨h.cells.size⟩, { h with cells := h.cells.push c })

/-- Adds a record. -/
def addRecord (h : Heap) (r : Record) : Ref .record × Heap :=
  (⟨h.records.size⟩, { h with records := h.records.push r })

/-- Adds a variant. -/
def addVariant (h : Heap) (v : Variant) : Ref .variant × Heap :=
  (⟨h.variants.size⟩, { h with variants := h.variants.push v })

/-- Adds a thunk. -/
def addThunk (h : Heap) (t : Thunk) : Ref .thunk × Heap :=
  (⟨h.thunks.size⟩, { h with thunks := h.thunks.push t })

/-- Adds a function. -/
def addFunction (h : Heap) (f : Function) : Ref .function × Heap :=
  (⟨h.functions.size⟩, { h with functions := h.functions.push f })

/-- Adds a module. -/
def addModule (h : Heap) (m : Module) : Ref .module × Heap :=
  (⟨h.modules.size⟩, { h with modules := h.modules.push m })

/-- Takes an unused stamp. -/
def freshStamp (h : Heap) : Nat × Heap :=
  (h.nextStamp, { h with nextStamp := h.nextStamp + 1 })

/-- Replaces the state of a thunk. -/
def setThunk (h : Heap) (r : Ref .thunk) (t : Thunk) : Heap :=
  { h with thunks := h.thunks.setIfInBounds r.index t }

/-- The value of a thunk, if it has one. -/
def memo? (h : Heap) (r : Ref .thunk) : Option Value :=
  (h.thunk r).memo?

/-- Publishes the value of a thunk and gives the value that it has from then on, which is the first
one ever published. -/
def complete (h : Heap) (r : Ref .thunk) (v : Value) : Value × Heap :=
  let first := (h.memo? r).getD v
  (first, h.setThunk r (.forced first))

/-- Returns a claimed thunk to waiting, unless it has a value already. -/
def release (h : Heap) (r : Ref .thunk) : Heap :=
  match h.thunk r with
  | .running d => h.setThunk r (.waiting d)
  | _ => h

/-- Publishes a value in every thunk of a chain, the last one first; each takes over what the one
after it has. -/
def completeChain (h : Heap) (chain : List (Ref .thunk)) (v : Value) : Value × Heap :=
  chain.foldr (fun r (v, h) => h.complete r v) (v, h)

/-- Returns every claimed thunk of a chain to waiting. -/
def releaseChain (h : Heap) (chain : List (Ref .thunk)) : Heap :=
  chain.foldl release h

/-- Follows the values of forced thunks, at most `steps` of them. -/
def follow (h : Heap) : (steps : Nat) → Value → Value
  | 0, v => v
  | steps + 1, v =>
    match v with
    | .lazy t =>
      match h.memo? t with
      | some w => h.follow steps w
      | none => v
    | v => v

/-- Where following the values of forced thunks leads, past at most as many thunks as there are.
Unless they go round in a circle, that is their end. -/
def resolve (h : Heap) (v : Value) : Value :=
  h.follow (h.thunks.size + 1) v

/-- The value behind forced thunks; nothing is evaluated. There is none if they go round in a
circle: following them would not end. -/
def resolve? (h : Heap) (v : Value) : Option Value :=
  match h.resolve v with
  | .lazy t => if (h.memo? t).isSome then none else some (.lazy t)
  | u => some u

/-- Whether a variant has a payload other than unit, if forced thunks come to an end in it. -/
def hasPayload? (h : Heap) (v : Variant) : Option Bool :=
  (h.resolve? v.payload).map fun payload => !payload.isUnit

end Heap

end LazyMachine
