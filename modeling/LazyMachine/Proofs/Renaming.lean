import LazyMachine.Proofs.Parallel
import Mathlib.Data.Nat.Basic
import Mathlib.Order.Basic

/-!
# Worlds alike up to the places of cells and functions

Two evaluations that do the same may differ in where on the heap they put new cells and functions,
because one of them has made objects that the other has no use for. A `Renaming` says which cells
and functions of one heap stand for which ones of another; all other objects are at the same place
in both. `Value.Alike ρ`, `HostCode.Alike ρ` and so on say that data differ in nothing but this, up
to `World.Alike ρ`.

Renamings grow with the heaps (`ρ ≤ σ`): what is alike stays so (`Value.Alike.mono` and the lemmas
after it), and an old object without a partner never gets one.

Host code is alike if it does alike things with alike values, now and in the future. Host code that
looks at places is therefore not even alike to itself; a world without such code, and without
references to objects that are not there, is `World.Impartial`.
-/

namespace LazyMachine

/-! ### Renamings -/

/-- A one-to-one correspondence between some of the first `left` places of one heap and some of the
first `right` places of another. -/
structure Matching where
  /-- The places of the one heap are those below. -/
  left : Nat
  /-- The places of the other heap are those below. -/
  right : Nat
  /-- The places that correspond to each other. -/
  pairs : Nat → Nat → Prop
  lt_left {i j : Nat} : pairs i j → i < left
  lt_right {i j : Nat} : pairs i j → j < right
  unique {i j i' j' : Nat} : pairs i j → pairs i' j' → (i = i' ↔ j = j')

namespace Matching

/-- A matching grows with the two heaps. No old place gets a new partner. -/
structure Grows (m n : Matching) : Prop where
  left : m.left ≤ n.left
  right : m.right ≤ n.right
  kept {i j : Nat} : m.pairs i j → n.pairs i j
  old {i j : Nat} : n.pairs i j → i < m.left ∨ j < m.right → m.pairs i j

/-- Matchings are ordered by growth. -/
instance : Preorder Matching where
  le := Grows
  le_refl _ := ⟨le_rfl, le_rfl, id, fun h _ => h⟩
  le_trans _ _ _ h h' :=
    ⟨h.left.trans h'.left, h.right.trans h'.right, fun hp => h'.kept (h.kept hp), fun hp hold =>
      h.old (h'.old hp (hold.imp h.left.trans_lt' h.right.trans_lt')) hold⟩

/-- Each of the first places stands for itself. -/
def diagonal (n : Nat) : Matching where
  left := n
  right := n
  pairs i j := i = j ∧ i < n
  lt_left h := h.2
  lt_right h := h.1 ▸ h.2
  unique h h' := by rw [h.1, h'.1]

/-- The two heaps grow by the given numbers of places, which have no partners. -/
def skip (m : Matching) (l r : Nat) : Matching where
  left := m.left + l
  right := m.right + r
  pairs := m.pairs
  lt_left h := Nat.lt_add_right l (m.lt_left h)
  lt_right h := Nat.lt_add_right r (m.lt_right h)
  unique := m.unique

/-- The next places of the two heaps correspond to each other. -/
def push (m : Matching) : Matching where
  left := m.left + 1
  right := m.right + 1
  pairs i j := m.pairs i j ∨ i = m.left ∧ j = m.right
  lt_left h := by
    rcases h with h | ⟨rfl, -⟩
    · exact Nat.lt_succ_of_lt (m.lt_left h)
    · exact Nat.lt_succ_self _
  lt_right h := by
    rcases h with h | ⟨-, rfl⟩
    · exact Nat.lt_succ_of_lt (m.lt_right h)
    · exact Nat.lt_succ_self _
  unique {i j i' j'} h h' := by
    rcases h with h | ⟨rfl, rfl⟩ <;> rcases h' with h' | ⟨rfl, rfl⟩
    · exact m.unique h h'
    · exact iff_of_false (m.lt_left h).ne (m.lt_right h).ne
    · exact iff_of_false (m.lt_left h').ne' (m.lt_right h').ne'
    · simp

/-- Places without partners let a matching grow. -/
theorem le_skip (m : Matching) (l r : Nat) : m ≤ m.skip l r :=
  ⟨Nat.le_add_right _ _, Nat.le_add_right _ _, id, fun h _ => h⟩

/-- A new pair of places lets a matching grow. -/
theorem le_push (m : Matching) : m ≤ m.push where
  left := Nat.le_succ _
  right := Nat.le_succ _
  kept := .inl
  old h hold := by
    rcases h with h | ⟨rfl, rfl⟩
    · exact h
    · exact absurd hold (by simp)

/-- The references that correspond to each other are the old ones and the last two. -/
theorem of_push {m : Matching} {kind : NodeKind} {a b : Ref kind}
    (h : m.push.pairs a.index b.index) :
    m.pairs a.index b.index ∨ a = ⟨m.left⟩ ∧ b = ⟨m.right⟩ := by
  obtain ⟨i⟩ := a
  obtain ⟨j⟩ := b
  exact h.imp_right fun h => ⟨congrArg Ref.mk h.1, congrArg Ref.mk h.2⟩

end Matching

/-- Which cells and which functions of one heap stand for which ones of another. -/
structure Renaming where
  /-- The cells. -/
  cells : Matching
  /-- The functions. -/
  functions : Matching

namespace Renaming

/-- A renaming grows if both of its matchings do. -/
instance : Preorder Renaming where
  le ρ σ := ρ.cells ≤ σ.cells ∧ ρ.functions ≤ σ.functions
  le_refl _ := ⟨le_rfl, le_rfl⟩
  le_trans _ _ _ h h' := ⟨h.1.trans h'.1, h.2.trans h'.2⟩

/-- The next cells of the two heaps correspond to each other. -/
def pushCell (ρ : Renaming) : Renaming :=
  { ρ with cells := ρ.cells.push }

/-- The next functions of the two heaps correspond to each other. -/
def pushFunction (ρ : Renaming) : Renaming :=
  { ρ with functions := ρ.functions.push }

variable {ρ σ : Renaming}

/-- A new pair of cells lets a renaming grow. -/
theorem le_pushCell (ρ : Renaming) : ρ ≤ ρ.pushCell :=
  ⟨ρ.cells.le_push, le_rfl⟩

/-- A new pair of functions lets a renaming grow. -/
theorem le_pushFunction (ρ : Renaming) : ρ ≤ ρ.pushFunction :=
  ⟨le_rfl, ρ.functions.le_push⟩

/-- Every object of a heap stands for itself. -/
def id (h : Heap) : Renaming :=
  ⟨.diagonal h.cells.size, .diagonal h.functions.size⟩

/-- Cells correspond to each other. -/
def Cells (ρ : Renaming) (a b : Ref .cell) : Prop :=
  ρ.cells.pairs a.index b.index

/-- Functions correspond to each other. -/
def Functions (ρ : Renaming) (f g : Ref .function) : Prop :=
  ρ.functions.pairs f.index g.index

/-- Lists are both empty or start with cells that correspond to each other. -/
def Lists (ρ : Renaming) : Option (Ref .cell) → Option (Ref .cell) → Prop :=
  Option.Rel ρ.Cells

/-- Identities of objects that correspond to each other; only those of cells are renamed. -/
inductive Places (ρ : Renaming) : Address → Address → Prop
  | cell {a b : Ref .cell} (h : ρ.Cells a b) :
      Places ρ (.node .cell a.index) (.node .cell b.index)
  | other {a : Address} (h : ∀ i, a ≠ .node .cell i) : Places ρ a a

theorem Cells.mono (hρσ : ρ ≤ σ) {a b : Ref .cell} (h : ρ.Cells a b) : σ.Cells a b :=
  hρσ.1.kept h

theorem Functions.mono (hρσ : ρ ≤ σ) {f g : Ref .function} (h : ρ.Functions f g) :
    σ.Functions f g :=
  hρσ.2.kept h

theorem Lists.mono (hρσ : ρ ≤ σ) {a b : Option (Ref .cell)} (h : ρ.Lists a b) : σ.Lists a b := by
  cases h with
  | none => exact .none
  | some h => exact .some (Cells.mono hρσ h)

theorem Places.mono (hρσ : ρ ≤ σ) {a b : Address} (h : ρ.Places a b) : σ.Places a b := by
  cases h with
  | cell h => exact .cell (Cells.mono hρσ h)
  | other h => exact .other h

/-- Of two corresponding lists both are empty or neither is. -/
theorem Lists.isNone_eq {a b : Option (Ref .cell)} (h : ρ.Lists a b) : a.isNone = b.isNone := by
  cases h <;> rfl

/-- Functions are told apart alike. -/
theorem Functions.beq_eq {f g f' g' : Ref .function} (h : ρ.Functions f f')
    (h' : ρ.Functions g g') : (f == g) = (f' == g') := by
  have hunique := ρ.functions.unique h h'
  obtain ⟨f⟩ := f
  obtain ⟨g⟩ := g
  obtain ⟨f'⟩ := f'
  obtain ⟨g'⟩ := g'
  rw [Bool.eq_iff_iff, beq_iff_eq, beq_iff_eq, Ref.mk.injEq, Ref.mk.injEq]
  exact hunique

/-- A renamed cell is one of the first heap's. -/
theorem Places.lt_left {i : Nat} {a : Address} (h : ρ.Places (.node .cell i) a) :
    i < ρ.cells.left := by
  cases h with
  | cell h => exact ρ.cells.lt_left h
  | other h => exact absurd rfl (h i)

/-- A cell that stands for another is one of the second heap's. -/
theorem Places.lt_right {i : Nat} {a : Address} (h : ρ.Places a (.node .cell i)) :
    i < ρ.cells.right := by
  cases h with
  | cell h => exact ρ.cells.lt_right h
  | other h => exact absurd rfl (h i)

/-- Objects are told apart alike. -/
theorem Places.unique {a b a' b' : Address} (h : ρ.Places a a') (h' : ρ.Places b b') :
    a = b ↔ a' = b' := by
  cases h with
  | cell h =>
    cases h' with
    | cell h' =>
      simp only [Address.node.injEq, true_and]
      exact ρ.cells.unique h h'
    | other h' => exact iff_of_false (h' _).symm (h' _).symm
  | other h =>
    cases h' with
    | cell h' => exact iff_of_false (h _) (h _)
    | other h' => rfl

end Renaming

/-! ### Data -/

/-- The value refers to no cell and to no function itself. -/
def Value.isRigid : Value → Bool
  | .list _ | .function _ => false
  | _ => true

/-- The foreign value that a value is. -/
def Value.foreign? : Value → Option Foreign
  | .foreign f => some f
  | _ => none

/-- Values that differ in nothing but places. -/
inductive Value.Alike (ρ : Renaming) : Value → Value → Prop
  | list {a b : Option (Ref .cell)} (h : ρ.Lists a b) : Alike ρ (.list a) (.list b)
  | function {f g : Ref .function} (h : ρ.Functions f g) : Alike ρ (.function f) (.function g)
  | same {v : Value} (h : v.isRigid = true) : Alike ρ v v

/-- Lists of values that differ in nothing but places. -/
abbrev Values (ρ : Renaming) : List Value → List Value → Prop :=
  List.Forall₂ (Value.Alike ρ)

namespace Value.Alike

variable {ρ σ : Renaming} {v w : Value}

theorem mono (hρσ : ρ ≤ σ) (h : v.Alike ρ w) : v.Alike σ w := by
  cases h with
  | list h => exact .list (h.mono hρσ)
  | function h => exact .function (h.mono hρσ)
  | same h => exact .same h

theorem of_eq (h : v = w) (hv : v.isRigid = true) : v.Alike ρ w :=
  h ▸ .same hv

/-- Alike values have the same type id. -/
theorem typeId_eq (h : v.Alike ρ w) : v.typeId = w.typeId := by
  cases h <;> rfl

/-- Alike values have the same type name. -/
theorem typeName_eq (h : v.Alike ρ w) : v.typeName = w.typeName := by
  cases h <;> rfl

/-- Alike values are the same number, or none. -/
theorem numeric?_eq (h : v.Alike ρ w) : v.numeric? = w.numeric? := by
  cases h <;> rfl

/-- Of two alike values both are unit or neither is. -/
theorem isUnit_eq (h : v.Alike ρ w) : v.isUnit = w.isUnit := by
  cases h <;> rfl

/-- Alike values are the same foreign value, or none. -/
theorem foreign?_eq (h : v.Alike ρ w) : v.foreign? = w.foreign? := by
  cases h <;> rfl

/-- Alike values stand for the same position, or for none. -/
theorem ordinal?_eq (h : v.Alike ρ w) : ordinal? v = ordinal? w := by
  cases h <;> rfl

end Value.Alike

theorem Values.mono {ρ σ : Renaming} (hρσ : ρ ≤ σ) {vs ws : List Value} (h : Values ρ vs ws) :
    Values σ vs ws :=
  h.imp fun _ _ h => h.mono hρσ

/-- Named values that differ in nothing but places. -/
def Entry.Alike (ρ : Renaming) (e e' : String × Value) : Prop :=
  e.1 = e'.1 ∧ e.2.Alike ρ e'.2

/-- Lists of named values that differ in nothing but places. -/
abbrev Entries (ρ : Renaming) : List (String × Value) → List (String × Value) → Prop :=
  List.Forall₂ (Entry.Alike ρ)

/-- Operations that differ in nothing but places. -/
inductive Operation.Alike (ρ : Renaming) : Operation → Operation → Prop
  | force {x x' : Value} (hx : x.Alike ρ x') : Alike ρ (.force x) (.force x')
  | binary (op : BinaryOp) {l r l' r' : Value} (hl : l.Alike ρ l') (hr : r.Alike ρ r') :
      Alike ρ (.binary op l r) (.binary op l' r')
  | unary (op : UnaryOp) {x x' : Value} (hx : x.Alike ρ x') : Alike ρ (.unary op x) (.unary op x')
  | equal {l r l' r' : Value} (hl : l.Alike ρ l') (hr : r.Alike ρ r') :
      Alike ρ (.equal l r) (.equal l' r')
  | notEqual {l r l' r' : Value} (hl : l.Alike ρ l') (hr : r.Alike ρ r') :
      Alike ρ (.notEqual l r) (.notEqual l' r')
  | length {x x' : Value} (hx : x.Alike ρ x') : Alike ρ (.length x) (.length x')
  | get {x key x' key' : Value} (hx : x.Alike ρ x') (hkey : key.Alike ρ key') :
      Alike ρ (.get x key) (.get x' key')
  | set {x key item x' key' item' : Value} (hx : x.Alike ρ x') (hkey : key.Alike ρ key')
      (hitem : item.Alike ρ item') : Alike ρ (.set x key item) (.set x' key' item')
  | head {x x' : Value} (hx : x.Alike ρ x') : Alike ρ (.head x) (.head x')
  | tail {x x' : Value} (hx : x.Alike ρ x') : Alike ρ (.tail x) (.tail x')
  | isNil {x x' : Value} (hx : x.Alike ρ x') : Alike ρ (.isNil x) (.isNil x')
  | nilOf {x x' : Value} (hx : x.Alike ρ x') : Alike ρ (.nilOf x) (.nilOf x')
  | generate {acc item acc' item' : Value} (hacc : acc.Alike ρ acc')
      (hitem : item.Alike ρ item') : Alike ρ (.generate acc item) (.generate acc' item')
  | finalize {acc acc' : Value} (hacc : acc.Alike ρ acc') :
      Alike ρ (.finalize acc) (.finalize acc')
  | tagOf {x x' : Value} (hx : x.Alike ρ x') : Alike ρ (.tagOf x) (.tagOf x')
  | untag {x x' : Value} (hx : x.Alike ρ x') : Alike ρ (.untag x) (.untag x')
  | render {x x' : Value} (hx : x.Alike ρ x') (format : Format) :
      Alike ρ (.render x format) (.render x' format)
  | renderAs {x x' : Value} (hx : x.Alike ρ x') (spec : String) :
      Alike ρ (.renderAs x spec) (.renderAs x' spec)
  | convert {x x' : Value} (hx : x.Alike ρ x') (target : Kind) :
      Alike ρ (.convert x target) (.convert x' target)
  | read (text : String) (target : Kind) : Alike ρ (.read text target) (.read text target)
  | typeOf {x x' : Value} (hx : x.Alike ρ x') : Alike ρ (.typeOf x) (.typeOf x')
  | call {callee callee' : Value} {args args' : List Value} (hcallee : callee.Alike ρ callee')
      (hargs : Values ρ args args') : Alike ρ (.call callee args) (.call callee' args')

/-- Host code that does alike things with alike values, however the heaps have grown by then. -/
inductive HostCode.Alike : Renaming → HostCode → HostCode → Prop
  | done {ρ : Renaming} {v v' : Value} (hv : v.Alike ρ v') : Alike ρ (.done v) (.done v')
  | stop {ρ : Renaming} (i : Interrupt) : Alike ρ (.stop i) (.stop i)
  | fail {ρ : Renaming} (e : RuntimeError) : Alike ρ (.fail e) (.fail e)
  | perform {ρ : Renaming} {o o' : Operation} {next next' : Value → HostCode} (ho : o.Alike ρ o')
      (hnext : ∀ σ, ρ ≤ σ → ∀ v v', v.Alike σ v' → Alike σ (next v) (next' v')) :
      Alike ρ (.perform o next) (.perform o' next')
  | readVariable {ρ : Renaming} (name : String) {next next' : Value → HostCode}
      (hnext : ∀ σ, ρ ≤ σ → ∀ v v', v.Alike σ v' → Alike σ (next v) (next' v')) :
      Alike ρ (.readVariable name next) (.readVariable name next')
  | count {ρ : Renaming} (t : Tally) {next next' : HostCode} (hnext : Alike ρ next next') :
      Alike ρ (.count t next) (.count t next')
  | latch {ρ : Renaming} (index : Nat) {next next' : Bool → HostCode}
      (hnext : ∀ b, Alike ρ (next b) (next' b)) : Alike ρ (.latch index next) (.latch index next')
  | makeList {ρ : Renaming} {items items' : List Value} {next next' : Value → HostCode}
      (hitems : Values ρ items items')
      (hnext : ∀ σ, ρ ≤ σ → ∀ v v', v.Alike σ v' → Alike σ (next v) (next' v')) :
      Alike ρ (.makeList items next) (.makeList items' next')
  | makeThunk {ρ : Renaming} {body body' : HostCode} {next next' : Value → HostCode}
      (hbody : Alike ρ body body')
      (hnext : ∀ σ, ρ ≤ σ → ∀ v v', v.Alike σ v' → Alike σ (next v) (next' v')) :
      Alike ρ (.makeThunk body next) (.makeThunk body' next')
  | makeFunction {ρ : Renaming} (name : String) (arity : Nat) {body body' : List Value → HostCode}
      {next next' : Value → HostCode}
      (hbody : ∀ σ, ρ ≤ σ → ∀ vs vs', Values σ vs vs' → Alike σ (body vs) (body' vs'))
      (hnext : ∀ σ, ρ ≤ σ → ∀ v v', v.Alike σ v' → Alike σ (next v) (next' v')) :
      Alike ρ (.makeFunction name arity body next) (.makeFunction name arity body' next')
  | makeNaturals {ρ : Renaming} (first : Int32) {next next' : Value → HostCode}
      (hnext : ∀ σ, ρ ≤ σ → ∀ v v', v.Alike σ v' → Alike σ (next v) (next' v')) :
      Alike ρ (.makeNaturals first next) (.makeNaturals first next')

theorem Operation.Alike.mono {ρ σ : Renaming} (hρσ : ρ ≤ σ) {o o' : Operation}
    (h : o.Alike ρ o') : o.Alike σ o' := by
  cases h <;> constructor <;>
    first
    | exact Value.Alike.mono hρσ ‹_›
    | exact Values.mono hρσ ‹_›

/-- Alike host code stays alike as the renaming grows. -/
theorem HostCode.Alike.mono {ρ σ : Renaming} (hρσ : ρ ≤ σ) {code code' : HostCode}
    (h : code.Alike ρ code') : code.Alike σ code' := by
  induction h generalizing σ with
  | done hv => exact .done (hv.mono hρσ)
  | stop i => exact .stop i
  | fail e => exact .fail e
  | perform ho hnext => exact .perform (ho.mono hρσ) fun τ hτ => hnext τ (hρσ.trans hτ)
  | readVariable name hnext => exact .readVariable name fun τ hτ => hnext τ (hρσ.trans hτ)
  | count t _ ih => exact .count t (ih hρσ)
  | latch index _ ih => exact .latch index fun b => ih b hρσ
  | makeList hitems hnext => exact .makeList (hitems.mono hρσ) fun τ hτ => hnext τ (hρσ.trans hτ)
  | makeThunk _ hnext ih => exact .makeThunk (ih hρσ) fun τ hτ => hnext τ (hρσ.trans hτ)
  | makeFunction name arity hbody hnext =>
    exact .makeFunction name arity (fun τ hτ => hbody τ (hρσ.trans hτ)) fun τ hτ =>
      hnext τ (hρσ.trans hτ)
  | makeNaturals first hnext => exact .makeNaturals first fun τ hτ => hnext τ (hρσ.trans hτ)

/-! ### Objects -/

/-- Computations that differ in nothing but places. -/
inductive Deferred.Alike (ρ : Renaming) : Deferred → Deferred → Prop
  | native {code code' : HostCode} (h : code.Alike ρ code') : Alike ρ (.native code) (.native code')
  | call {f g : Ref .function} (h : ρ.Functions f g) : Alike ρ (.call f) (.call g)

/-- Evaluations that have come equally far. -/
inductive ThunkState.Alike (ρ : Renaming) : ThunkState → ThunkState → Prop
  | waiting {d d' : Deferred} (h : d.Alike ρ d') : Alike ρ (.waiting d) (.waiting d')
  | running {d d' : Deferred} (h : d.Alike ρ d') : Alike ρ (.running d) (.running d')
  | done : Alike ρ .done .done

/-- Thunks in alike states, with alike values if they have any. -/
inductive Thunk.Alike (ρ : Renaming) : Thunk → Thunk → Prop
  | valued {s s' : ThunkState} {v v' : Value} (hs : s.Alike ρ s') (h : v.Alike ρ v') :
      Alike ρ ⟨s, some v⟩ ⟨s', some v'⟩
  | waiting {d d' : Deferred} (h : d.Alike ρ d') : Alike ρ (.waiting d) (.waiting d')
  | running {d d' : Deferred} (h : d.Alike ρ d') : Alike ρ (.running d) (.running d')
  | spent : Alike ρ ⟨.done, none⟩ ⟨.done, none⟩

/-- Forced thunks with alike values are alike. -/
theorem Thunk.Alike.forced {ρ : Renaming} {v v' : Value} (h : v.Alike ρ v') :
    (Thunk.forced v).Alike ρ (.forced v') :=
  .valued .done h

/-- Clauses for the same types. -/
structure Clause.Alike (ρ : Renaming) (c c' : Clause) : Prop where
  params : c.params = c'.params
  target : ρ.Functions c.target c'.target

/-- Tables of the same name and arity. -/
structure OverloadTable.Alike (ρ : Renaming) (t t' : OverloadTable) : Prop where
  name : t.name = t'.name
  arity : t.arity = t'.arity
  clauses : List.Forall₂ (Clause.Alike ρ) t.clauses t'.clauses

/-- Bodies that do alike things with alike arguments. -/
inductive Body.Alike (ρ : Renaming) : Body → Body → Prop
  | native {code code' : List Value → HostCode}
      (h : ∀ σ, ρ ≤ σ → ∀ vs vs', Values σ vs vs' → (code vs).Alike σ (code' vs')) :
      Alike ρ (.native code) (.native code')
  | code (program : Program) (chunk : Nat) {captures captures' : List Value}
      (h : Values ρ captures captures') :
      Alike ρ (.code program chunk captures) (.code program chunk captures')
  | overloaded {table table' : OverloadTable} (h : table.Alike ρ table') :
      Alike ρ (.overloaded table) (.overloaded table')

/-- Functions of the same name and arity. -/
structure Function.Alike (ρ : Renaming) (f f' : Function) : Prop where
  name : f.name = f'.name
  arity : f.arity = f'.arity
  applied : Values ρ f.applied f'.applied
  body : f.body.Alike ρ f'.body

/-- Alike functions lack the same number of arguments. -/
theorem Function.Alike.remaining_eq {ρ : Renaming} {f f' : Function} (h : f.Alike ρ f') :
    f.remaining = f'.remaining := by
  rw [Function.remaining, Function.remaining, h.arity, h.applied.length_eq]

/-- Cells that differ in nothing but places. -/
structure Cell.Alike (ρ : Renaming) (c c' : Cell) : Prop where
  head : c.head.Alike ρ c'.head
  tail : c.tail.Alike ρ c'.tail

/-- Variants that differ in nothing but places. -/
structure Variant.Alike (ρ : Renaming) (v v' : Variant) : Prop where
  tag : v.tag = v'.tag
  payload : v.payload.Alike ρ v'.payload

/-- Modules that differ in nothing but places. -/
structure Module.Alike (ρ : Renaming) (m m' : Module) : Prop where
  name : m.name = m'.name
  exports : Entries ρ m.exports.fields m'.exports.fields

section Growing

variable {ρ σ : Renaming} (hρσ : ρ ≤ σ)

include hρσ

theorem Entries.mono {es es' : List (String × Value)} (h : Entries ρ es es') : Entries σ es es' :=
  h.imp fun _ _ h => ⟨h.1, h.2.mono hρσ⟩

theorem Deferred.Alike.mono {d d' : Deferred} (h : d.Alike ρ d') : d.Alike σ d' := by
  cases h with
  | native h => exact .native (h.mono hρσ)
  | call h => exact .call (h.mono hρσ)

theorem ThunkState.Alike.mono {s s' : ThunkState} (h : s.Alike ρ s') : s.Alike σ s' := by
  cases h with
  | waiting h => exact .waiting (h.mono hρσ)
  | running h => exact .running (h.mono hρσ)
  | done => exact .done

theorem Thunk.Alike.mono {t t' : Thunk} (h : t.Alike ρ t') : t.Alike σ t' := by
  cases h with
  | valued hs h => exact .valued (hs.mono hρσ) (h.mono hρσ)
  | waiting h => exact .waiting (h.mono hρσ)
  | running h => exact .running (h.mono hρσ)
  | spent => exact .spent

theorem OverloadTable.Alike.mono {t t' : OverloadTable} (h : t.Alike ρ t') : t.Alike σ t' :=
  ⟨h.name, h.arity, h.clauses.imp fun _ _ h => ⟨h.params, h.target.mono hρσ⟩⟩

theorem Body.Alike.mono {b b' : Body} (h : b.Alike ρ b') : b.Alike σ b' := by
  cases h with
  | native h => exact .native fun τ hτ => h τ (hρσ.trans hτ)
  | code program chunk h => exact .code program chunk (h.mono hρσ)
  | overloaded h => exact .overloaded (h.mono hρσ)

theorem Function.Alike.mono {f f' : Function} (h : f.Alike ρ f') : f.Alike σ f' :=
  ⟨h.name, h.arity, h.applied.mono hρσ, h.body.mono hρσ⟩

theorem Cell.Alike.mono {c c' : Cell} (h : c.Alike ρ c') : c.Alike σ c' :=
  ⟨h.head.mono hρσ, h.tail.mono hρσ⟩

theorem Variant.Alike.mono {v v' : Variant} (h : v.Alike ρ v') : v.Alike σ v' :=
  ⟨h.tag, h.payload.mono hρσ⟩

theorem Module.Alike.mono {m m' : Module} (h : m.Alike ρ m') : m.Alike σ m' :=
  ⟨h.name, h.exports.mono hρσ⟩

end Growing

/-! ### Heaps and worlds -/

/-- Arrays whose objects are alike place by place. -/
def Arrays {α : Type} (R : α → α → Prop) (a a' : Array α) : Prop :=
  ∀ i : Nat, Option.Rel R a[i]? a'[i]?

/-- Heaps that agree, up to places, on all objects but cells and functions. -/
structure Heap.AlikeElse (ρ : Renaming) (h h' : Heap) : Prop where
  records : Arrays (fun r r' => Entries ρ r.fields r'.fields) h.records h'.records
  variants : Arrays (Variant.Alike ρ) h.variants h'.variants
  thunks : Arrays (Thunk.Alike ρ) h.thunks h'.thunks
  modules : Arrays (Module.Alike ρ) h.modules h'.modules
  stamp : h.nextStamp = h'.nextStamp

/-- Heaps that differ in nothing but places. -/
structure Heap.Alike (ρ : Renaming) (h h' : Heap) : Prop extends h.AlikeElse ρ h' where
  left : h.cells.size = ρ.cells.left ∧ h.functions.size = ρ.functions.left
  right : h'.cells.size = ρ.cells.right ∧ h'.functions.size = ρ.functions.right
  cell {a b : Ref .cell} : ρ.Cells a b → (h.cell a).Alike ρ (h'.cell b)
  function {f g : Ref .function} : ρ.Functions f g → (h.function f).Alike ρ (h'.function g)

/-- Hosts with the same variables, bound to alike values, and the same counts. -/
structure Host.Alike (ρ : Renaming) (h h' : Host) : Prop where
  bindings : Entries ρ h.bindings h'.bindings
  runs : h.runs = h'.runs
  calls : h.calls = h'.calls
  latches : h.latches = h'.latches

/-- Worlds that differ in nothing but the places of cells and functions. -/
structure World.Alike (ρ : Renaming) (w w' : World) : Prop where
  heap : w.heap.Alike ρ w'.heap
  context : w.context = w'.context
  host : w.host.Alike ρ w'.host
  executed : w.executed = w'.executed

/-- The world refers to no object that is not there, and its host code does not look at places. -/
def World.Impartial (w : World) : Prop :=
  w.Alike (.id w.heap) w

/-! ### Arrays of objects -/

namespace Arrays

variable {α : Type} {R S : α → α → Prop} {a a' : Array α}

theorem mono (h : Arrays R a a') (hRS : ∀ x y, R x y → S x y) : Arrays S a a' := by
  intro i
  generalize a[i]? = x, a'[i]? = x', h i = hx
  cases hx with
  | none => exact .none
  | some hx => exact .some (hRS _ _ hx)

/-- Related arrays have entries at the same places. -/
theorem isSome_eq (h : Arrays R a a') (i : Nat) : a[i]?.isSome = a'[i]?.isSome := by
  generalize a[i]? = x, a'[i]? = x', h i = hx
  cases hx <;> rfl

/-- Related arrays have the same size. -/
theorem size_eq (h : Arrays R a a') : a.size = a'.size := by
  have hlt (i : Nat) : i < a.size ↔ i < a'.size := by
    have hiff := h.isSome_eq i
    rw [Bool.eq_iff_iff, Option.isSome_iff_exists, Option.isSome_iff_exists] at hiff
    simpa [Array.getElem?_eq_some_iff] using hiff
  exact Nat.le_antisymm (Nat.le_of_not_lt fun hi => (hlt _).mp hi |>.false)
    (Nat.le_of_not_lt fun hi => (hlt _).mpr hi |>.false)

/-- Related arrays have related entries, also out of bounds. -/
theorem getD (h : Arrays R a a') {d : α} (hd : R d d) (i : Nat) : R (a.getD i d) (a'.getD i d) := by
  rw [Array.getD_eq_getD_getElem?, Array.getD_eq_getD_getElem?]
  generalize a[i]? = x, a'[i]? = x', h i = hx
  cases hx with
  | none => exact hd
  | some hx => exact hx

/-- Related arrays stay so when related entries are added. -/
theorem push {x x' : α} (h : Arrays R a a') (hx : R x x') : Arrays R (a.push x) (a'.push x') := by
  intro i
  rw [Array.getElem?_push, Array.getElem?_push, h.size_eq]
  split
  · exact .some hx
  · exact h i

/-- Related arrays stay so when related entries are put at one place. -/
theorem setIfInBounds {x x' : α} (h : Arrays R a a') (hx : R x x') (i : Nat) :
    Arrays R (a.setIfInBounds i x) (a'.setIfInBounds i x') := by
  intro j
  rw [Array.getElem?_setIfInBounds, Array.getElem?_setIfInBounds, h.size_eq]
  split
  · split
    · exact .some hx
    · exact .none
  · exact h j

/-- Related lists are related arrays. -/
theorem of_forall₂ {l l' : List α} (h : List.Forall₂ R l l') : Arrays R l.toArray l'.toArray := by
  intro i
  rw [List.getElem?_toArray, List.getElem?_toArray]
  induction h generalizing i with
  | nil => exact .none
  | cons hx _ ih =>
    cases i with
    | zero => exact .some hx
    | succ i => exact ih i

end Arrays

/-! ### Named values -/

namespace Entries

variable {ρ : Renaming} {r r' : Record}

/-- A name is at the same position of alike records. -/
theorem position?_eq (h : Entries ρ r.fields r'.fields) (name : String) :
    r.position? name = r'.position? name := by
  unfold Record.position?
  generalize r.fields = es, r'.fields = es' at h
  induction h with
  | nil => rfl
  | cons he _ ih => rw [List.findIdx?_cons, List.findIdx?_cons, he.1, ih]

/-- A name has alike values in alike records. -/
theorem get? (h : Entries ρ r.fields r'.fields) (name : String) :
    Option.Rel (Value.Alike ρ) (r.get? name) (r'.get? name) := by
  unfold Record.get?
  generalize r.fields = es, r'.fields = es' at h
  induction h with
  | nil => exact .none
  | cons he _ ih =>
    rw [List.find?_cons, List.find?_cons, he.1]
    split
    · exact .some he.2
    · exact ih

/-- A position has alike fields in alike records. -/
theorem getElem? (h : Entries ρ r.fields r'.fields) (i : Nat) :
    Option.Rel (Entry.Alike ρ) r.fields[i]? r'.fields[i]? := by
  generalize r.fields = es, r'.fields = es' at h
  have hget := Arrays.of_forall₂ h i
  rwa [List.getElem?_toArray, List.getElem?_toArray] at hget

/-- A position has alike values in alike records. -/
theorem at? (h : Entries ρ r.fields r'.fields) (i : Nat) :
    Option.Rel (Value.Alike ρ) (r.at? i) (r'.at? i) := by
  unfold Record.at?
  generalize r.fields[i]? = e, r'.fields[i]? = e', h.getElem? i = he
  cases he with
  | none => exact .none
  | some he => exact .some he.2

/-- Alike fields stay alike when one of them is replaced by alike ones. -/
theorem set {es es' : List (String × Value)} (h : Entries ρ es es') (i : Nat)
    {e e' : String × Value} (he : Entry.Alike ρ e e') : Entries ρ (es.set i e) (es'.set i e') := by
  induction h generalizing i with
  | nil => exact .nil
  | cons hfirst hrest ih =>
    cases i with
    | zero => exact .cons he hrest
    | succ i => exact .cons hfirst (ih i)

/-- Alike records stay alike when the value at a position is replaced by alike ones. -/
theorem setAt? (h : Entries ρ r.fields r'.fields) (i : Nat) {v v' : Value} (hv : v.Alike ρ v') :
    Option.Rel (fun a b : Record => Entries ρ a.fields b.fields) (r.setAt? i v)
      (r'.setAt? i v') := by
  unfold Record.setAt?
  generalize r.fields[i]? = e, r'.fields[i]? = e', h.getElem? i = he
  cases he with
  | none => exact .none
  | some he => exact .some (h.set i ⟨he.1, hv⟩)

end Entries

/-! ### What is on alike heaps -/

section Lookup

variable {h k : Heap}

/-- A retained cell is what it was. -/
theorem Heap.Retains.cell_eq (hk : h.Retains k) {a : Ref .cell} (ha : a.index < h.cells.size) :
    k.cell a = h.cell a :=
  hk.cells.getD_eq ha default

/-- A retained function is what it was. -/
theorem Heap.Retains.function_eq (hk : h.Retains k) {f : Ref .function}
    (hf : f.index < h.functions.size) : k.function f = h.function f :=
  hk.functions.getD_eq hf default

/-- A new cell is on the heap. -/
theorem Heap.lt_addCell (h : Heap) (c : Cell) : h.cells.size < (h.addCell c).2.cells.size := by
  simp [Heap.addCell]

/-- A new cell is found at the next place. -/
theorem Heap.cell_addCell (h : Heap) (c : Cell) : (h.addCell c).2.cell ⟨h.cells.size⟩ = c := by
  simp [Heap.cell, Heap.addCell]

/-- A new record is found at the next place. -/
theorem Heap.record_addRecord (h : Heap) (r : Record) :
    (h.addRecord r).2.record ⟨h.records.size⟩ = r := by
  simp [Heap.record, Heap.addRecord]

/-- A new variant is found at the next place. -/
theorem Heap.variant_addVariant (h : Heap) (v : Variant) :
    (h.addVariant v).2.variant ⟨h.variants.size⟩ = v := by
  simp [Heap.variant, Heap.addVariant]

/-- A new function is found at the next place. -/
theorem Heap.function_addFunction (h : Heap) (f : Function) :
    (h.addFunction f).2.function ⟨h.functions.size⟩ = f := by
  simp [Heap.function, Heap.addFunction]

end Lookup

/-- Agreement of two heaps persists as the renaming grows. -/
theorem Heap.AlikeElse.mono {ρ σ : Renaming} (hρσ : ρ ≤ σ) {h h' : Heap}
    (hh : h.AlikeElse ρ h') : h.AlikeElse σ h' where
  records := hh.records.mono fun _ _ h => h.mono hρσ
  variants := hh.variants.mono fun _ _ h => h.mono hρσ
  thunks := hh.thunks.mono fun _ _ h => h.mono hρσ
  modules := hh.modules.mono fun _ _ h => h.mono hρσ
  stamp := hh.stamp

namespace Heap.Alike

variable {ρ σ : Renaming} {h h' : Heap}

/-- Alike heaps have alike records at each place. -/
theorem record (hh : h.Alike ρ h') (r : Ref .record) :
    Entries ρ (h.record r).fields (h'.record r).fields :=
  Arrays.getD hh.records .nil r.index

/-- Alike heaps have alike variants at each place. -/
theorem variant (hh : h.Alike ρ h') (v : Ref .variant) : (h.variant v).Alike ρ (h'.variant v) :=
  Arrays.getD (d := default) hh.variants ⟨rfl, .same rfl⟩ v.index

/-- Alike heaps have alike thunks at each place. -/
theorem thunk (hh : h.Alike ρ h') (t : Ref .thunk) : (h.thunk t).Alike ρ (h'.thunk t) :=
  Arrays.getD (d := default) hh.thunks (.forced (.same rfl)) t.index

/-- Alike heaps have alike modules at each place. -/
theorem module (hh : h.Alike ρ h') (m : Ref .module) : (h.module m).Alike ρ (h'.module m) :=
  Arrays.getD hh.modules ⟨rfl, .nil⟩ m.index

/-- A thunk has alike memos in alike heaps, or none in both. -/
theorem memo? (hh : h.Alike ρ h') (t : Ref .thunk) :
    Option.Rel (Value.Alike ρ) (h.memo? t) (h'.memo? t) := by
  unfold Heap.memo?
  generalize h.thunk t = x, h'.thunk t = x', hh.thunk t = hx
  cases hx with
  | valued _ h => exact .some h
  | waiting h => exact .none
  | running h => exact .none
  | spent => exact .none

/-- Following memos for some steps from alike values leads to alike values. -/
theorem follow (hh : h.Alike ρ h') (steps : Nat) {v v' : Value} (hv : v.Alike ρ v') :
    (h.follow steps v).Alike ρ (h'.follow steps v') := by
  induction steps generalizing v v' with
  | zero => exact hv
  | succ steps ih =>
    cases hv with
    | list h => exact .list h
    | function h => exact .function h
    | @same v hv =>
      cases v with
      | lazy t =>
        simp only [Heap.follow]
        generalize h.memo? t = x, h'.memo? t = x', hh.memo? t = hx
        cases hx with
        | none => exact .same hv
        | some h => exact ih h
      | _ => exact .same hv

/-- Memos of alike heaps lead from alike values to alike values. -/
theorem resolve (hh : h.Alike ρ h') {v v' : Value} (hv : v.Alike ρ v') :
    (h.resolve v).Alike ρ (h'.resolve v') := by
  unfold Heap.resolve
  rw [hh.thunks.size_eq]
  exact hh.follow _ hv

/-- Forced thunks come to an end behind both of two alike values, or behind neither. -/
theorem resolve? (hh : h.Alike ρ h') {v v' : Value} (hv : v.Alike ρ v') :
    Option.Rel (Value.Alike ρ) (h.resolve? v) (h'.resolve? v') := by
  unfold Heap.resolve?
  generalize h.resolve v = u, h'.resolve v' = u', hh.resolve hv = hu
  cases hu with
  | list h => exact .some (.list h)
  | function h => exact .some (.function h)
  | @same u hu =>
    cases u with
    | lazy t =>
      dsimp only
      generalize h.memo? t = x, h'.memo? t = x', hh.memo? t = hx
      cases hx with
      | none => exact .some (.same hu)
      | some => exact .none
    | _ => exact .some (.same hu)

/-- Alike variants have a payload in both heaps or in neither. -/
theorem hasPayload?_eq (hh : h.Alike ρ h') {v v' : Variant} (hv : v.Alike ρ v') :
    h.hasPayload? v = h'.hasPayload? v' := by
  unfold Heap.hasPayload?
  generalize h.resolve? v.payload = x, h'.resolve? v'.payload = x', hh.resolve? hv.payload = hx
  cases hx with
  | none => rfl
  | some hu => simp only [Option.map_some, hu.isUnit_eq]

/-- Cells that correspond to each other are there. -/
theorem cell_lt (hh : h.Alike ρ h') {a b : Ref .cell} (hab : ρ.Cells a b) :
    a.index < h.cells.size ∧ b.index < h'.cells.size :=
  ⟨hh.left.1 ▸ ρ.cells.lt_left hab, hh.right.1 ▸ ρ.cells.lt_right hab⟩

/-- Corresponding functions are on their heaps. -/
theorem function_lt (hh : h.Alike ρ h') {f g : Ref .function} (hfg : ρ.Functions f g) :
    f.index < h.functions.size ∧ g.index < h'.functions.size :=
  ⟨hh.left.2 ▸ ρ.functions.lt_left hfg, hh.right.2 ▸ ρ.functions.lt_right hfg⟩

/-- Alike cells may be added. -/
theorem addCell (hh : h.Alike ρ h') {c c' : Cell} (hc : c.Alike ρ c') :
    ρ.pushCell.Cells (h.addCell c).1 (h'.addCell c').1 ∧
      (h.addCell c).2.Alike ρ.pushCell (h'.addCell c').2 := by
  refine ⟨.inr ⟨hh.left.1, hh.right.1⟩,
    { hh.toAlikeElse.mono ρ.le_pushCell with left := ?_, right := ?_, cell := ?_, function := ?_ }⟩
  · exact ⟨by rw [Heap.addCell, Array.size_push, hh.left.1]; rfl, hh.left.2⟩
  · exact ⟨by rw [Heap.addCell, Array.size_push, hh.right.1]; rfl, hh.right.2⟩
  · intro a b hab
    rcases Matching.of_push hab with hab | ⟨rfl, rfl⟩
    · rw [(h.extends_addCell c).cell_eq (hh.cell_lt hab).1,
        (h'.extends_addCell c').cell_eq (hh.cell_lt hab).2]
      exact (hh.cell hab).mono ρ.le_pushCell
    · rw [← hh.left.1, ← hh.right.1, Heap.cell_addCell, Heap.cell_addCell]
      exact hc.mono ρ.le_pushCell
  · exact fun hfg => (hh.function hfg).mono ρ.le_pushCell

/-- Alike functions may be added. -/
theorem addFunction (hh : h.Alike ρ h') {f f' : Function} (hf : f.Alike ρ f') :
    ρ.pushFunction.Functions (h.addFunction f).1 (h'.addFunction f').1 ∧
      (h.addFunction f).2.Alike ρ.pushFunction (h'.addFunction f').2 := by
  refine ⟨.inr ⟨hh.left.2, hh.right.2⟩,
    { hh.toAlikeElse.mono ρ.le_pushFunction with
      left := ?_, right := ?_, cell := ?_, function := ?_ }⟩
  · exact ⟨hh.left.1, by rw [Heap.addFunction, Array.size_push, hh.left.2]; rfl⟩
  · exact ⟨hh.right.1, by rw [Heap.addFunction, Array.size_push, hh.right.2]; rfl⟩
  · exact fun hab => (hh.cell hab).mono ρ.le_pushFunction
  · intro a b hab
    rcases Matching.of_push hab with hab | ⟨rfl, rfl⟩
    · rw [(h.extends_addFunction f).function_eq (hh.function_lt hab).1,
        (h'.extends_addFunction f').function_eq (hh.function_lt hab).2]
      exact (hh.function hab).mono ρ.le_pushFunction
    · rw [← hh.left.2, ← hh.right.2, Heap.function_addFunction, Heap.function_addFunction]
      exact hf.mono ρ.le_pushFunction

/-- Alike heaps stay so when alike records are added, at the same place. -/
theorem addRecord (hh : h.Alike ρ h') {r r' : Record} (hr : Entries ρ r.fields r'.fields) :
    (h.addRecord r).1 = (h'.addRecord r').1 ∧ (h.addRecord r).2.Alike ρ (h'.addRecord r').2 :=
  ⟨congrArg Ref.mk hh.records.size_eq, { hh with records := hh.records.push hr }⟩

/-- Alike heaps stay so when alike variants are added, at the same place. -/
theorem addVariant (hh : h.Alike ρ h') {v v' : Variant} (hv : v.Alike ρ v') :
    (h.addVariant v).1 = (h'.addVariant v').1 ∧ (h.addVariant v).2.Alike ρ (h'.addVariant v').2 :=
  ⟨congrArg Ref.mk hh.variants.size_eq, { hh with variants := hh.variants.push hv }⟩

/-- Alike heaps stay so when alike thunks are added, at the same place. -/
theorem addThunk (hh : h.Alike ρ h') {t t' : Thunk} (ht : t.Alike ρ t') :
    (h.addThunk t).1 = (h'.addThunk t').1 ∧ (h.addThunk t).2.Alike ρ (h'.addThunk t').2 :=
  ⟨congrArg Ref.mk hh.thunks.size_eq, { hh with thunks := hh.thunks.push ht }⟩

/-- Alike heaps stay so when both take a stamp. -/
theorem freshStamp (hh : h.Alike ρ h') : h.freshStamp.2.Alike ρ h'.freshStamp.2 :=
  { hh with stamp := congrArg (· + 1) hh.stamp }

/-- Alike heaps stay so when a thunk is set to alike states. -/
theorem setThunk (hh : h.Alike ρ h') (r : Ref .thunk) {t t' : Thunk} (ht : t.Alike ρ t') :
    (h.setThunk r t).Alike ρ (h'.setThunk r t') :=
  { hh with thunks := hh.thunks.setIfInBounds ht r.index }

/-- Alike heaps stay so when a thunk is completed with alike values, which then has alike memos. -/
theorem complete (hh : h.Alike ρ h') (r : Ref .thunk) {v v' : Value} (hv : v.Alike ρ v') :
    (h.complete r v).1.Alike ρ (h'.complete r v').1 ∧
      (h.complete r v).2.Alike ρ (h'.complete r v').2 := by
  have hfirst : ((h.memo? r).getD v).Alike ρ ((h'.memo? r).getD v') := by
    generalize h.memo? r = x, h'.memo? r = x', hh.memo? r = hx
    cases hx with
    | none => exact hv
    | some hfirst => exact hfirst
  exact ⟨hfirst, hh.setThunk r (.forced hfirst)⟩

/-- Alike heaps stay so when a chain is completed with alike values. -/
theorem completeChain (hh : h.Alike ρ h') (chain : List (Ref .thunk)) {v v' : Value}
    (hv : v.Alike ρ v') :
    (h.completeChain chain v).1.Alike ρ (h'.completeChain chain v').1 ∧
      (h.completeChain chain v).2.Alike ρ (h'.completeChain chain v').2 := by
  induction chain with
  | nil => exact ⟨hv, hh⟩
  | cons r chain ih => exact ih.2.complete r ih.1

/-- Alike heaps stay so when a thunk is given back. -/
theorem release (hh : h.Alike ρ h') (r : Ref .thunk) : (h.release r).Alike ρ (h'.release r) := by
  unfold Heap.release
  generalize h.thunk r = x, h'.thunk r = x', hh.thunk r = hx
  cases hx with
  | running hd => exact hh.setThunk r (.waiting hd)
  | valued hs hv => simpa using hh
  | waiting _ => exact hh
  | spent => exact hh

/-- Alike heaps stay so when a chain is given back. -/
theorem releaseChain (hh : h.Alike ρ h') (chain : List (Ref .thunk)) :
    (h.releaseChain chain).Alike ρ (h'.releaseChain chain) := by
  induction chain generalizing h h' with
  | nil => exact hh
  | cons r chain ih => exact ih (hh.release r)

end Heap.Alike

/-! ### Garbage -/

/-- Further cells and functions on the heap, and nothing else. -/
structure Heap.Pads (h k : Heap) : Prop extends h.Extends k where
  records_eq : k.records = h.records := by rfl
  variants_eq : k.variants = h.variants := by rfl
  modules_eq : k.modules = h.modules := by rfl
  stamp_eq : k.nextStamp = h.nextStamp := by rfl

namespace Heap.Pads

variable {h k l : Heap}

theorem refl (h : Heap) : h.Pads h :=
  { Heap.Extends.refl h with }

/-- A cell that nothing refers to is padding. -/
theorem addCell (h : Heap) (c : Cell) : h.Pads (h.addCell c).2 :=
  { h.extends_addCell c with }

/-- A function that nothing refers to is padding. -/
theorem addFunction (h : Heap) (f : Function) : h.Pads (h.addFunction f).2 :=
  { h.extends_addFunction f with }

/-- Padding of padding is padding. -/
theorem trans (hk : h.Pads k) (hl : k.Pads l) : h.Pads l where
  toRetains := hk.toRetains.trans hl.toRetains
  thunks := hl.thunks.trans hk.thunks
  records_eq := hl.records_eq.trans hk.records_eq
  variants_eq := hl.variants_eq.trans hk.variants_eq
  modules_eq := hl.modules_eq.trans hk.modules_eq
  stamp_eq := hl.stamp_eq.trans hk.stamp_eq

end Heap.Pads

/-- The renaming for heaps of which each has further cells and functions without a partner. -/
def Renaming.padded (ρ : Renaming) (h h' k k' : Heap) : Renaming where
  cells := ρ.cells.skip (k.cells.size - h.cells.size) (k'.cells.size - h'.cells.size)
  functions :=
    ρ.functions.skip (k.functions.size - h.functions.size) (k'.functions.size - h'.functions.size)

section Padding

variable {ρ : Renaming} {h h' k k' : Heap}

/-- Padding lets a renaming grow. -/
theorem Renaming.le_padded (ρ : Renaming) (h h' k k' : Heap) : ρ ≤ ρ.padded h h' k k' :=
  ⟨ρ.cells.le_skip _ _, ρ.functions.le_skip _ _⟩

/-- Garbage on either heap makes no difference. -/
theorem Heap.Alike.pad (hh : h.Alike ρ h') (hk : h.Pads k) (hk' : h'.Pads k') :
    k.Alike (ρ.padded h h' k k') k' where
  records := by
    rw [hk.records_eq, hk'.records_eq]
    exact (hh.toAlikeElse.mono (ρ.le_padded h h' k k')).records
  variants := by
    rw [hk.variants_eq, hk'.variants_eq]
    exact (hh.toAlikeElse.mono (ρ.le_padded h h' k k')).variants
  thunks := by
    rw [hk.thunks, hk'.thunks]
    exact (hh.toAlikeElse.mono (ρ.le_padded h h' k k')).thunks
  modules := by
    rw [hk.modules_eq, hk'.modules_eq]
    exact (hh.toAlikeElse.mono (ρ.le_padded h h' k k')).modules
  stamp := by rw [hk.stamp_eq, hk'.stamp_eq, hh.stamp]
  left := by
    -- padding only adds: the old cells are as many as before or fewer
    have hcells := Nat.le_of_not_lt fun hlt => (hk.cells.size_le hlt).false
    have hfunctions := Nat.le_of_not_lt fun hlt => (hk.functions.size_le hlt).false
    have hleft := hh.left
    simp only [Renaming.padded, Matching.skip]
    omega
  right := by
    have hcells := Nat.le_of_not_lt fun hlt => (hk'.cells.size_le hlt).false
    have hfunctions := Nat.le_of_not_lt fun hlt => (hk'.functions.size_le hlt).false
    have hright := hh.right
    simp only [Renaming.padded, Matching.skip]
    omega
  cell {a b} hab := by
    have hpair : ρ.Cells a b := hab
    rw [hk.cell_eq (hh.cell_lt hpair).1, hk'.cell_eq (hh.cell_lt hpair).2]
    exact (hh.cell hpair).mono (ρ.le_padded h h' k k')
  function {f g} hfg := by
    have hpair : ρ.Functions f g := hfg
    rw [hk.function_eq (hh.function_lt hpair).1, hk'.function_eq (hh.function_lt hpair).2]
    exact (hh.function hpair).mono (ρ.le_padded h h' k k')

theorem Host.Alike.mono {σ : Renaming} (hρσ : ρ ≤ σ) {host host' : Host}
    (hhost : host.Alike ρ host') : host.Alike σ host' :=
  { hhost with bindings := hhost.bindings.mono hρσ }

/-- A variable holds alike values in alike hosts. -/
theorem Host.Alike.valueOf {host host' : Host} (hhost : host.Alike ρ host') (name : String) :
    ((host.valueOf? name).getD .unit).Alike ρ ((host'.valueOf? name).getD .unit) := by
  have hbindings : Entries ρ (Record.mk host.bindings).fields (Record.mk host'.bindings).fields :=
    hhost.bindings
  have hvalue : Option.Rel (Value.Alike ρ) (host.valueOf? name) (host'.valueOf? name) :=
    hbindings.get? name
  generalize host.valueOf? name = v, host'.valueOf? name = v' at hvalue
  cases hvalue with
  | none => exact .same rfl
  | some h => exact h

/-- Alike hosts stay alike when both count a run. -/
theorem Host.Alike.count {host host' : Host} (hhost : host.Alike ρ host') (t : Tally) :
    (host.count t).Alike ρ (host'.count t) := by
  cases t with
  | runs => exact { hhost with runs := congrArg (· + 1) hhost.runs }
  | calls => exact { hhost with calls := congrArg (· + 1) hhost.calls }

/-- The worlds are alike on other heaps that are alike. -/
theorem World.Alike.withHeap {σ : Renaming} {w w' : World} (hw : w.Alike ρ w') (hρσ : ρ ≤ σ)
    (hk : k.Alike σ k') : { w with heap := k }.Alike σ { w' with heap := k' } :=
  ⟨hk, hw.context, hw.host.mono hρσ, hw.executed⟩

end Padding

end LazyMachine
