import LazyMachine.Proofs.Calling
import LazyMachine.Proofs.Interrupts

/-!
# Choosing among overloads

A function over an overload table forces its arguments from left to right and hands them to the
target of the first clause that fits their types. The target may be a function of any kind that
lacks as many arguments as the table has, a function over another table among them.

* `ForcesInTurn`: the arguments that are forced, with their values;
* `Clause.Fits`: what a clause asks of the types;
* `Dispatches`: the way through the tables to the function whose body gets the arguments, and
  `Body.Gives` what comes of that body;
* `dispatches_of_bind`: whatever binding yields, if there are as many arguments as a function lacks,
  is what a body at the end of such a way yields. So no target of a clause is given fewer arguments
  than it lacks, and none is left over.

`overload_selects` puts this together for every function over a table on a heap of the host.
-/

namespace LazyMachine

open Heap (Evolves)

variable {E : Engine} {w w' : World} {f g : Ref .function} {args full forced vs us : List Value}

/-! ### Forcing arguments -/

/-- Each of the values is forced, one after the other, from left to right. -/
inductive ForcesInTurn (E : Engine) : List Value → World → List Value → World → Prop
  | nil (w : World) : ForcesInTurn E [] w [] w
  | cons {v u : Value} {vs us : List Value} {w w₁ w' : World} (hv : E (.force v) w = .ok u w₁)
      (hvs : ForcesInTurn E vs w₁ us w') : ForcesInTurn E (v :: vs) w (u :: us) w'

/-- All values are forced if each can be forced when its turn comes. -/
theorem forceAll_eq_ok_iff : forceAll E vs w = .ok us w' ↔ ForcesInTurn E vs w us w' := by
  constructor
  · intro h
    induction vs generalizing us w with
    | nil =>
      cases h
      exact .nil _
    | cons v vs ih =>
      obtain ⟨u, w₁, hv, h⟩ := of_bind_ok h
      obtain ⟨us, w₂, hvs, h⟩ := of_bind_ok h
      cases h
      exact .cons hv (ih hvs)
  · intro h
    induction h with
    | nil w => rfl
    | cons hv _ ih => exact (bind_ok hv).trans (bind_ok ih)

namespace ForcesInTurn

/-- Each value that is forced gives one. -/
theorem length_eq (h : ForcesInTurn E vs w us w') : us.length = vs.length := by
  induction h with
  | nil => rfl
  | cons _ _ ih => exact congrArg (· + 1) ih

/-- The heap evolves along the forces. -/
theorem evolves (hE : ∀ o, (E o).Preserves Evolves) (h : ForcesInTurn E vs w us w') :
    w.heap.Evolves w'.heap := by
  induction h with
  | nil => exact .refl
  | cons hv _ ih => exact (((hE _ _).of_ok hv) trivial).trans ih

/-- Values that can all be forced leave the context as it is, if host code records what stops
it. -/
theorem context_eq (hE : ∀ o, (E o).Faithful HostCode.Honest fun _ => True)
    (h : ForcesInTurn E vs w us w') (hhonest : w.heap.Honest) (hlive : w.context.Live) :
    w'.context = w.context := by
  induction h with
  | nil => rfl
  | cons hv _ ih =>
    obtain ⟨hhonest₁, hsame, -⟩ := ((hE _ _ hhonest hlive).of_ok hv) trivial
    have hsame : _ = _ := hsame
    exact (ih hhonest₁ (hsame ▸ hlive)).trans hsame

end ForcesInTurn

/-! ### Clauses -/

/-- There are as many arguments as parameters, and each parameter asks for nothing or for the type
of its argument. -/
def Clause.Fits (c : Clause) (args : List Value) : Prop :=
  List.Forall₂ (fun param arg => param = none ∨ param = some arg.typeId) c.params args

/-- A clause accepts the arguments that fit it. -/
theorem Clause.accepts_iff_fits {c : Clause} (hlength : c.params.length = args.length) :
    c.accepts args = true ↔ c.Fits args := by
  have hparam (param : Option Nat) (arg : Value) :
      param.all (· == arg.typeId) = true ↔ param = none ∨ param = some arg.typeId := by
    cases param <;> simp
  rw [Clause.accepts, Clause.Fits, List.forall₂_iff_zip, List.all_eq_true]
  constructor
  · exact fun h => ⟨hlength, fun hmem => (hparam _ _).mp (h _ hmem)⟩
  · exact fun h x hmem => (hparam _ _).mpr (h.2 hmem)

/-- The first clause that fits is the one that is found. -/
theorem OverloadTable.find?_eq_some {t : OverloadTable} {i : Nat} {c : Clause}
    (hlength : ∀ c ∈ t.clauses, c.params.length = args.length) (hi : t.clauses[i]? = some c)
    (hc : c.Fits args)
    (hfirst : ∀ (j : Nat) (d : Clause), j < i → t.clauses[j]? = some d → ¬ d.Fits args) :
    t.clauses.find? (·.accepts args) = some c := by
  rw [List.find?_eq_some_iff_getElem]
  obtain ⟨hlt, rfl⟩ := List.getElem?_eq_some_iff.mp hi
  refine ⟨(Clause.accepts_iff_fits (hlength _ (List.getElem_mem _))).mpr hc, i, hlt, rfl,
    fun j hj => ?_⟩
  rw [Bool.not_eq_true', ← Bool.not_eq_true,
    Clause.accepts_iff_fits (hlength _ (List.getElem_mem _))]
  exact hfirst j _ hj (List.getElem?_eq_getElem _)

/-- A clause has a parameter for every argument, and its target, also later on, lacks as many. -/
theorem Heap.Suited.clause {h h' : Heap} {table : OverloadTable} {c : Clause} (hh : h.Suited)
    (htable : (h.function f).body = .overloaded table) (hc : c ∈ table.clauses)
    (e : h.Evolves h') :
    c.params.length = (h.function f).arity ∧
      (h'.function c.target).remaining = (h.function f).arity := by
  obtain ⟨hparams, hmade, hremaining⟩ := (hh.formed.function f).table table htable c hc
  rw [hh.table htable, Heap.function_of_kept e.retains.functions hmade]
  exact ⟨hparams, hremaining⟩

/-- A table that selects something has forced all arguments and found a clause. -/
theorem OverloadTable.forces_of_select {table : OverloadTable} {target : Ref .function}
    (hselect : table.select E args w = .ok (target, forced) w') :
    ForcesInTurn E args w forced w' ∧
      ∃ c, table.clauses.find? (·.accepts forced) = some c ∧ c.target = target := by
  obtain ⟨us, w₁, hforced, hpick⟩ := of_bind_ok hselect
  cases hc : table.clauses.find? (·.accepts us) with
  | some c =>
    simp only [hc] at hpick
    cases hpick
    exact ⟨forceAll_eq_ok_iff.mp hforced, c, hc, rfl⟩
  | none =>
    simp only [hc] at hpick
    cases hpick

/-! ### Binding to a function over a table -/

/-- What a function does once all of its arguments are there. -/
def Body.enter (E : Engine) (fuel : Nat) (full rest : List Value) : Body → Eval Application
  | .native host => do return .value (← (host full).run E) rest
  | .code program chunk captures => return .enter program chunk (captures ++ full) rest
  | .overloaded table => do
    let (target, forced) ← table.select E full
    return (← bind E fuel target forced).withRest rest

/-- With enough arguments on a live context, binding enters the body. -/
theorem bind_enough (hlive : w.context.interrupt? = none)
    (hargs : (w.heap.function f).remaining ≤ args.length) (E : Engine) (fuel : Nat) :
    bind E (fuel + 1) f args w =
      (w.heap.function f).body.enter E fuel
        ((w.heap.function f).applied ++ args.take (w.heap.function f).remaining)
        (args.drop (w.heap.function f).remaining) w := by
  have hheap : Eval.heap w = .ok w.heap w := rfl
  rw [bind, bind_ok (Eval.ensureLive_ok hlive), bind_ok hheap]
  dsimp only
  rw [if_neg (Nat.not_lt.mpr hargs)]
  cases (w.heap.function f).body <;> rfl

/-- A body over a table picks a clause by the values of the arguments and binds its target to
them. -/
theorem enter_overloaded {table : OverloadTable} {rest : List Value}
    (hforced : ForcesInTurn E full w forced w') (fuel : Nat) :
    (Body.overloaded table).enter E fuel full rest w =
      (match table.clauses.find? (Clause.accepts · forced) with
       | some c => do return (← bind E fuel c.target forced).withRest rest
       | none => Eval.fail (.noOverload table.name (forced.map Value.typeName))) w' := by
  simp only [Body.enter, OverloadTable.select, bind_assoc]
  rw [bind_ok (forceAll_eq_ok_iff.mpr hforced)]
  cases table.clauses.find? (·.accepts forced) with
  | some c => rfl
  | none => rfl

/-! ### Through the tables -/

/-- `f` lacks as many arguments as there are and hands them on, through the targets of clauses, to
`g`, which is over no table: `full` are the arguments of its body, and `w'` is the world once all
arguments on the way have been forced. -/
inductive Dispatches (E : Engine) :
    Ref .function → List Value → World → Ref .function → List Value → World → Prop
  | body {f : Ref .function} {args : List Value} {w : World}
      (hbody : ∀ table, (w.heap.function f).body ≠ .overloaded table)
      (hargs : args.length = (w.heap.function f).remaining) :
      Dispatches E f args w f ((w.heap.function f).applied ++ args) w
  | clause {f g : Ref .function} {args forced full : List Value} {w w₁ w' : World}
      {table : OverloadTable} {c : Clause}
      (htable : (w.heap.function f).body = .overloaded table)
      (hargs : args.length = (w.heap.function f).remaining)
      (hforced : ForcesInTurn E ((w.heap.function f).applied ++ args) w forced w₁)
      (hc : table.clauses.find? (·.accepts forced) = some c)
      (hnext : Dispatches E c.target forced w₁ g full w') :
      Dispatches E f args w g full w'

/-- A body over no table has all of its arguments: host code is run on them, other code is handed
back with them, and none is left over. -/
inductive Body.Gives (E : Engine) :
    Body → List Value → World → Application → World → Prop
  | native {host : List Value → HostCode} {full : List Value} {v : Value} {w w' : World}
      (hrun : (host full).run E w = .ok v w') : Gives E (.native host) full w (.value v []) w'
  | code (program : Program) (chunk : Nat) (captures full : List Value) (w : World) :
      Gives E (.code program chunk captures) full w (.enter program chunk (captures ++ full) []) w

/-- What a body gives has no arguments left. -/
theorem Body.Gives.rest_eq {body : Body} {a : Application} (h : body.Gives E full w a w') :
    a.rest = [] := by
  cases h <;> rfl

/-- Without further arguments an application is as it was. -/
theorem Application.withRest_nil (a : Application) : a.withRest [] = a := by
  cases a <;> simp [withRest]

/-- Whatever binding as many arguments as are lacking yields, a body at the end of a way through the
tables yields. -/
theorem dispatches_of_bind (hE : ∀ o, (E o).Preserves Evolves) {fuel : Nat} (hw : w.heap.Suited)
    (hargs : args.length = (w.heap.function f).remaining) {a : Application}
    (hbind : bind E fuel f args w = .ok a w') :
    ∃ g full w₁, Dispatches E f args w g full w₁ ∧
      (w₁.heap.function g).body.Gives E full w₁ a w' := by
  -- every table on the way takes a unit of fuel
  induction fuel generalizing f args w a w' with
  | zero => cases hbind
  | succ fuel ih =>
    cases hlive : w.context.interrupt? with
    | some i =>
      have hstopped : bind E (fuel + 1) f args w = .error i w :=
        bind_error (ensureLive_interrupted hlive)
      rw [hstopped] at hbind
      cases hbind
    | none =>
      rw [bind_enough hlive (Nat.le_of_eq hargs.symm), List.take_of_length_le (Nat.le_of_eq hargs),
        List.drop_of_length_le (Nat.le_of_eq hargs)] at hbind
      cases hbody : (w.heap.function f).body with
      | native code =>
        rw [hbody] at hbind
        obtain ⟨v, w₁, hrun, hdone⟩ := of_bind_ok hbind
        cases hdone
        exact ⟨f, _, w, .body (by simp [hbody]) hargs, hbody ▸ .native hrun⟩
      | code program chunk captures =>
        rw [hbody] at hbind
        cases hbind
        exact ⟨f, _, w, .body (by simp [hbody]) hargs, hbody ▸ .code ..⟩
      | overloaded table =>
        rw [hbody] at hbind
        obtain ⟨⟨target, forced⟩, w₁, hselect, hrest⟩ := of_bind_ok hbind
        obtain ⟨a', w₂, hnext, hdone⟩ := of_bind_ok hrest
        rw [Application.withRest_nil] at hdone
        cases hdone
        obtain ⟨hforced, c, hc, rfl⟩ := OverloadTable.forces_of_select hselect
        have e := hforced.evolves hE
        -- the target lacks as many arguments as have been forced
        have hlength := hw.length_full f (Nat.not_lt.mpr (Nat.le_of_eq hargs.symm))
        rw [List.take_of_length_le (Nat.le_of_eq hargs)] at hlength
        have hnone : forced.length = (w₁.heap.function c.target).remaining := by
          rw [hforced.length_eq, hlength,
            (hw.clause hbody (List.mem_of_find?_eq_some hc) e).2]
        obtain ⟨g, full, w₃, hway, hgives⟩ := ih (hw.evolves e) hnone hnext
        exact ⟨g, full, w₃, .clause hbody hargs hforced hc hway, hgives⟩

/-- On every heap of the host, a function over a table whose arguments can be forced forces exactly
these, from left to right. The first clause that fits them decides: binding gives what binding the
target to the forced arguments gives, and the arguments beyond these are left over. The target lacks
as many arguments as there are, so whatever comes of it is what a body has made of all of its
arguments, however many tables are on the way, and nothing else is left over. If no clause fits, the
types of the forced arguments are reported. Nothing of this depends on the mode; host code that
records what stops it leaves the context as it was. -/
theorem overload_selects {admits : Value → Prop} {w w' : World}
    (hserved : ({} : Heap).Served admits w.heap) (hlive : w.context.interrupt? = none)
    {f : Ref .function} {table : OverloadTable}
    (htable : (w.heap.function f).body = .overloaded table) {args forced : List Value}
    (hargs : (w.heap.function f).remaining ≤ args.length) (level : Nat)
    (hforced : ForcesInTurn (engine level)
      ((w.heap.function f).applied ++ args.take (w.heap.function f).remaining) w forced w') :
    let surplus := args.drop (w.heap.function f).remaining
    forced.length = table.arity ∧
    (∀ (i : Nat) (c : Clause), table.clauses[i]? = some c → c.Fits forced →
      (∀ (j : Nat) (d : Clause), j < i → table.clauses[j]? = some d → ¬ d.Fits forced) →
      (w'.heap.function c.target).remaining = forced.length ∧ ∀ fuel,
        bind (engine level) (fuel + 1) f args w =
          (do return (← bind (engine level) fuel c.target forced).withRest surplus) w' ∧
        ∀ a w'', bind (engine level) fuel c.target forced w' = .ok a w'' →
          (a.withRest surplus).rest = surplus ∧
          ∃ g full w₁, Dispatches (engine level) c.target forced w' g full w₁ ∧
            (w₁.heap.function g).body.Gives (engine level) full w₁ a w'') ∧
    ((∀ c ∈ table.clauses, ¬ c.Fits forced) → ∀ fuel,
      bind (engine level) (fuel + 1) f args w =
        Eval.fail (.noOverload table.name (forced.map Value.typeName)) w') ∧
    (w.heap.Honest → w.context.Live → w'.context = w.context) := by
  have hE := engine_evolves level
  have hw := hserved.suited
  have e := hforced.evolves hE
  have harity : forced.length = (w.heap.function f).arity := by
    rw [hforced.length_eq, hw.length_full f (Nat.not_lt.mpr hargs)]
  -- the tables were built so, and forcing has not changed the targets
  have hclause {c : Clause} (hc : c ∈ table.clauses) :
      c.params.length = forced.length ∧ (w'.heap.function c.target).remaining = forced.length :=
    harity ▸ hw.clause htable hc e
  have hbind (fuel : Nat) := (bind_enough hlive hargs (engine level) fuel).trans
    (htable ▸ enter_overloaded hforced fuel)
  refine ⟨harity.trans (hw.table htable), fun i c hi hc hfirst => ?_, fun hnone fuel => ?_,
    hforced.context_eq (engine_faithful Embedding.standard_faithful level)⟩
  · have hremaining := (hclause (List.mem_of_getElem? hi)).2
    refine ⟨hremaining, fun fuel => ⟨?_, fun a w'' ha => ?_⟩⟩
    · rw [hbind, OverloadTable.find?_eq_some (fun c hc => (hclause hc).1) hi hc hfirst]
    · obtain ⟨g, full, w₁, hway, hgives⟩ :=
        dispatches_of_bind hE (hw.evolves e) hremaining.symm ha
      rw [Application.rest_withRest, hgives.rest_eq, List.nil_append]
      exact ⟨rfl, g, full, w₁, hway, hgives⟩
  · have hfind : table.clauses.find? (·.accepts forced) = none := by
      refine List.find?_eq_none.mpr fun c hc haccepts => hnone c hc ?_
      exact (Clause.accepts_iff_fits (hclause hc).1).mp haccepts
    rw [hbind, hfind]

/-- A table over a partial application, for truth values and for integers. -/
def wrappingTable : OverloadTable :=
  ⟨"wrap", 1, [⟨[some Kind.bool.id], ⟨2⟩⟩, ⟨[some Kind.int.id], ⟨2⟩⟩]⟩

/-- The outer table is built by adding its clauses. -/
theorem wrappingTable_built : wrappingTable.Built World.furnished.heap := by
  have hbool : (⟨"wrap", 1, []⟩ : OverloadTable).addClause World.furnished.heap
      [some Kind.bool.id] ⟨2⟩ = .ok ⟨"wrap", 1, [⟨[some Kind.bool.id], ⟨2⟩⟩]⟩ := rfl
  have hint : (⟨"wrap", 1, [⟨[some Kind.bool.id], ⟨2⟩⟩]⟩ : OverloadTable).addClause
      World.furnished.heap [some Kind.int.id] ⟨2⟩ = .ok wrappingTable := rfl
  exact .clause (.clause (.empty "wrap" 1) (by decide) hbool) (by decide) hint

/-- A function over that table, and a thunk that yields an integer. -/
def World.wrapped : World where
  heap := { World.furnished.heap with
    functions := World.furnished.heap.functions.push (.ofTable wrappingTable)
    thunks := World.furnished.heap.thunks.push (.waiting (.native (.done (.int 8)))) }

/-- The host can make that heap. -/
theorem served_wrapped :
    ({} : Heap).Served (fun v => v.isLazy = false) World.wrapped.heap := by
  have htable := served_furnished.acted 0 (.overloaded wrappingTable_built) rfl
  exact htable.acted 0 (.deferred (.native (.done (.int 8)))) rfl

/-- The thunk is forced, the second clause is selected, and its target hands the argument on through
a table of its own; the surplus argument is left over. -/
theorem overload_selects_wrapped :
    ∃ w' w'', ForcesInTurn (engine 3) [.lazy ⟨1⟩] World.wrapped [.int 8] w' ∧
      bind (engine 3) 4 ⟨3⟩ [.lazy ⟨1⟩, .unit] World.wrapped =
        (do return (← bind (engine 3) 3 ⟨2⟩ [.int 8]).withRest [.unit]) w' ∧
      bind (engine 3) 3 ⟨2⟩ [.int 8] w' = .ok (.value (.list (some ⟨2⟩)) []) w'' := by
  have hforced : ForcesInTurn (engine 3) [.lazy ⟨1⟩] World.wrapped [.int 8] _ := .cons rfl (.nil _)
  have hselects := @overload_selects _ _ _ served_wrapped rfl ⟨3⟩ wrappingTable rfl
    [.lazy ⟨1⟩, .unit] _ (by decide) 3 hforced
  have hfirst (j : Nat) (d : Clause) (hj : j < 1) (hd : wrappingTable.clauses[j]? = some d) :
      ¬ d.Fits [.int 8] := by
    cases Nat.lt_one_iff.mp hj
    cases hd
    rintro (_ | ⟨h, -⟩)
    cases h <;> contradiction
  have htarget := (hselects.2.1 1 _ rfl (.cons (.inr rfl) .nil) hfirst).2 3
  exact ⟨_, _, hforced, htarget.1, rfl⟩

end LazyMachine
