import LazyMachine.Proofs.Outcome

/-!
# Contexts that are not live

Every operation looks at the context before it does anything else: on a context that is not live it
answers with the interrupt of that context, and the world stays as it is. The one exception is a
request to render with a spec that names no format, which is refused before the context is looked
at. On a context with a recorded failure the refusal changes nothing, but on a suspended one it
records a failure of its own. Besides, the refusal names the type of the value behind forced thunks,
which is never found if these go round in a circle.

* `perform_interrupted` covers every operation whose spec, if it has one, names a format.
* `short_circuits_iff` says for which operations and contexts an operation short-circuits.
-/

namespace LazyMachine

/-- The value that the operation is to render with a spec that names no format, if it is such a
request. -/
def Operation.refused? : Operation → Option Value
  | .renderAs x spec => if (Format.ofSpec? spec).isNone then some x else none
  | _ => none

namespace Context

variable {c : Context} {i : Interrupt}

/-- A context that is not live has failed. -/
theorem failed_of_interrupt (h : c.interrupt? = some i) : c.failed = true := by
  cases hfailed : c.failed with
  | true => rfl
  | false =>
    rw [interrupt?, hfailed] at h
    cases h

/-- The interrupt of a context with a recorded failure is that failure. -/
theorem eq_failed_of_interrupt (h : c.interrupt? = some i) (herror : c.error.isSome) :
    i = .failed := by
  rw [interrupt?, failed_of_interrupt h, herror] at h
  simpa using h.symm

/-- A failure is recorded only if there is none yet. -/
theorem fail_eq_self_iff (hfailed : c.failed = true) (e : RuntimeError) :
    c.fail e = c ↔ c.error.isSome := by
  obtain ⟨failed, error, pending, mode, format⟩ := c
  cases hfailed
  cases error with
  | none => simp [fail]
  | some first => simp [fail]

end Context

section Interrupted

variable {w : World} {i : Interrupt} (h : w.context.interrupt? = some i)

include h

/-- The entry check answers with the interrupt of the context. -/
theorem ensureLive_interrupted : Eval.ensureLive w = .error i w := by
  have hcontext : Eval.context w = .ok w.context w := rfl
  rw [Eval.ensureLive, bind_ok hcontext, h]
  rfl

variable {E : Engine} {fuel : Nat}

theorem force_interrupted (v : Value) : force E fuel v w = .error i w :=
  bind_error (ensureLive_interrupted h)

/-- Both ways to start: with the look at the context itself, or with a force, which starts with
it. -/
theorem perform_interrupted {o : Operation} (ho : o.refused? = none) :
    perform E fuel o w = .error i w := by
  have hlive := ensureLive_interrupted h
  have hforce (v : Value) : force E fuel v w = .error i w := force_interrupted h v
  have hrender (x : Value) (format : Format) :
      render ⟨fuel, force E fuel, E⟩ format x w = .error i w := bind_error hlive
  cases o with
  | force x => exact hforce x
  | binary op l r => exact bind_error hlive
  | unary op x => exact bind_error (hforce x)
  | equal l r => exact bind_error (bind_error hlive)
  | notEqual l r => exact bind_error (bind_error hlive)
  | length x => exact bind_error (hforce x)
  | get x key => exact bind_error (hforce x)
  | set x key item => exact bind_error (hforce x)
  | head x => exact bind_error (hforce x)
  | tail x => exact bind_error (hforce x)
  | isNil x => exact bind_error (bind_error (hforce x))
  | nilOf x => exact bind_error (hforce x)
  | generate acc item => exact bind_error (hforce acc)
  | finalize acc => exact bind_error (hforce acc)
  | tagOf x => exact bind_error (hforce x)
  | untag x => exact bind_error (hforce x)
  | render x format => exact bind_error (hrender x format)
  | renderAs x spec =>
    -- a spec that cannot be read has been excluded
    obtain ⟨format, hformat⟩ : ∃ format, Format.ofSpec? spec = some format := by
      cases hspec : Format.ofSpec? spec with
      | some format => exact ⟨format, rfl⟩
      | none => simp [Operation.refused?, hspec] at ho
    refine bind_error ?_
    rw [renderAs, hformat]
    exact hrender x format
  | convert x target => exact bind_error (hforce x)
  | read text target => exact bind_error hlive
  | typeOf x => exact bind_error (hforce x)
  | call callee args => exact bind_error (hforce callee)

omit h in
/-- The refusal of a spec is recorded whatever the state of the context, if forced thunks come to an
end behind the value; otherwise it is never made. -/
theorem perform_refused {o : Operation} {x : Value} (ho : o.refused? = some x) :
    match w.heap.resolve? x with
    | some _ => ∃ e, perform E fuel o w = .error .failed { w with context := w.context.fail e }
    | none => perform E fuel o w = .error .exhausted w := by
  cases o with
  | renderAs y spec =>
    cases hspec : Format.ofSpec? spec with
    | some format => simp [Operation.refused?, hspec] at ho
    | none =>
      obtain rfl : y = x := by simpa [Operation.refused?, hspec] using ho
      -- the text of the refusal names the type behind the memo links
      have hresolve : Eval.resolve y w = match w.heap.resolve? y with
          | some u => .ok u w
          | none => .error .exhausted w := by
        rw [Eval.resolve, Eval.find, bind_ok (Eval.heap_apply w)]
        cases w.heap.resolve? y <;> rfl
      cases hy : w.heap.resolve? y with
      | some u =>
        rw [hy] at hresolve
        refine ⟨.invalidFormat spec u.typeName, bind_error ?_⟩
        rw [renderAs, hspec]
        exact (bind_ok hresolve).trans rfl
      | none =>
        rw [hy] at hresolve
        refine bind_error ?_
        rw [renderAs, hspec]
        exact bind_error hresolve
  | _ => cases ho

/-- On a context that is not live an operation answers with the interrupt of the context and changes
nothing, and only so, unless its spec is refused while no failure is recorded, or for a value behind
which forced thunks go round in a circle. -/
theorem short_circuits_iff (level : Nat) (o : Operation) :
    engine (level + 1) o w = .error i w ↔
      ∀ x, o.refused? = some x → w.context.error.isSome ∧ (w.heap.resolve? x).isSome := by
  have hfailed := Context.failed_of_interrupt h
  have hperform : engine (level + 1) o w = perform (engine level) level o w := rfl
  rw [hperform]
  cases ho : o.refused? with
  | none => simpa using perform_interrupted h ho
  | some x =>
    have hrefused := @perform_refused w (engine level) level o x ho
    cases hx : w.heap.resolve? x with
    | none =>
      -- the refusal is never made, and no interrupt of a context is lack of fuel
      rw [hx] at hrefused
      rw [hrefused]
      refine iff_of_false (fun heq => ?_) fun hsome => ?_
      · injection heq with hi
        subst hi
        rcases Context.interrupt?_regular h with hi | hi <;> cases hi
      · simpa [hx] using (hsome x rfl).2
    | some u =>
      rw [hx] at hrefused
      obtain ⟨e, he⟩ := hrefused
      rw [he]
      constructor
      · rintro heq _ ⟨⟩
        injection heq with _ hw
        exact ⟨(Context.fail_eq_self_iff hfailed e).mp (congrArg World.context hw), by rw [hx]; rfl⟩
      · intro hsome
        -- with a failure recorded, the interrupt of the context is that failure
        have herror : w.context.error.isSome := (hsome x rfl).1
        rw [(Context.fail_eq_self_iff hfailed e).mpr herror,
          Context.eq_failed_of_interrupt h herror]

end Interrupted

/-- An evaluation that waits on a thunk. -/
def World.waitingOnThunk : World where
  heap := { thunks := #[.waiting (.native (.done (.int 1)))] }
  context := Context.suspend { mode := .cooperative } ⟨0⟩

/-- Rendering with the spec of a format, while the evaluation waits. -/
theorem short_circuits_iff_waiting :
    World.waitingOnThunk.context.interrupt? = some .suspended ∧
      engine 1 (.renderAs (.lazy ⟨0⟩) "x") .waitingOnThunk = .error .suspended .waitingOnThunk :=
  ⟨rfl, (short_circuits_iff rfl 0 _).mpr (by decide)⟩

/-- The refusal of a spec while the evaluation waits is recorded as a failure. -/
theorem renderAs_records_while_waiting :
    World.waitingOnThunk.context.interrupt? = some .suspended ∧
      engine 1 (.renderAs (.int 5) "zz") .waitingOnThunk ≠ .error .suspended .waitingOnThunk ∧
      engine 1 (.renderAs (.int 5) "zz") .waitingOnThunk =
        .error .failed { World.waitingOnThunk with
          context := World.waitingOnThunk.context.fail (.invalidFormat "zz" "Int") } := by
  refine ⟨rfl, ?_, rfl⟩
  intro heq
  injection heq with hi
  cases hi

end LazyMachine
