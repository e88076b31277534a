import LazyMachine.Proofs.Courses
import LazyMachine.Proofs.ShortCircuit

/-!
# Application is curried

Calling a function with two lists of arguments at once is calling it with the first and the result
with the second (`call_curried`): the same bodies run in the same order, the outcomes are alike, and
so are the worlds afterwards. The two ways differ in a partial application that the second makes if
the first arguments do not suffice, which is garbage in the end, so functions made later are one
place further. Hence *alike*, by a renaming.

The arguments may be split anywhere. The second way hands over to the second arguments either inside
a function that takes arguments of both lists, and then a partial application stands for the first
ones (`Traced.bindFunction_extended`), or between two functions (`Traced.bindFunction_append`).
`Traced.twice` is the second way with the fuel of the first; it runs what the first runs step by
step (`Traced.applyFrom_follows_twice`), and it differs from the second way only in fuel.
-/

namespace LazyMachine

/-- Surplus arguments are put behind one after the other. -/
theorem Application.withRest_withRest (a : Application) (xs ys : List Value) :
    (a.withRest xs).withRest ys = a.withRest (xs ++ ys) := by
  cases a <;> simp only [Application.withRest, List.append_assoc]

namespace Traced

variable {E : Engine} {f p : Ref .function} {fn : Function} {xs ys : List Value} {w : World}

/-! ### Binding two lists of arguments -/

section Function

variable {next : Ref .function → List Value → Traced Application}

/-- Arguments after those that a function takes are left for its result. -/
theorem bindFunction_append (hle : fn.remaining ≤ xs.length) :
    bindFunction E next f fn (xs ++ ys) =
      bindFunction E next f fn xs >>= fun a => pure (a.withRest ys) := by
  have hlong : ¬ (xs ++ ys).length < fn.remaining := by
    rw [List.length_append]
    omega
  unfold bindFunction
  rw [if_neg hlong, if_neg (by omega), List.take_append_of_le_length hle,
    List.drop_append_of_le_length hle]
  cases fn.body with
  | native code => simp only [bind_assoc, pure_bind, Application.withRest]
  | code program chunk captures => simp only [bind_assoc, pure_bind, Application.withRest]
  | overloaded table => simp only [bind_assoc, pure_bind, Application.withRest_withRest]

/-- A partial application stands for a function and its first arguments. -/
theorem bindFunction_extended (hlt : xs.length < fn.remaining) (hys : ys ≠ []) :
    bindFunction E next p { fn with applied := fn.applied ++ xs } ys =
      bindFunction E next f fn (xs ++ ys) := by
  have hremaining : Function.remaining { fn with applied := fn.applied ++ xs } =
      fn.remaining - xs.length := by
    simp only [Function.remaining, List.length_append]
    omega
  have hshort : (ys.length < fn.remaining - xs.length) ↔ (xs ++ ys).length < fn.remaining := by
    rw [List.length_append]
    omega
  have htake : (xs ++ ys).take fn.remaining = xs ++ ys.take (fn.remaining - xs.length) := by
    rw [List.take_append, List.take_of_length_le hlt.le]
  have hdrop : (xs ++ ys).drop fn.remaining = ys.drop (fn.remaining - xs.length) := by
    rw [List.drop_append, List.drop_of_length_le hlt.le, List.nil_append]
  unfold bindFunction
  simp only [hremaining, hshort, htake, hdrop, List.isEmpty_iff, List.append_eq_nil_iff, hys,
    and_false, if_false, List.append_assoc]

end Function

/-- A context that is not live stops the binding. -/
theorem bindArgs_interrupted {i : Interrupt} (hstop : w.context.interrupt? = some i) (k : Nat) :
    bindArgs E (k + 1) f xs w = ([], .error i w) := by
  refine bind_error ?_
  exact congrArg (Prod.mk []) (ensureLive_interrupted hstop)

/-- On a live context binding looks at the function. -/
theorem bindArgs_live (hlive : w.context.interrupt? = none) (k : Nat) :
    bindArgs E (k + 1) f xs w = bindFunction E (bindArgs E k) f (w.heap.function f) xs w := by
  have hstep : Eval.ensureLive.traced w = ([], .ok () w) :=
    congrArg (Prod.mk []) (Eval.ensureLive_ok hlive)
  exact bind_ok hstep

/-- Arguments after those that a function takes are left for its result. -/
theorem bindArgs_append (hle : (w.heap.function f).remaining ≤ xs.length) (k : Nat) :
    bindArgs E k f (xs ++ ys) w =
      (bindArgs E k f xs >>= fun a => pure (a.withRest ys)) w := by
  cases k with
  | zero => rfl
  | succ k =>
    cases hlive : w.context.interrupt? with
    | some i => rw [bindArgs_interrupted hlive, bind_error (bindArgs_interrupted hlive k)]
    | none =>
      rw [bindArgs_live hlive, bindFunction_append hle]
      exact bind_eq_bind (bindArgs_live hlive k).symm _

/-- A function that needs more arguments than these comes to be a partial application, and nothing
is run. -/
theorem bindArgs_lacking (hlive : w.context.interrupt? = none)
    (hlt : xs.length < (w.heap.function f).remaining) (k : Nat) :
    ∃ p h', bindArgs E (k + 1) f xs w =
        ([], .ok (.value (.function p) []) { w with heap := h' }) ∧
      w.heap.Pads h' ∧
      h'.function p =
        { w.heap.function f with applied := (w.heap.function f).applied ++ xs } := by
  rw [bindArgs_live hlive]
  unfold bindFunction
  rw [if_pos hlt]
  by_cases hxs : xs.isEmpty = true
  · rw [if_pos hxs]
    refine ⟨f, w.heap, rfl, .refl _, ?_⟩
    rw [List.isEmpty_iff.mp hxs, List.append_nil]
  · rw [if_neg hxs]
    exact ⟨⟨w.heap.functions.size⟩, _, rfl, .addFunction _ _, Heap.function_addFunction _ _⟩

/-- The partial application takes further arguments as the function takes all of them. -/
theorem bindArgs_extended {w' : World} (hfn : w'.heap.function f = w.heap.function f)
    (hp : w'.heap.function p =
      { w.heap.function f with applied := (w.heap.function f).applied ++ xs })
    (hlt : xs.length < (w.heap.function f).remaining) (hys : ys ≠ []) (k : Nat) :
    bindArgs E k p ys w' = bindArgs E k f (xs ++ ys) w' := by
  cases k with
  | zero => rfl
  | succ k =>
    cases hlive : w'.context.interrupt? with
    | some i => rw [bindArgs_interrupted hlive, bindArgs_interrupted hlive]
    | none => rw [bindArgs_live hlive, bindArgs_live hlive, hp, hfn, bindFunction_extended hlt hys]

/-- A function is called by binding. -/
theorem call_function (k : Nat) :
    call E (k + 1) (.function f) xs = bindArgs E (k + 1) f xs >>= applyFrom E (k + 1) := by
  funext w
  cases hlive : w.context.interrupt? with
  | some i =>
    rw [bind_error (bindArgs_interrupted hlive k)]
    exact bind_error (congrArg (Prod.mk []) (force_interrupted hlive _))
  | none =>
    have hforce : (force E (k + 1) (.function f)).traced w = ([], .ok (.function f) w) :=
      congrArg (Prod.mk []) (LazyMachine.bind_ok (Eval.ensureLive_ok hlive))
    exact bind_ok hforce

/-! ### Two lists of arguments with the fuel of one -/

/-- The value that binding came to. -/
def result : Application → Value
  | .value v _ => v
  | .enter _ _ _ _ => .unit

/-- Binds the first arguments to a forced value; `next` goes on. If the value is a function that
needs more arguments, then the second ones are bound to what it has come to be. -/
def split (E : Engine) (fuel : Nat) (next : Application → Traced Value) (callee : Value)
    (xs ys : List Value) : Traced Value :=
  match callee with
  | .function f => do
    let lacking := xs.length < ((← Eval.heap.traced).function f).remaining
    let a ← bindArgs E fuel f xs
    if lacking then applyFrom E fuel (← bindValue E fuel (result a) ys) else next a
  | callee => do next (← bindValue E fuel callee xs)

/-- Applies what binding gave to the arguments that are left, and the result to further ones. -/
def twice (E : Engine) : (fuel : Nat) → Application → List Value → Traced Value
  | 0, _, _ => Eval.traced (throw .exhausted)
  | fuel + 1, a, ys => do
    let r ← (a.complete E fuel).traced
    let callee ← (E (.force r.1)).traced
    if r.2.isEmpty then applyFrom E fuel (← bindValue E fuel callee ys)
    else split E fuel (twice E fuel · ys) callee r.2 ys

/-- Completing an application does not touch surplus arguments. -/
theorem complete_withRest (a : Application) (k : Nat) :
    ((a.withRest ys).complete E k).traced =
      (a.complete E k).traced >>= fun r => pure (r.1, r.2 ++ ys) := by
  cases a with
  | value v rest => rfl
  | enter program chunk locals rest =>
    simp only [Application.withRest, Application.complete, traced_bind, bind_assoc]
    rfl

/-- A function that needs more arguments than the first ones: the second ones go to what it has come
to be. -/
theorem split_lacking {k : Nat} {next : Application → Traced Value} {w₁ : World}
    (hlt : xs.length < (w.heap.function f).remaining)
    (hbind : bindArgs E k f xs w = ([], .ok (.value (.function p) []) w₁)) :
    split E k next (.function f) xs ys w = (bindArgs E k p ys >>= applyFrom E k) w₁ := by
  unfold split
  dsimp only
  rw [heap_bind_apply, bind_ok hbind, if_pos hlt]
  rfl

/-- A function for which the first arguments suffice. -/
theorem split_enough {k : Nat} {next : Application → Traced Value}
    (hle : ¬ xs.length < (w.heap.function f).remaining) :
    split E k next (.function f) xs ys w = (bindArgs E k f xs >>= next) w := by
  unfold split
  dsimp only
  rw [heap_bind_apply]
  simp only [if_neg hle]

/-- A context that is not live stops it. -/
theorem split_interrupted {k : Nat} {next : Application → Traced Value} {i : Interrupt}
    (hstop : w.context.interrupt? = some i) :
    split E (k + 1) next (.function f) xs ys w = ([], .error i w) := by
  unfold split
  dsimp only
  rw [heap_bind_apply, bind_error (bindArgs_interrupted hstop k)]

section Follows

variable (hE : E.Impartial) {ρ : Renaming} {k : Nat} {next : Application → Traced Value}
  {xs' ys' : List Value} (hys : Values ρ ys ys') (hne : ys ≠ [])
  (hnext : ∀ σ, ρ ≤ σ → ∀ a a' : Application, a.Alike σ a' →
    Follows Value.Alike σ (applyFrom E k (a.withRest ys)) (next a'))

include hE hys hne hnext

/-- Binding all arguments goes on like binding the first and then the second. -/
theorem bindArgs_follows_split {f' : Ref .function} (hf : ρ.Functions f f')
    (hxs : Values ρ xs xs') :
    Follows Value.Alike ρ (bindArgs E k f (xs ++ ys) >>= applyFrom E k)
      (split E k next (.function f') xs' ys') := by
  intro w w' hw
  have hfn := hw.heap.function hf
  by_cases hlt : xs'.length < (w'.heap.function f').remaining
  · cases k with
    | zero => exact .alike le_rfl ⟨.nil, .error le_rfl hw⟩
    | succ k =>
      cases hlive : w'.context.interrupt? with
      | some i =>
        have hstop : w.context.interrupt? = some i := by rw [hw.context, hlive]
        rw [bind_error (bindArgs_interrupted hstop k), split_interrupted hlive]
        exact .alike le_rfl ⟨.nil, .error le_rfl hw⟩
      | none =>
        -- the partial application is garbage on the other side
        obtain ⟨p, h₁, hbind, hpads, hp⟩ := bindArgs_lacking (E := E) hlive hlt k
        have hfn' : h₁.function f' = w'.heap.function f' :=
          hpads.function_eq (hw.heap.function_lt hf).2
        have hys' : ys' ≠ [] := by
          rintro rfl
          cases hys
          exact hne rfl
        have hle := ρ.le_padded w.heap w'.heap w.heap h₁
        rw [split_lacking hlt hbind, bind_eq_bind (bindArgs_extended hfn' hp hlt hys' (k + 1))]
        refine .mono hle (((bindArgs_follows hE (k + 1) (hf.mono hle) ?_).bind
          fun σ _ a a' ha => applyFrom_follows hE (k + 1) ha) _ _ ?_)
        · exact (hxs.append hys).mono hle
        · exact hw.withHeap hle (hw.heap.pad (.refl _) hpads)
  · have hle : (w.heap.function f).remaining ≤ xs.length := by
      rw [hfn.remaining_eq, hxs.length_eq]
      omega
    rw [split_enough hlt, bind_eq_bind (bindArgs_append hle k), bind_assoc]
    simp only [pure_bind]
    exact ((bindArgs_follows hE k hf hxs).bind hnext) w w' hw

/-- The same for any forced value; foreign values take all arguments at once. -/
theorem bindValue_follows_split {callee callee' : Value} (hcallee : callee.Alike ρ callee')
    (hxs : Values ρ xs xs') :
    Follows Value.Alike ρ (bindValue E k callee (xs ++ ys) >>= applyFrom E k)
      (split E k next callee' xs' ys') := by
  have hfail (e : RuntimeError) {g : Application → Traced Value} :
      Follows Value.Alike ρ ((Eval.fail e).traced >>= g) ((Eval.fail e).traced >>= next) :=
    (Follows.traced (.fail e)).bind (V := fun _ _ _ => False) fun _ _ _ _ h => h.elim
  cases hcallee with
  | list h => exact hfail _
  | function hf => exact bindArgs_follows_split hE hys hne hnext hf hxs
  | @same callee h =>
    cases callee with
    | foreign g =>
      intro w w' hw
      have hnoted (args : List Value) (w : World) :
          (bindValue E k (.foreign g) args w).ReachesForeign :=
        reachesForeign_bind ⟨.foreign g args, List.mem_singleton_self _, rfl⟩ _
      exact .foreign (reachesForeign_bind (hnoted _ w) _) (reachesForeign_bind (hnoted _ w') _)
    | list _ | function _ => contradiction
    | _ => exact hfail _

omit hnext in
/-- Arguments after those that are left go the second way. -/
theorem applyFrom_follows_twice {a a' : Application} (ha : a.Alike ρ a') :
    Follows Value.Alike ρ (applyFrom E k (a.withRest ys)) (twice E k a' ys') := by
  induction k generalizing ρ a a' with
  | zero => exact .traced (.throw _)
  | succ k ih =>
    unfold applyFrom twice
    rw [complete_withRest, bind_assoc]
    simp only [pure_bind]
    refine (Follows.traced (complete_mirrors hE k ha)).bind fun σ hρσ r r' hr => ?_
    obtain ⟨v, rest⟩ := r
    obtain ⟨v', rest'⟩ := r'
    obtain ⟨hv, hrest⟩ := hr
    -- some arguments are left in any case, so neither way stops here
    have hleft : ¬ (rest ++ ys).isEmpty = true := by simp [hne]
    dsimp only
    rw [if_neg hleft]
    refine (Follows.traced (hE σ _ _ (.force hv))).bind fun τ hστ callee callee' hcallee => ?_
    have hys := hys.mono (hρσ.trans hστ)
    cases hrest with
    | nil =>
      exact (bindValue_follows hE k hcallee hys).bind fun _ _ _ _ ha => applyFrom_follows hE k ha
    | cons hfirst hothers =>
      refine bindValue_follows_split hE hys hne (fun υ hτυ a a' ha => ?_) hcallee
        (Values.mono hστ (.cons hfirst hothers))
      exact ih (hys.mono hτυ) ha

end Follows

/-! ### The fuel of two calls -/

/-- A value without arguments is the result. -/
theorem applyFrom_value (v : Value) (k : Nat) : applyFrom E (k + 1) (.value v []) = pure v := rfl

/-- The first arguments, then a call with the second. -/
def thenCall (n k : Nat) (ys : List Value) (a : Application) : Traced Value := do
  let v ← applyFrom (engine n) k a
  call (engine n) n v ys

section Fuel

variable {n k : Nat} {next : Application → Traced Value}

/-- Calling the partial application is applying it, on as much fuel as there is. -/
theorem thenCall_partial (hn : 0 < n) :
    thenCall n (k + 1) ys (.value (.function p) []) =
      bindArgs (engine n) n p ys >>= applyFrom (engine n) n := by
  obtain ⟨n, rfl⟩ := Nat.exists_eq_add_of_lt hn
  rw [thenCall, applyFrom_value, pure_bind, call_function]

/-- Binding and applying has the same course with more fuel. -/
theorem bindArgs_applyFrom_approximates {E E' : Engine}
    (hE : ∀ o, LazyMachine.Approximates (E o) (E' o)) {fuel fuel' : Nat} (hle : fuel ≤ fuel')
    (f : Ref .function) (args : List Value) :
    Approximates (bindArgs E fuel f args >>= applyFrom E fuel)
      (bindArgs E' fuel' f args >>= applyFrom E' fuel') :=
  .bind (bindArgs_approximates hE hle f args) fun _ => applyFrom_approximates hE hle _

/-- The second way on the fuel that is left answers like two calls. -/
theorem split_approximates (hk : k ≤ n)
    (hnext : ∀ a, Approximates (next a) (thenCall n k ys a)) (callee : Value) (xs : List Value) :
    Approximates (split (engine n) k next callee xs ys)
      (bindValue (engine n) k callee xs >>= thenCall n k ys) := by
  cases callee with
  | function f =>
    intro w
    by_cases hlt : xs.length < (w.heap.function f).remaining
    -- with too few arguments the first call makes a partial application, without running anything
    · cases k with
      | zero => exact .inr ⟨w, rfl⟩
      | succ k =>
        cases hlive : w.context.interrupt? with
        | some i =>
          refine .inl ?_
          rw [split_interrupted hlive]
          exact (bind_error (bindArgs_interrupted hlive k)).symm
        | none =>
          obtain ⟨p, h₁, hbind, -, -⟩ := bindArgs_lacking (E := engine n) hlive hlt k
          rw [split_lacking hlt hbind, bindValue, bind_ok hbind,
            thenCall_partial (Nat.zero_lt_of_lt hk)]
          exact bindArgs_applyFrom_approximates (fun _ => .refl _) hk p ys _
    · rw [split_enough hlt]
      exact Approximates.bind (.refl _) hnext w
  | _ => exact .bind (.refl _) hnext

/-- Two calls answer like the second way on their fuel together. -/
theorem split_approximated {m k' : Nat} (hm : n ≤ m) (hk : k ≤ n) (hn : n ≤ k')
    (hnext : ∀ a, Approximates (thenCall n k ys a) (next a)) (callee : Value) (xs : List Value) :
    Approximates (bindValue (engine n) k callee xs >>= thenCall n k ys)
      (split (engine m) k' next callee xs ys) := by
  have hbinds := bindValue_approximates (engine_approximates hm) (hk.trans hn) callee xs
  cases callee with
  | function f =>
    intro w
    -- with too few arguments the first call only binds them; else it runs a body, which the fuel of
    -- both covers
    by_cases hlt : xs.length < (w.heap.function f).remaining
    · cases k with
      | zero => exact .inr ⟨w, rfl⟩
      | succ k =>
        obtain ⟨d, rfl⟩ := Nat.exists_eq_add_of_lt (hk.trans hn)
        cases hlive : w.context.interrupt? with
        | some i =>
          refine .inl ?_
          rw [split_interrupted hlive]
          exact bind_error (bindArgs_interrupted hlive k)
        | none =>
          obtain ⟨p, h₁, hbind, -, -⟩ := bindArgs_lacking (E := engine n) hlive hlt k
          have hbind' : bindArgs (engine m) (k + d + 1) f xs w =
              ([], .ok (.value (.function p) []) { w with heap := h₁ }) := by
            rcases hbinds w with heq | ⟨w', hexhausted⟩
            · exact heq.symm.trans hbind
            · rw [bindValue, hbind] at hexhausted
              cases hexhausted
          rw [split_lacking hlt hbind', bindValue, bind_ok hbind,
            thenCall_partial (Nat.zero_lt_of_lt hk)]
          exact bindArgs_applyFrom_approximates (engine_approximates hm) hn p ys _
    · rw [split_enough hlt]
      exact Approximates.bind hbinds hnext w
  | _ => exact .bind hbinds hnext

/-- Binding what is left at once answers like a call. -/
theorem bindValue_approximates_call (hk : k ≤ n) (v : Value) :
    Approximates
      ((engine n (.force v)).traced >>= fun callee =>
        bindValue (engine n) k callee ys >>= applyFrom (engine n) k)
      (call (engine n) n v ys) := by
  have hforce := engine_approximates (Nat.le_succ n) (.force v)
  refine .bind (.traced hforce) fun callee => ?_
  cases callee with
  | function f => exact bindArgs_applyFrom_approximates (fun _ => .refl _) hk f ys
  | foreign g =>
    simp only [bindValue, bind_assoc, pure_bind]
    refine .bind (.refl _) fun _ => ?_
    rw [← bind_pure (g.call ys).traced, bind_assoc]
    refine .bind (.refl _) fun v => ?_
    rw [pure_bind]
    cases k with
    | zero => exact .cut _
    | succ k => exact .refl _
  | _ => exact fun w => .inl (bind_error rfl)

/-- A call answers like binding what is left at once, on more fuel. -/
theorem call_approximates_bindValue {m k' : Nat} (hm : n < m) (hk : n < k') (v : Value) :
    Approximates (call (engine n) n v ys)
      ((engine m (.force v)).traced >>= fun callee =>
        bindValue (engine m) k' callee ys >>= applyFrom (engine m) k') := by
  have hforce := engine_approximates (Nat.succ_le_of_lt hm) (.force v)
  refine .bind (.traced hforce) fun callee => ?_
  cases callee with
  | function f => exact bindArgs_applyFrom_approximates (engine_approximates hm.le) hk.le f ys
  | foreign g =>
    obtain ⟨d, rfl⟩ := Nat.exists_eq_add_of_lt hk
    simp only [bindValue, bind_assoc, pure_bind, applyFrom_value, bind_pure]
    exact .refl _
  | _ => exact fun w => .inl (bind_error rfl).symm

/-- The second way with the fuel of the first answers like two calls. -/
theorem twice_approximates (hk : k ≤ n) (a : Application) :
    Approximates (twice (engine n) k a ys) (thenCall n k ys a) := by
  induction k generalizing a with
  | zero => exact .cut _
  | succ k ih =>
    have hk := Nat.le_of_succ_le hk
    rw [twice, thenCall, applyFrom]
    simp only [bind_assoc]
    refine .bind (.refl _) fun r => ?_
    obtain ⟨v, rest⟩ := r
    cases rest with
    | nil =>
      simp only [List.isEmpty_nil, if_true, pure_bind]
      exact bindValue_approximates_call hk v
    | cons first others =>
      simp only [List.isEmpty_cons, Bool.false_eq_true, if_false, bind_assoc]
      exact .bind (.refl _) fun callee => split_approximates hk (fun a => ih hk a) callee _

/-- Two calls answer like the second way with the fuel of both. -/
theorem thenCall_approximates_twice {m : Nat} (hm : n < m) (hk : k ≤ n) (a : Application) :
    Approximates (thenCall n k ys a) (twice (engine m) (k + n + 1) a ys) := by
  induction k generalizing a with
  | zero => exact fun w => .inr ⟨w, rfl⟩
  | succ k ih =>
    have hk := Nat.le_of_succ_le hk
    rw [Nat.add_right_comm k 1 n]
    rw [twice, thenCall, applyFrom]
    simp only [bind_assoc]
    have hcomplete := complete_approximates (engine_approximates hm.le) (by omega : k ≤ k + n + 1) a
    refine .bind (.traced hcomplete) fun r => ?_
    obtain ⟨v, rest⟩ := r
    cases rest with
    | nil =>
      simp only [List.isEmpty_nil, if_true, pure_bind]
      exact call_approximates_bindValue hm (by omega) v
    | cons first others =>
      simp only [List.isEmpty_cons, Bool.false_eq_true, if_false, bind_assoc]
      exact .bind (.traced (engine_approximates hm.le _)) fun callee =>
        split_approximated hm.le hk (by omega) (fun a => ih hk a) callee _

end Fuel

/-! ### Calls -/

/-- The course of a call with the first arguments and, if that succeeds, of calling its result with
the second ones. -/
def ofCalls (level : Nat) (callee : Value) (xs ys : List Value) : Traced Value := do
  let result ← ofCall level callee xs
  ofCall level result ys

/-- Calling a function in two parts is binding it to the one and calling the result with the other.
-/
theorem ofCalls_eq (level : Nat) :
    ofCalls (level + 1) (.function f) xs ys =
      bindValue (engine (level + 1)) (level + 1) (.function f) xs >>=
        thenCall (level + 1) (level + 1) ys := by
  unfold ofCalls thenCall
  simp only [ofCall_eq]
  rw [call_function, bind_assoc]
  rfl

/-- Nothing is called on a context that is not live. -/
theorem ofCall_interrupted {i : Interrupt} (hstop : w.context.interrupt? = some i) (level : Nat) :
    ofCall level (.function f) xs w = ([], .error i w) := by
  rw [ofCall_eq]
  exact bind_error (congrArg (Prod.mk []) (force_interrupted hstop _))

/-- Without fuel nothing is called. -/
theorem ofCall_exhausted (hlive : w.context.interrupt? = none) :
    ofCall 0 (.function f) xs w = ([], .error .exhausted w) := by
  rw [ofCall_eq]
  exact bind_error (congrArg (Prod.mk []) (LazyMachine.bind_ok (Eval.ensureLive_ok hlive)))

section Closed

variable (hw : w.Impartial) (hf : (Renaming.id w.heap).Functions f f)
  (hxs : Values (.id w.heap) xs xs) (hys : Values (.id w.heap) ys ys) (hne : ys ≠ [])

include hw hf hxs hys hne

/-- A call with all arguments goes the second way. -/
theorem ofCall_follows_split (level : Nat) :
    Courses Value.Alike (.id w.heap) (ofCall (level + 1) (.function f) (xs ++ ys) w)
      (split (engine (level + 1)) (level + 1) (twice (engine (level + 1)) (level + 1) · ys)
        (.function f) xs ys w) := by
  rw [ofCall_eq, call_function]
  refine bindArgs_follows_split (engine_mirrors _) hys hne (fun σ hρσ a a' ha => ?_) hf hxs w w hw
  exact applyFrom_follows_twice (engine_mirrors _) (hys.mono hρσ) hne ha

end Closed

end Traced

open Traced in
/-- Application is curried. Let a function be called with two lists of arguments on a world that
refers only to what is there and whose host code does not look at places, and let no foreign value
be applied on the way. If the call with all arguments at once ends, then so do the two calls, and if
the two calls end, then so does the one, with about twice the fuel. Either way, up to a renaming of
the objects made since, the same bodies are run with the same arguments in the same order, the value
or the interrupt is the same, and so are the worlds then, with the state of every thunk and the
failure that is recorded. -/
theorem call_curried {w : World} (hw : w.Impartial) {f : Ref .function}
    (hf : f.index < w.heap.functions.size) {xs ys : List Value}
    (hxs : Values (.id w.heap) xs xs) (hys : Values (.id w.heap) ys ys) (hne : ys ≠ [])
    (level : Nat) :
    (¬ (ofCall level (.function f) (xs ++ ys) w).Exhausted →
      ¬ (ofCall level (.function f) (xs ++ ys) w).ReachesForeign →
      ∃ ρ, .id w.heap ≤ ρ ∧ (ofCall level (.function f) (xs ++ ys) w).Alike Value.Alike ρ
        (ofCalls level (.function f) xs ys w)) ∧
    (¬ (ofCalls level (.function f) xs ys w).Exhausted →
      ¬ (ofCalls level (.function f) xs ys w).ReachesForeign →
      ∃ ρ, .id w.heap ≤ ρ ∧ (ofCall (2 * level + 1) (.function f) (xs ++ ys) w).Alike Value.Alike ρ
        (ofCalls level (.function f) xs ys w)) := by
  have hfunction : (Renaming.id w.heap).Functions f f := ⟨rfl, hf⟩
  cases hlive : w.context.interrupt? with
  | some i =>
    have hcalls : ofCalls level (.function f) xs ys w = ([], .error i w) :=
      Traced.bind_error (ofCall_interrupted hlive level)
    rw [ofCall_interrupted hlive, ofCall_interrupted hlive, hcalls]
    exact ⟨fun _ _ => ⟨_, le_rfl, .nil, .error le_rfl hw⟩,
      fun _ _ => ⟨_, le_rfl, .nil, .error le_rfl hw⟩⟩
  | none =>
    cases level with
    | zero =>
      have hcalls : ofCalls 0 (.function f) xs ys w = ([], .error .exhausted w) :=
        Traced.bind_error (ofCall_exhausted hlive)
      rw [ofCall_exhausted hlive, hcalls]
      exact ⟨fun hended => absurd ⟨w, rfl⟩ hended, fun hended => absurd ⟨w, rfl⟩ hended⟩
    | succ n =>
      -- one call runs like `split`, step by step; `split` and the two calls differ in fuel only,
      -- and it is the way with less fuel that is known to end
      rw [ofCalls_eq]
      constructor
      · intro hended hforeign
        cases ofCall_follows_split hw hfunction hxs hys hne n with
        | foreign h _ => exact absurd h hforeign
        | alike hρ h =>
          rcases split_approximates le_rfl (twice_approximates le_rfl) (.function f) xs w with
            heq | hexhausted
          · exact ⟨_, hρ, heq ▸ h⟩
          · exact absurd (h.exhausted_iff.mpr hexhausted) hended
      · intro hended hforeign
        have hle : n + 1 < 2 * (n + 1) + 1 := by omega
        have htwice (a : Application) : Traced.Approximates (thenCall (n + 1) (n + 1) ys a)
            (twice (engine (2 * (n + 1) + 1)) (2 * (n + 1) + 1) a ys) := by
          rw [Nat.two_mul (n + 1)] at hle ⊢
          exact thenCall_approximates_twice hle le_rfl a
        have hsplit := (split_approximated hle.le le_rfl hle.le htwice (.function f) xs w
          ).resolve_right hended
        rw [hsplit] at hforeign ⊢
        cases ofCall_follows_split hw hfunction hxs hys hne (2 * (n + 1)) with
        | foreign _ h => exact absurd h hforeign
        | alike hρ h => exact ⟨_, hρ, h⟩

/-- A function of two arguments whose result takes one more. -/
def summing : Program :=
  ⟨#[⟨"main", 0, #[]⟩,
    ⟨"make_adder", 2, #[.load 0, .load 1, .binary .add, .closure 2 1, .ret]⟩,
    ⟨"adder", 1, #[.load 0, .load 1, .binary .add, .ret]⟩], 0⟩

/-- The world in which it is called. -/
def summing.world : World where
  heap := { functions := #[⟨"make_adder", 2, [], .code summing 1 []⟩] }

/-- No code in that world can tell addresses apart. -/
theorem summing.impartial : summing.world.Impartial where
  heap := {
    records := fun _ => .none
    variants := fun _ => .none
    thunks := fun _ => .none
    modules := fun _ => .none
    stamp := rfl
    left := ⟨rfl, rfl⟩
    right := ⟨rfl, rfl⟩
    cell := fun h => absurd h.2 (Nat.not_lt_zero _)
    function := by
      rintro ⟨i⟩ ⟨j⟩ ⟨heq, hlt⟩
      cases heq
      cases Nat.lt_one_iff.mp hlt
      exact ⟨rfl, rfl, .nil, .code summing 1 .nil⟩ }
  context := rfl
  host := ⟨.nil, rfl, rfl, rfl⟩
  executed := rfl

open Traced in
/-- One of two arguments makes a partial application; the third argument is one more than the
function takes. -/
theorem call_curried_surplus :
    ∃ ρ, .id summing.world.heap ≤ ρ ∧
      (ofCall 8 (.function ⟨0⟩) ([.int 1] ++ [.int 2, .int 40]) summing.world).Alike Value.Alike ρ
        (ofCalls 8 (.function ⟨0⟩) [.int 1] [.int 2, .int 40] summing.world) := by
  have hended : ¬ (ofCall 8 (.function ⟨0⟩) ([.int 1] ++ [.int 2, .int 40])
      summing.world).Exhausted := by decide +kernel
  have hbuiltin : ¬ (ofCall 8 (.function ⟨0⟩) ([.int 1] ++ [.int 2, .int 40])
      summing.world).ReachesForeign := by decide +kernel
  have hints (i : Int32) : Value.Alike (.id summing.world.heap) (.int i) (.int i) := .same rfl
  exact (call_curried summing.impartial (by decide) (.cons (hints 1) .nil)
    (.cons (hints 2) (.cons (hints 40) .nil)) (by decide) 8).1 hended hbuiltin

end LazyMachine
