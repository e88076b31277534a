import LazyMachine.Operate.Conversion
import Mathlib.Tactic.Common

/-!
# Atoms

Values that have no parts and nothing to run. What is true of all of them is true of the results of
arithmetic, of counts, and of what is converted or read, so those who walk over the operations ask
only what atoms have.

* `Value.isAtom_ofNumeric`, `isAtom_countValue`: numbers and counts are atoms;
* `isAtom_convertScalar?`, `isAtom_readScalar?`: so are scalars that are converted or read.
-/

namespace LazyMachine

/-- Whether a value has no parts and nothing to run: a scalar, a string or a type descriptor. -/
def Value.isAtom : Value → Bool
  | .unit | .int _ | .long _ | .single _ | .double _ | .bool _ | .char _ | .str _
  | .typeInfo _ => true
  | _ => false

/-- A number is an atom. -/
theorem Value.isAtom_ofNumeric (n : Numeric) : (Value.ofNumeric n).isAtom = true := by
  cases n <;> rfl

/-- A count is an atom. -/
theorem isAtom_countValue (n : Nat) : (countValue n).isAtom = true := by
  unfold countValue
  split <;> rfl

/-- A converted scalar is an atom. -/
theorem isAtom_convertScalar? {v u : Value} {target : Kind}
    (hu : convertScalar? v target = some u) : u.isAtom = true := by
  unfold convertScalar? at hu
  split at hu
  iterate 4
    cases hu
    rfl
  iterate 2
    obtain ⟨c, -, rfl⟩ := Option.map_eq_some_iff.mp hu
    rfl
  -- what is neither a character nor a truth value is converted as a number
  split at hu
  · obtain ⟨n, -, rfl⟩ := Option.map_eq_some_iff.mp hu
    exact Value.isAtom_ofNumeric n
  · cases hu

/-- A scalar that is read is an atom. -/
theorem isAtom_readScalar? {text : String} {target : Kind} {u : Value}
    (hu : readScalar? text target = some u) : u.isAtom = true := by
  unfold readScalar? at hu
  dsimp only at hu
  cases target with
  | int | long | single | double =>
    obtain ⟨_, -, rfl⟩ := Option.map_eq_some_iff.mp hu
    rfl
  | bool =>
    dsimp only at hu
    split at hu
    · cases hu
      rfl
    · split at hu
      · cases hu
        rfl
      · cases hu
  | char | unit =>
    dsimp only at hu
    split at hu
    · cases hu
      rfl
    · cases hu
  | _ => cases hu

end LazyMachine
