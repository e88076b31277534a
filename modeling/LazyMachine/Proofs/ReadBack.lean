import LazyMachine.Proofs.Integers
import LazyMachine.Proofs.Numerals

/-!
# What is shown of a scalar is read back

The text that a scalar other than a floating-point number has in the default format is read as that
scalar again, whatever characters a string or a character is made of: the blanks around a text are
ignored only for the kinds whose texts have none. In the other radices an integer is shown as an
unsigned numeral, which is its two's complement in the width of its class.

* `readScalar?_bareText` and `unsigned?_integer`: reading undoes writing, text by text;
* `shown_reads_back`: the same for the operations, on every live context.
-/

namespace LazyMachine

/-- The kinds of scalars whose texts determine them: all but the floating-point numbers. -/
def Kind.isExact : Kind → Bool
  | .unit | .int | .long | .bool | .char | .string => true
  | _ => false

/-- The text of a scalar in the default format. Characters and strings are not quoted. -/
def Value.bareText : Value → String
  | .unit => "()"
  | .int i => toString i.toInt
  | .long i => toString i.toInt
  | .bool b => if b then "true" else "false"
  | .char c => String.singleton c
  | .str s => s.text
  | _ => ""

/-- The value without the identity of a string. -/
def Value.unstamped : Value → Value
  | .str s => .str { s with stamp := 0 }
  | v => v

/-! ### Reading undoes writing -/

/-- An integer of 32 bits fits them. -/
theorem fits_toInt_int (i : Int32) : Word.fits 32 i.toInt = true := by
  rw [Word.fits, Bool.and_eq_true, decide_eq_true_eq, decide_eq_true_eq]
  exact ⟨i.le_toInt, i.toInt_lt⟩

/-- One of 64 bits fits these. -/
theorem fits_toInt_long (i : Int64) : Word.fits 64 i.toInt = true := by
  rw [Word.fits, Bool.and_eq_true, decide_eq_true_eq, decide_eq_true_eq]
  exact ⟨i.le_toInt, i.toInt_lt⟩

/-- Of a scalar that is no string, the text is read as that scalar. -/
theorem readScalar?_bareText {v : Value} {k : Kind} (hv : v.kind? = some k)
    (hk : k.isExact = true) (hstring : k ≠ .string) : readScalar? v.bareText k = some v := by
  cases v <;> cases hv <;> try cases hk
  case unit => rfl
  case int i =>
    simp only [Value.bareText, readScalar?, Text.trim_toString, String.ofList_toList]
    rw [Text.readIntWithin?_toString (fits_toInt_int i), Option.map_some, Int32.ofInt_toInt]
  case long i =>
    simp only [Value.bareText, readScalar?, Text.trim_toString, String.ofList_toList]
    rw [Text.readIntWithin?_toString (fits_toInt_long i), Option.map_some, Int64.ofInt_toInt]
  case bool b => cases b <;> rfl
  case char c => simp [Value.bareText, readScalar?]
  case str s => exact absurd rfl hstring

/-- The base of a radix. -/
def Radix.base : Radix → Nat
  | .decimal => 10
  | .lowerHex | .upperHex => 16
  | .binary => 2

/-- In a radix other than ten the digits are those of the least residue. -/
theorem unsigned?_integer {radix : Radix} (hradix : radix ≠ .decimal) (width : Nat) (i : Int) :
    Text.unsigned? radix.base (Render.integer radix width i).toList =
      some (i % Word.count width).toNat := by
  cases radix with
  | decimal => exact absurd rfl hradix
  | lowerHex =>
    simp only [Render.integer, Text.numeral, String.toList_ofList]
    exact Text.unsigned?_toDigits (by decide) (by decide) _
  | upperHex =>
    simp only [Render.integer, Text.numeral, String.toList_ofList]
    exact Text.unsigned?_map_toUpper (by decide) (by decide) _
  | binary =>
    simp only [Render.integer, Text.numeral, String.toList_ofList]
    exact Text.unsigned?_toDigits (by decide) (by decide) _

namespace Integer

/-- The width of the class. -/
def width : Integer → Nat
  | .int _ => 32
  | .long _ => 64

/-- The least residue of an integer is its two's complement. -/
theorem toInt_ofNat_residue (x : Integer) :
    (BitVec.ofNat x.width (x.toInt % Word.count x.width).toNat).toInt = x.toInt := by
  have hnonneg : 0 ≤ x.toInt % Word.count x.width :=
    Int.emod_nonneg _ (Int.natCast_ne_zero.mpr (Nat.two_pow_pos x.width).ne')
  calc
    _ = (x.toInt % Word.count x.width).bmod (2 ^ x.width) := by
      rw [BitVec.toInt_ofNat', Int.toNat_of_nonneg hnonneg]
    _ = x.toInt.bmod (2 ^ x.width) := Int.emod_bmod _ _
    _ = x.toInt := by
      cases x with
      | int i => exact i.toInt_bmod
      | long i => exact i.toInt_bmod

end Integer

/-! ### The operations -/

section Operations

variable {n : Nat} {w : World} (hlive : w.context.interrupt? = none)

include hlive

/-- A scalar is shown as its bare text. -/
theorem engine_render_scalar {v : Value} {k : Kind} (hv : v.kind? = some k)
    (hk : k.isExact = true) :
    engine (n + 2) (.render v {}) w = Eval.makeStr v.bareText w := by
  have hforce : (forcesOf (n + 1)).force v w = .ok v w := by
    refine forcesOf_leaves (Nat.succ_pos n) w v hlive ?_
    cases v <;> first | rfl | (cases hv; cases hk)
  have hrender : render (forcesOf (n + 1)) {} v w = .ok v.bareText w := by
    refine (bind_ok (Eval.ensureLive_ok hlive)).trans ?_
    refine (bind_ok hforce).trans ?_
    cases v <;> cases hv <;> first | rfl | cases hk
  exact bind_ok hrender

/-- An integer is shown in the radix of the format. -/
theorem engine_render_integer (x : Integer) (format : Format) :
    engine (n + 2) (.render x.toValue format) w =
      Eval.makeStr (Render.integer format.radix x.width x.toInt) w := by
  have hforce := forcesOf_leaves (Nat.succ_pos n) w x.toValue hlive x.isLazy_toValue
  have hrender : render (forcesOf (n + 1)) format x.toValue w =
      .ok (Render.integer format.radix x.width x.toInt) w := by
    refine (bind_ok (Eval.ensureLive_ok hlive)).trans ?_
    refine (bind_ok hforce).trans ?_
    cases x <;> rfl
  exact bind_ok hrender

/-- A string is read as it is, and a scalar of another kind as what its text says. -/
theorem engine_read_bareText {v : Value} {k : Kind} (hv : v.kind? = some k)
    (hk : k.isExact = true) :
    ∃ u w₁, engine (n + 1) (.read v.bareText k) w = .ok u w₁ ∧ u.unstamped = v.unstamped := by
  by_cases hstring : k = .string
  · subst hstring
    cases v <;> cases hv
    exact ⟨_, _, bind_ok (Eval.ensureLive_ok hlive), rfl⟩
  · have hscalar := readScalar?_bareText hv hk hstring
    refine ⟨v, w, (bind_ok (Eval.ensureLive_ok hlive)).trans ?_, rfl⟩
    simp only [hscalar]
    rfl

end Operations

/-- Let a context be live. A scalar other than a floating-point number is shown as a text that is
read as that scalar again, on every live context; and in a radix other than ten an integer is shown
as an unsigned number, of which it is the two's complement. -/
theorem shown_reads_back {level : Nat} (hlevel : 1 < level) {w : World}
    (hlive : w.context.interrupt? = none) :
    (∀ v k, v.kind? = some k → k.isExact = true →
      ∃ s w₁, engine level (.render v {}) w = .ok (.str s) w₁ ∧
        ∀ w₂ : World, w₂.context.interrupt? = none →
          ∃ u w₃, engine level (.read s.text k) w₂ = .ok u w₃ ∧ u.unstamped = v.unstamped) ∧
    ∀ (x : Integer) (format : Format), format.radix ≠ .decimal →
      ∃ s w₁ n, engine level (.render x.toValue format) w = .ok (.str s) w₁ ∧
        Text.unsigned? format.radix.base s.text.toList = some n ∧ n < 2 ^ x.width ∧
        (BitVec.ofNat x.width n).toInt = x.toInt := by
  obtain ⟨n, rfl⟩ := Nat.exists_eq_add_of_le' hlevel
  constructor
  · intro v k hv hk
    exact ⟨_, _, engine_render_scalar hlive hv hk,
      fun w₂ hlive₂ => engine_read_bareText hlive₂ hv hk⟩
  · intro x format hradix
    refine ⟨_, _, _, engine_render_integer hlive x format, unsigned?_integer hradix _ _, ?_,
      x.toInt_ofNat_residue⟩
    -- what is shown is the residue, which is less than the number of patterns of the width
    have hcount : 0 < 2 ^ x.width := Nat.two_pow_pos _
    have hlt := Int.emod_lt_of_pos x.toInt (b := (2 ^ x.width : Nat)) (by omega)
    have hcast : Word.count x.width = 2 ^ x.width := rfl
    rw [hcast]
    omega

/-- A character that is blank is read back, and so is the smallest integer; in upper case the
numeral of minus one in the wide class has sixteen digits. -/
theorem shown_reads_back_extremes :
    (∃ s w₁, engine 2 (.render (.char ' ') {}) {} = .ok (.str s) w₁ ∧ s.text = " " ∧
      ∃ u w₃, engine 2 (.read s.text .char) {} = .ok u w₃ ∧ u.unstamped = .char ' ') ∧
    (∃ s w₁, engine 2 (.render (.int (-2147483648)) {}) {} = .ok (.str s) w₁ ∧
      ∃ u w₃, engine 2 (.read s.text .int) {} = .ok u w₃ ∧ u.unstamped = .int (-2147483648)) ∧
    ∃ s w₁ n, engine 2 (.render (.long (-1)) { radix := .upperHex }) {} = .ok (.str s) w₁ ∧
      s.text = "FFFFFFFFFFFFFFFF" ∧ Text.unsigned? 16 s.text.toList = some n ∧
      (BitVec.ofNat 64 n).toInt = -1 := by
  obtain ⟨hscalars, hintegers⟩ := shown_reads_back (by decide : 1 < 2) (w := {}) rfl
  refine ⟨?_, ?_, ?_⟩
  · obtain ⟨s, w₁, hrender, hread⟩ := hscalars (.char ' ') .char rfl rfl
    cases hrender
    exact ⟨_, _, rfl, rfl, hread {} rfl⟩
  · obtain ⟨s, w₁, hrender, hread⟩ := hscalars (.int (-2147483648)) .int rfl rfl
    exact ⟨s, w₁, hrender, hread {} rfl⟩
  · obtain ⟨s, w₁, n, hrender, hdigits, -, hvalue⟩ :=
      hintegers (.long (-1)) { radix := .upperHex } (by decide)
    cases hrender
    exact ⟨_, _, n, rfl, by decide, hdigits, hvalue⟩

end LazyMachine
