import LazyMachine.Format
import LazyMachine.Proofs.Numerals

/-!
# Format specs

A precision in a format spec may be left out, and it may be written with a plus sign and with
leading zeros, so many texts say the same. This module describes the texts that are format specs
without reading them: `Text.IsDecimal` says which number a text of digits is, `Format.Specifies`
which options a spec stands for.

* `Text.readWord?_eq_some_iff` and `Format.ofSpec?_eq_some_iff`: what is read is what is described;
* `Format.specifies_spec`: the spec that is written of options is read as these options;
* `Format.specs_round_trip`: both for every text.
-/

namespace LazyMachine

namespace Text

/-! ### Decimal numerals of every form -/

/-- `cs` is a decimal numeral of `n`: at least one digit, leading zeros allowed, behind a plus sign
or not. -/
inductive IsDecimal : (cs : List Char) → (n : Nat) → Prop
  | digits {ds : List Char} (hne : ds ≠ []) (hds : ∀ d ∈ ds, d.isDigit) :
      IsDecimal ds (Nat.ofDigitChars 10 ds 0)
  | plus {ds : List Char} (hne : ds ≠ []) (hds : ∀ d ∈ ds, d.isDigit) :
      IsDecimal ('+' :: ds) (Nat.ofDigitChars 10 ds 0)

/-- The value of a decimal digit. -/
theorem digitValue?_eq (c : Char) :
    digitValue? c = if c.isDigit then some (c.toNat - '0'.toNat) else none := by
  have hrange : ('0' ≤ c ∧ c ≤ '9') ↔ c.isDigit = true := by
    rw [Char.isDigit, Bool.and_eq_true, decide_eq_true_iff, decide_eq_true_iff]
    exact Iff.rfl
  rw [digitValue?]
  exact if_congr hrange rfl rfl

/-- Adding up digits behind those read so far gives a number exactly if there are only digits. -/
theorem foldlM_digitValue?_eq_some_iff {cs : List Char} {acc n : Nat} :
    cs.foldlM (fun acc c => (digitValue? c).map (acc * 10 + ·)) acc = some n ↔
      (∀ d ∈ cs, d.isDigit) ∧ n = Nat.ofDigitChars 10 cs acc := by
  induction cs generalizing acc with
  | nil =>
    have hnone : ∀ d ∈ ([] : List Char), d.isDigit := by simp
    rw [List.foldlM_nil, and_iff_right hnone]
    exact Option.some_inj.trans eq_comm
  | cons c cs ih =>
    rw [List.foldlM_cons, digitValue?_eq, List.forall_mem_cons]
    by_cases hc : c.isDigit = true
    · simp only [hc, if_true, Option.map_some, Option.bind_eq_bind, Option.bind_some, ih, true_and]
      rw [Nat.ofDigitChars_cons, Nat.mul_comm]
    · simp [hc]

/-- Digits are read as the number that they write. -/
theorem readDigits?_eq_some_iff {cs : List Char} {n : Nat} :
    readDigits? cs = some n ↔
      cs ≠ [] ∧ (∀ d ∈ cs, d.isDigit) ∧ n = Nat.ofDigitChars 10 cs 0 := by
  cases cs with
  | nil => simp [readDigits?]
  | cons c cs =>
    rw [and_iff_right (List.cons_ne_nil c cs)]
    exact foldlM_digitValue?_eq_some_iff

/-- A word is read from its decimal numerals, and from nothing else. -/
theorem readWord?_eq_some_iff {text : String} {n : Nat} :
    readWord? text = some n ↔ IsDecimal text.toList n ∧ n < Word.bound := by
  rw [readWord?, readNatBelow?, Option.filter_eq_some_iff, decide_eq_true_iff]
  refine and_congr_left fun _ => ?_
  split
  · next ds htext =>
    rw [htext, readDigits?_eq_some_iff]
    constructor
    · rintro ⟨hne, hds, rfl⟩
      exact .plus hne hds
    · rintro (⟨-, hds⟩ | ⟨hne, hds⟩)
      · -- a plus sign is no digit
        exact absurd (hds '+' List.mem_cons_self) (by decide)
      · exact ⟨hne, hds, rfl⟩
  · next hplus =>
    rw [readDigits?_eq_some_iff]
    constructor
    · rintro ⟨hne, hds, rfl⟩
      exact .digits hne hds
    · intro hdecimal
      generalize text.toList = cs at hdecimal hplus
      cases hdecimal with
      | digits hne hds => exact ⟨hne, hds, rfl⟩
      | plus => exact absurd rfl (hplus _)

/-- The decimal form of a number is a numeral of it. -/
theorem isDecimal_toDigits (n : Nat) : IsDecimal (Nat.toDigits 10 n) n := by
  have hdigits : IsDecimal (Nat.toDigits 10 n) (Nat.ofDigitChars 10 (Nat.toDigits 10 n) 0) :=
    .digits Nat.toDigits_ne_nil fun d hd => Nat.isDigit_of_mem_toDigits (by decide) (by decide) hd
  rwa [Nat.ofDigitChars_toDigits (by decide) (by decide)] at hdigits

end Text

namespace Format

/-! ### The texts of specs -/

/-- A precision of one word that is left out, for `default`, or written as a decimal numeral. -/
inductive Precision (default : Nat) : (cs : List Char) → (n : Nat) → Prop
  | omitted : Precision default [] default
  | written {cs : List Char} {n : Nat} (hcs : Text.IsDecimal cs n) (hn : n < Word.bound) :
      Precision default cs n

/-- The texts that are format specs, and the options that each of them stands for. -/
inductive Specifies : (cs : List Char) → (f : Format) → Prop
  | nothing : Specifies [] {}
  | fixed {c : Char} {cs : List Char} {n : Nat} (hc : c = 'f' ∨ c = 'F')
      (hn : Precision 2 cs n) : Specifies (c :: cs) { style := .fixed n }
  | exponent {c : Char} {cs : List Char} {n : Nat} (hc : c = 'e' ∨ c = 'E')
      (hn : Precision 6 cs n) : Specifies (c :: cs) { style := .exponent n }
  | lowerHex : Specifies ['x'] { radix := .lowerHex }
  | upperHex : Specifies ['X'] { radix := .upperHex }
  | binary : Specifies ['b'] { radix := .binary }
  | quoted : Specifies ['q'] { quoteStrings := true }

section Specs

variable {cs : List Char} {n : Nat} {f : Format}

/-- A precision is read if it is left out or written in digits. -/
theorem precision?_eq_some_iff {default : Nat} :
    precision? default cs = some n ↔ Precision default cs n := by
  cases cs with
  | nil =>
    constructor
    · rintro ⟨⟩
      exact .omitted
    · intro hn
      cases hn with
      | omitted => rfl
      | written hcs => cases hcs with
        | digits hne => exact absurd rfl hne
  | cons c cs =>
    rw [precision?, List.isEmpty_cons, if_neg Bool.false_ne_true, Text.readWord?_eq_some_iff,
      String.toList_ofList]
    constructor
    · rintro ⟨hcs, hn⟩
      exact .written hcs hn
    · intro hn
      cases hn with
      | written hcs hn => exact ⟨hcs, hn⟩

/-- A spec is read as the options that it stands for, and no other text is read. -/
theorem ofSpec?_eq_some_iff {s : String} : ofSpec? s = some f ↔ Specifies s.toList f := by
  unfold ofSpec?
  generalize s.toList = cs
  constructor
  · intro h
    -- the letters of precisions come first, then the options of one letter
    split at h
    · cases h
      exact .nothing
    · next c cs =>
      split at h
      · next hc =>
        obtain ⟨n, hn, rfl⟩ := Option.map_eq_some_iff.mp h
        exact .fixed hc (precision?_eq_some_iff.mp hn)
      · split at h
        · next hc =>
          obtain ⟨n, hn, rfl⟩ := Option.map_eq_some_iff.mp h
          exact .exponent hc (precision?_eq_some_iff.mp hn)
        · split at h
          · next hempty =>
            obtain rfl := List.isEmpty_iff.mp hempty
            split at h <;> cases h <;> constructor
          · cases h
  · intro h
    cases h with
    | fixed hc hn => simp only [if_pos hc, precision?_eq_some_iff.mpr hn, Option.map_some]
    | exponent hc hn =>
      rcases hc with rfl | rfl <;> simp [precision?_eq_some_iff.mpr hn]
    | _ => rfl

/-- A precision, given or not, fits a word. -/
theorem Precision.lt_bound {default : Nat} (hdefault : default < Word.bound)
    (hn : Precision default cs n) : n < Word.bound := by
  cases hn with
  | omitted => exact hdefault
  | written _ hn => exact hn

/-- Behind its letter, a precision is written as its decimal form. -/
theorem specifies_spec (h : Specifies cs f) : Specifies f.spec.toList f := by
  have written (default : Nat) {n : Nat} (hn : n < Word.bound) :
      Precision default (Nat.toDigits 10 n) n := .written (Text.isDecimal_toDigits n) hn
  cases h with
  | fixed _ hn =>
    have hword := hn.lt_bound (by decide)
    simpa [spec] using Specifies.fixed (.inl rfl) (written 2 hword)
  | exponent _ hn =>
    have hword := hn.lt_bound (by decide)
    simpa [spec] using Specifies.exponent (.inl rfl) (written 6 hword)
  | _ => constructor

end Specs

/-- Specs round-trip. Of every text, if it is read as options, the spec of these options is read as
the same options again, whatever form the precision had; it is read as options exactly if it is a
spec of them, and it is refused exactly if it is no spec of any. -/
theorem specs_round_trip (s : String) :
    (∀ f, ofSpec? s = some f → ofSpec? f.spec = some f) ∧
    (∀ f, ofSpec? s = some f ↔ Specifies s.toList f) ∧
    (ofSpec? s = none ↔ ¬ ∃ f, Specifies s.toList f) := by
  refine ⟨fun f hf => ?_, fun f => ofSpec?_eq_some_iff, ?_⟩
  · exact ofSpec?_eq_some_iff.mpr (specifies_spec (ofSpec?_eq_some_iff.mp hf))
  · rw [Option.eq_none_iff_forall_ne_some, not_exists]
    exact forall_congr' fun f => not_congr ofSpec?_eq_some_iff

/-- The largest precision, with a plus sign and leading zeros. -/
theorem specs_round_trip_largest :
    ofSpec? "E+0018446744073709551615" = some { style := .exponent 18446744073709551615 } ∧
    ofSpec? ({ style := .exponent 18446744073709551615 } : Format).spec =
      some { style := .exponent 18446744073709551615 } := by
  have hread : ofSpec? "E+0018446744073709551615" =
      some { style := .exponent 18446744073709551615 } := by decide +kernel
  exact ⟨hread, (specs_round_trip "E+0018446744073709551615").1 _ hread⟩

end Format

end LazyMachine
