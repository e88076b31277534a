import LazyMachine.Text.Blank
import LazyMachine.Text.Numeral
import Mathlib.Tactic.Common
import Mathlib.Tactic.IntervalCases

/-!
# Numerals read back

What is written of a number is read as that number again.

* `foldlM_toDigits`: a reader that knows the digits of a radix adds up the digits of a number to the
  number, whichever radix it is;
* `readDigits?_toDigits` and `readIntWithin?_toString`: the decimal case, without and with a sign;
* `unsigned?`: reading an unsigned number in any radix, with letters of either case.
-/

namespace LazyMachine.Text

/-! ### Digits in a radix -/

/-- A reader of digits that knows those of a radix. -/
def ReadsDigits (read : Char → Option Nat) (radix : Nat) : Prop :=
  ∀ d < radix, read (Nat.digitChar d) = some d

variable {read : Char → Option Nat} {radix : Nat}

/-- Adding up the digits of a number gives the number. -/
theorem foldlM_toDigits (hread : ReadsDigits read radix) (hradix : 1 < radix) (n : Nat) :
    (Nat.toDigits radix n).foldlM (fun acc c => (read c).map (acc * radix + ·)) 0 = some n := by
  -- the induction takes the last digit off, which is the last one that is added
  induction n using Nat.base_induction radix hradix with
  | single d hd =>
    rw [Nat.toDigits_of_lt_base hd]
    simp [hread d hd]
  | digit n d hd hn ih =>
    rw [← Nat.toDigits_append_toDigits hradix hn hd, Nat.toDigits_of_lt_base hd, List.foldlM_append,
      ih]
    simp [hread d hd, Nat.mul_comm]

/-- The value of a digit in any radix up to sixteen; letters may be of either case. -/
def anyDigitValue? (c : Char) : Option Nat :=
  if '0' ≤ c ∧ c ≤ '9' then some (c.toNat - '0'.toNat)
  else if 'a' ≤ c ∧ c ≤ 'f' then some (c.toNat - 'a'.toNat + 10)
  else if 'A' ≤ c ∧ c ≤ 'F' then some (c.toNat - 'A'.toNat + 10)
  else none

/-- Reads an unsigned number: digits of the radix and nothing else, at least one of them. -/
def unsigned? (radix : Nat) : List Char → Option Nat
  | [] => none
  | cs => cs.foldlM (fun acc c =>
      ((anyDigitValue? c).filter (· < radix)).map (acc * radix + ·)) 0

/-- Digits of a radix are read by their values. -/
theorem readsDigits_anyDigitValue? (hradix : radix ≤ 16) :
    ReadsDigits (fun c => (anyDigitValue? c).filter (· < radix)) radix := by
  intro d hd
  have hvalue : anyDigitValue? (Nat.digitChar d) = some d := by
    have hlt : d < 16 := by omega
    interval_cases d <;> rfl
  simp [hvalue, hd]

/-- In upper case the digits of a radix have the same values. -/
theorem readsDigits_toUpper (hradix : radix ≤ 16) :
    ReadsDigits (fun c => (anyDigitValue? c.toUpper).filter (· < radix)) radix := by
  intro d hd
  have hvalue : anyDigitValue? (Nat.digitChar d).toUpper = some d := by
    have hlt : d < 16 := by omega
    interval_cases d <;> rfl
  simp [hvalue, hd]

/-- Digits are read from the left. -/
theorem unsigned?_of_ne_nil {cs : List Char} (hcs : cs ≠ []) :
    unsigned? radix cs = cs.foldlM (fun acc c =>
      ((anyDigitValue? c).filter (· < radix)).map (acc * radix + ·)) 0 := by
  cases cs with
  | nil => exact absurd rfl hcs
  | cons c cs => rfl

/-- The numeral of a number in a radix is read as the number. -/
theorem unsigned?_toDigits (hradix : 1 < radix) (hle : radix ≤ 16) (n : Nat) :
    unsigned? radix (Nat.toDigits radix n) = some n := by
  rw [unsigned?_of_ne_nil Nat.toDigits_ne_nil]
  exact foldlM_toDigits (readsDigits_anyDigitValue? hle) hradix n

theorem unsigned?_map_toUpper (hradix : 1 < radix) (hle : radix ≤ 16) (n : Nat) :
    unsigned? radix ((Nat.toDigits radix n).map Char.toUpper) = some n := by
  rw [unsigned?_of_ne_nil (by simp), List.foldlM_map]
  exact foldlM_toDigits (readsDigits_toUpper hle) hradix n

/-! ### Decimal numerals -/

/-- Decimal digits are read by their values. -/
theorem readsDigits_digitValue? : ReadsDigits digitValue? 10 := by
  intro d hd
  interval_cases d <;> rfl

/-- A decimal numeral is read as its number. -/
theorem readDigits?_toDigits (n : Nat) : readDigits? (Nat.toDigits 10 n) = some n := by
  have hdigits := foldlM_toDigits readsDigits_digitValue? (by decide) n
  cases hcs : Nat.toDigits 10 n with
  | nil => exact absurd hcs Nat.toDigits_ne_nil
  | cons c cs =>
    rw [hcs] at hdigits
    exact hdigits

/-- A decimal numeral starts with a digit, so it has no sign. -/
theorem isDigit_of_toDigits_eq_cons {n : Nat} {c : Char} {cs : List Char}
    (hcs : Nat.toDigits 10 n = c :: cs) : c.isDigit :=
  Nat.isDigit_of_mem_toDigits (by decide) (by decide) (hcs ▸ List.mem_cons_self)

/-- The decimal form of an integer is read as that integer, if the width holds it. -/
theorem readIntWithin?_toString {width : Nat} {i : Int} (hi : Word.fits width i = true) :
    readIntWithin? width (toString i) = some i := by
  have hsigned : readIntWithin? width (toString i) = (some i).filter (Word.fits width) := by
    unfold readIntWithin?
    dsimp only
    congr 1
    cases i with
    | ofNat n =>
      have htext : (toString (Int.ofNat n)).toList = Nat.toDigits 10 n := Nat.toList_repr
      rw [htext]
      split
      -- digits do not begin with a sign
      · next hcs => exact absurd (isDigit_of_toDigits_eq_cons hcs) (by decide)
      · next hcs => exact absurd (isDigit_of_toDigits_eq_cons hcs) (by decide)
      · rw [readDigits?_toDigits]
        rfl
    | negSucc n =>
      have htext : (toString (Int.negSucc n)).toList = '-' :: Nat.toDigits 10 (n + 1) := by
        have hrepr : toString (Int.negSucc n) = "-" ++ (n + 1).repr := rfl
        simp [hrepr]
      rw [htext]
      show (readDigits? (Nat.toDigits 10 (n + 1)) >>= fun a => pure (a : Int)).map (-·) = _
      rw [readDigits?_toDigits]
      rfl
  rw [hsigned, Option.filter_some, if_pos hi]

/-! ### Trimming -/

/-- Without blanks there is nothing to trim. -/
theorem trimEnd_of_forall {cs : List Char} (hcs : ∀ c ∈ cs, isBlank c = false) :
    trimEnd cs = cs := by
  have hreverse : cs.reverse.dropWhile isBlank = cs.reverse := by
    cases hr : cs.reverse with
    | nil => rfl
    | cons c rest =>
      have hc : c ∈ cs := by
        rw [← List.mem_reverse, hr]
        exact List.mem_cons_self
      rw [List.dropWhile_cons, hcs c hc]
      rfl
  rw [trimEnd, hreverse, List.reverse_reverse]

/-- A text without blanks is not trimmed. -/
theorem trim_of_forall {cs : List Char} (hcs : ∀ c ∈ cs, isBlank c = false) : trim cs = cs := by
  cases cs with
  | nil => rfl
  | cons c rest =>
    rw [trim, List.dropWhile_cons, hcs c List.mem_cons_self]
    exact trimEnd_of_forall hcs

/-- A digit is no blank. -/
theorem isBlank_of_isDigit {c : Char} (hc : c.isDigit = true) : isBlank c = false := by
  have hrange : 48 ≤ c.toNat ∧ c.toNat ≤ 57 := by
    simpa [Char.isDigit, UInt32.le_iff_toNat_le] using hc
  unfold isBlank
  simp
  omega

/-- Nothing is trimmed of a decimal number. -/
theorem trim_toString (i : Int) : trim (toString i).toList = (toString i).toList := by
  refine trim_of_forall fun c hc => ?_
  cases i with
  | ofNat n =>
    have hrepr : toString (Int.ofNat n) = n.repr := rfl
    rw [hrepr, Nat.toList_repr] at hc
    exact isBlank_of_isDigit (Nat.isDigit_of_mem_toDigits (by decide) (by decide) hc)
  | negSucc n =>
    have hrepr : toString (Int.negSucc n) = "-" ++ (n + 1).repr := rfl
    rw [hrepr] at hc
    have hc : c = '-' ∨ c ∈ Nat.toDigits 10 (n + 1) := by simpa using hc
    rcases hc with rfl | hc
    · rfl
    · exact isBlank_of_isDigit (Nat.isDigit_of_mem_toDigits (by decide) (by decide) hc)

end LazyMachine.Text
