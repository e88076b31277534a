import LazyMachine.Proofs.Integers

/-!
# Powers of integers

A power of integers whose exponent is not negative is that of whole numbers, in two's complement, up
to the largest exponent that is counted. A larger exponent counts as that one. For an even base this
makes no difference, since high powers of it vanish in two's complement; for an odd base it does
(`power_saturates`). Where it makes none, powers of one base multiply as they should, if they are
computed in the class of the result (`power_cutOff`).
-/

namespace LazyMachine

open Numeric

/-- The largest exponent, written out. -/
theorem largestExponent_eq : largestExponent = 4294967295 := by
  decide

/-- High powers of an even number are zero in two's complement. -/
theorem pow_modEq_zero {x : Int} (hx : 2 ∣ x) {width n : Nat} (hn : width ≤ n) :
    x ^ n ≡ 0 [ZMOD (2 ^ width : Nat)] := by
  rw [Int.modEq_zero_iff_dvd]
  push_cast
  exact (pow_dvd_pow_of_dvd hx width).trans (pow_dvd_pow x hn)

namespace Integer

variable (x y : Integer)

/-- No joint width is beyond 64 bits. -/
theorem joint_le : x.joint y ≤ 64 := by
  cases x <;> cases y <;> simp [joint]

/-- Only the residue matters. -/
theorem reduced_congr {i j : Int} (h : i ≡ j [ZMOD (2 ^ x.joint y : Nat)]) :
    x.reduced y i = x.reduced y j := by
  rw [← reduced_bmod, bmod_eq_of_modEq h, reduced_bmod]

/-- An exponent below the bound counts in full, and so does every exponent of an even base. -/
theorem reduced_pow {n : Nat} (h : n < 2 ^ 32 ∨ 2 ∣ x.toInt) :
    x.reduced y (x.toInt ^ min n largestExponent) = x.reduced y (x.toInt ^ n) := by
  rw [largestExponent_eq]
  by_cases hn : n < 2 ^ 32
  · rw [min_eq_left (by omega)]
  · have heven := h.resolve_left hn
    have hwidth := x.joint_le y
    refine reduced_congr x y ((pow_modEq_zero heven ?_).trans (pow_modEq_zero heven ?_).symm)
    all_goals omega

/-- The power of a base is computed in a class of this width, or it does not overflow its own. -/
def PowerFits (x e : Integer) (width : Nat) : Prop :=
  x.joint e = width ∨ (x.reduced e (x.toInt ^ e.toInt.toNat)).toInt = x.toInt ^ e.toInt.toNat

/-- A power that fits stands for the whole number. -/
theorem PowerFits.modEq {x e : Integer} {width : Nat} (h : x.PowerFits e width) :
    (x.reduced e (x.toInt ^ e.toInt.toNat)).toInt ≡ x.toInt ^ e.toInt.toNat
      [ZMOD (2 ^ width : Nat)] := by
  rcases h with rfl | h
  · rw [toInt_reduced]
    exact Int.bmod_emod
  · rw [h]

/-- Integers are told apart by their values. -/
theorem toValue_inj {x y : Integer} (h : x.toValue = y.toValue) : x = y := by
  cases x <;> cases y <;> cases h <;> rfl

/-- The product of two powers is in the class of the power to the sum of the exponents. -/
theorem reduced_reduced (x y z : Integer) (i j k l : Int) :
    (x.reduced y i).reduced (x.reduced z j) k = x.reduced (y.reduced z l) k := by
  cases x <;> cases y <;> cases z <;> rfl

end Integer

section Powers

variable {level : Nat} {w : World} (hlevel : 1 < level) (hlive : w.context.interrupt? = none)

include hlevel hlive

/-- A power is exact up to the largest exponent and reduced to the joint width. -/
theorem engine_power (x y : Integer) (hy : 0 ≤ y.toInt) :
    engine level (.binary .pow x.toValue y.toValue) w =
      .ok (x.reduced y (x.toInt ^ min y.toInt.toNat largestExponent)).toValue w :=
  engine_arith hlevel hlive (a := .pow) rfl (by simp [Arith.divides]) fun _ => hy

/-- The power is exact if the exponent is below the bound or the base is even. -/
theorem engine_power_exact (x y : Integer) (hy : 0 ≤ y.toInt)
    (hexact : y.toInt < 2 ^ 32 ∨ 2 ∣ x.toInt) :
    engine level (.binary .pow x.toValue y.toValue) w =
      .ok (x.reduced y (x.toInt ^ y.toInt.toNat)).toValue w := by
  rw [engine_power hlevel hlive x y hy, Integer.reduced_pow]
  exact hexact.imp_left fun hlt => by omega

/-- A power of integers whose exponent is not negative is that of whole numbers, in two's complement
of the joint width, where an exponent of `2 ^ 32` or more counts as `2 ^ 32 - 1`. So it is exact for
smaller exponents and for even bases, and then powers of one base multiply to the power to the sum
of the exponents, if the sum does not overflow and each of the two powers is computed in the class
of the result or does not overflow its own. -/
theorem power_cutOff (x y : Integer) (hy : 0 ≤ y.toInt) :
    engine level (.binary .pow x.toValue y.toValue) w =
      .ok (x.reduced y (x.toInt ^ min y.toInt.toNat 4294967295)).toValue w ∧
    (y.toInt < 2 ^ 32 ∨ 2 ∣ x.toInt →
      engine level (.binary .pow x.toValue y.toValue) w =
        .ok (x.reduced y (x.toInt ^ y.toInt.toNat)).toValue w) ∧
    ∀ z sum : Integer, 0 ≤ z.toInt →
      engine level (.binary .add y.toValue z.toValue) w = .ok sum.toValue w →
      sum.toInt = y.toInt + z.toInt → (sum.toInt < 2 ^ 32 ∨ 2 ∣ x.toInt) →
      x.PowerFits y (x.joint sum) → x.PowerFits z (x.joint sum) →
      ∃ a b r : Integer,
        engine level (.binary .pow x.toValue y.toValue) w = .ok a.toValue w ∧
        engine level (.binary .pow x.toValue z.toValue) w = .ok b.toValue w ∧
        engine level (.binary .mul a.toValue b.toValue) w = .ok r.toValue w ∧
        engine level (.binary .pow x.toValue sum.toValue) w = .ok r.toValue w := by
  refine ⟨?_, engine_power_exact hlevel hlive x y hy, fun z sum hz hadd hsum hexact hfy hfz => ?_⟩
  · rw [← largestExponent_eq]
    exact engine_power hlevel hlive x y hy
  · -- all powers are exact, since none of the exponents is cut off
    have hclass : sum = y.reduced z (y.toInt + z.toInt) := by
      rw [engine_arith hlevel hlive (a := .add) rfl (by simp [Arith.divides]) (by simp)] at hadd
      exact Integer.toValue_inj (EStateM.Result.ok.inj hadd).1.symm
    have hpower := engine_power_exact hlevel hlive x sum (by omega) hexact
    have hpowerY := engine_power_exact hlevel hlive x y hy (hexact.imp_left fun hlt => by omega)
    have hpowerZ := engine_power_exact hlevel hlive x z hz (hexact.imp_left fun hlt => by omega)
    refine ⟨_, _, _, hpowerY, hpowerZ, ?_, hpower⟩
    rw [engine_arith hlevel hlive (a := .mul) rfl (by simp [Arith.divides]) (by simp)]
    -- the product is in the class of the power, and congruent to it there
    rw [Integer.reduced_reduced x y z _ _ _ (y.toInt + z.toInt), ← hclass]
    refine congrArg (fun r : Integer => EStateM.Result.ok r.toValue w) ?_
    refine x.reduced_congr sum ((hfy.modEq.mul hfz.modEq).trans ?_)
    rw [← pow_add, ← Int.toNat_add hy hz, hsum]

end Powers

/-- Powers with exponents of both classes multiply, since the one in the narrow class does not
overflow. -/
theorem power_cutOff_mixed :
    engine 2 (.binary .pow (.int 2) (.int 3)) {} = .ok (.int 8) {} ∧
    ∃ a b r : Integer, engine 2 (.binary .pow (.int 2) (.int 3)) {} = .ok a.toValue {} ∧
      engine 2 (.binary .pow (.int 2) (.long 40)) {} = .ok b.toValue {} ∧
      engine 2 (.binary .mul a.toValue b.toValue) {} = .ok r.toValue {} ∧
      engine 2 (.binary .pow (.int 2) (.long 43)) {} = .ok r.toValue {} := by
  have hpower := power_cutOff (w := {}) (by simp : 1 < 2) rfl (.int 2) (.int 3) (by decide)
  have hadd : engine 2 (.binary .add (Integer.int 3).toValue (Integer.long 40).toValue) {} =
      .ok (Integer.long 43).toValue {} :=
    engine_arith (by simp) rfl (a := .add) rfl (by simp [Arith.divides]) (by simp)
  refine ⟨hpower.1, ?_⟩
  exact hpower.2.2 (.long 40) (.long 43) (by decide) hadd (by decide) (.inl (by decide))
    (.inr (by decide)) (.inl rfl)

/-- An exponent of `2 ^ 32` is cut off to an odd one, so the power of an odd base is not exact, and
a power that overflows the narrow class is lost for a product in the wide one. -/
theorem power_saturates :
    (engine 2 (.binary .pow (.int (-1)) (.long 4294967296)) {} = .ok (.long (-1)) {} ∧
      Integer.reduced (.int (-1)) (.long 4294967296) ((-1) ^ 4294967296) = .long 1 ∧
      (-1 : Int64) ≠ 1) ∧
    engine 2 (.binary .add (.int 32) (.long 0)) {} = .ok (.long 32) {} ∧
    engine 2 (.binary .pow (.int 2) (.long 32)) {} = .ok (.long 4294967296) {} ∧
    engine 2 (.binary .pow (.int 2) (.int 32)) {} = .ok (.int 0) {} ∧
    engine 2 (.binary .pow (.int 2) (.long 0)) {} = .ok (.long 1) {} ∧
    engine 2 (.binary .mul (.int 0) (.long 1)) {} = .ok (.long 0) {} := by
  refine ⟨⟨?_, ?_, by decide⟩, ?_, ?_, ?_, ?_, ?_⟩
  · have hpower := engine_power (w := {}) (by simp : 1 < 2) rfl (.int (-1))
      (.long 4294967296) (by decide)
    have hmin : min (Integer.long 4294967296).toInt.toNat largestExponent = 4294967295 := by
      decide
    have hodd : (Integer.int (-1)).toInt ^ 4294967295 = -1 :=
      Odd.neg_one_pow ⟨2147483647, by norm_num⟩
    rw [hmin, hodd] at hpower
    exact hpower
  · rw [Even.neg_one_pow ⟨2147483648, by norm_num⟩]
    rfl
  · exact engine_arith (by simp) rfl (x := .int 32) (y := .long 0) (a := .add) rfl
      (by simp [Arith.divides]) (by simp)
  · exact engine_power_exact (by simp) rfl (.int 2) (.long 32) (by decide) (.inl (by decide))
  · exact engine_power_exact (by simp) rfl (.int 2) (.int 32) (by decide) (.inl (by decide))
  · exact engine_power_exact (by simp) rfl (.int 2) (.long 0) (by decide) (.inl (by decide))
  · exact engine_arith (by simp) rfl (x := .int 0) (y := .long 1) (a := .mul) rfl
      (by simp [Arith.divides]) (by simp)

end LazyMachine
