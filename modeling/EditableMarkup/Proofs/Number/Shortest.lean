import EditableMarkup.Number.Decimal
import Mathlib.Algebra.Group.Nat.Defs

/-!
# The shortest decimal of a magnitude

Zeros at the end of the digits of a decimal do not change what it reads as.
So the decimal that is printed for a magnitude reads back as the magnitude: a
search that finds one has tested this, and the exact decimal, to which the
search falls back, needs no rounding.
-/

namespace EditableMarkup

/-! ## Rounding a quotient -/

theorem nearestQuotient_mul_left {factor : Nat} (h : 0 < factor) (dividend divisor : Nat) :
    nearestQuotient (factor * dividend) (factor * divisor) = nearestQuotient dividend divisor := by
  have hlt : factor * divisor < 2 * (factor * (dividend % divisor)) ↔
      divisor < 2 * (dividend % divisor) := by
    rw [Nat.mul_left_comm, Nat.mul_lt_mul_left h]
  have heq : 2 * (factor * (dividend % divisor)) = factor * divisor ↔
      2 * (dividend % divisor) = divisor := by
    rw [Nat.mul_left_comm, Nat.mul_right_inj (Nat.ne_of_gt h)]
  simp only [nearestQuotient, Nat.mul_div_mul_left _ _ h, Nat.mul_mod_mul_left, hlt, heq]

/-- A quotient without a remainder is its own nearest whole number. -/
theorem nearestQuotient_mul_right {divisor : Nat} (h : 0 < divisor) (quotient : Nat) :
    nearestQuotient (quotient * divisor) divisor = quotient := by
  have hmod : quotient * divisor % divisor = 0 := Nat.mul_mod_left ..
  have hdiv : quotient * divisor / divisor = quotient := Nat.mul_div_cancel _ h
  simp only [nearestQuotient, hmod, hdiv, Nat.mul_zero, Nat.not_lt_zero, false_or]
  rw [if_neg]
  omega

theorem Magnitude.nearest?_mul_left {factor : Nat} (h : 0 < factor) (dividend divisor : Nat) :
    Magnitude.nearest? (factor * dividend) (factor * divisor) =
      Magnitude.nearest? dividend divisor := by
  simp only [Magnitude.nearest?, Nat.mul_assoc, Nat.mul_div_mul_left _ _ h,
    nearestQuotient_mul_left h]

/-! ## Digits -/

theorem digitCount_le_iff {n count : Nat} : digitCount n ≤ count ↔ n < 10 ^ count := by
  unfold digitCount
  split
  · next hzero =>
      subst hzero
      constructor
      · intro _
        exact Nat.pow_pos (by decide)
      · intro _
        exact Nat.zero_le count
  · next hzero =>
      cases count with
      | zero =>
          have hpos : 0 < (Nat.toDigits 10 n).length := Nat.length_toDigits_pos
          simp only [Nat.pow_zero]
          omega
      | succ count => exact Nat.length_toDigits_le_iff (by decide) (by omega)

theorem digitCount_mul_ten {n : Nat} (h : 0 < n) : digitCount (10 * n) = digitCount n + 1 := by
  have hiff (count : Nat) : digitCount (10 * n) ≤ count + 1 ↔ digitCount n ≤ count := by
    rw [digitCount_le_iff, digitCount_le_iff, Nat.pow_succ]
    omega
  have hpos : 0 < digitCount (10 * n) := by
    have hzero := (not_congr (@digitCount_le_iff (10 * n) 0)).mpr (by simp; omega)
    omega
  have hupper := (hiff (digitCount n)).mpr (Nat.le_refl _)
  have hlower := (hiff (digitCount (10 * n) - 1)).mp (by omega)
  omega

namespace Decimal

theorem magnitude?_zero (exponent : Int) :
    (Decimal.mk 0 exponent).magnitude? = some Magnitude.zero := by
  simp [magnitude?]

/-- A zero at the end of the digits is worth one more in the exponent. -/
theorem magnitude?_mul_ten (digits : Nat) (exponent : Int) :
    (Decimal.mk (10 * digits) exponent).magnitude? =
      (Decimal.mk digits (exponent + 1)).magnitude? := by
  cases digits with
  | zero => rw [Nat.mul_zero, magnitude?_zero, magnitude?_zero]
  | succ n =>
      have hsize : (digitCount (10 * (n + 1)) : Int) + exponent =
          digitCount (n + 1) + (exponent + 1) := by
        have hcount := digitCount_mul_ten (Nat.succ_pos n)
        rw [Nat.succ_eq_add_one] at hcount
        omega
      have hzero : (10 * (n + 1) = 0) = (n + 1 = 0) := by simp
      have hnearest : Magnitude.nearest? (Decimal.mk (10 * (n + 1)) exponent).fraction.1
            (Decimal.mk (10 * (n + 1)) exponent).fraction.2 =
          Magnitude.nearest? (Decimal.mk (n + 1) (exponent + 1)).fraction.1
            (Decimal.mk (n + 1) (exponent + 1)).fraction.2 := by
        cases exponent with
        | ofNat exponent =>
            change Magnitude.nearest? (10 * (n + 1) * 10 ^ exponent) 1 =
              Magnitude.nearest? ((n + 1) * 10 ^ (exponent + 1)) 1
            rw [Nat.pow_succ, Nat.mul_comm 10, Nat.mul_assoc, Nat.mul_comm 10]
        | negSucc exponent =>
            cases exponent with
            | zero =>
                change Magnitude.nearest? (10 * (n + 1)) (10 * 1) =
                  Magnitude.nearest? ((n + 1) * 1) 1
                rw [Magnitude.nearest?_mul_left (by decide), Nat.mul_one]
            | succ exponent =>
                change Magnitude.nearest? (10 * (n + 1)) (10 ^ (exponent + 1) * 10) =
                  Magnitude.nearest? (n + 1) (10 ^ (exponent + 1))
                rw [Nat.mul_comm _ 10, Magnitude.nearest?_mul_left (by decide)]
      simp only [magnitude?, hsize, hzero, hnearest]

theorem magnitude?_mul_pow (digits : Nat) (exponent : Int) (count : Nat) :
    (Decimal.mk (10 ^ count * digits) exponent).magnitude? =
      (Decimal.mk digits (exponent + count)).magnitude? := by
  induction count generalizing exponent with
  | zero => simp
  | succ count ih =>
      rw [Nat.pow_succ, Nat.mul_comm _ 10, Nat.mul_assoc, magnitude?_mul_ten, ih]
      congr 2
      omega

theorem magnitude?_cutZeros (fuel : Nat) (decimal : Decimal) :
    (decimal.cutZeros fuel).magnitude? = decimal.magnitude? := by
  induction fuel generalizing decimal with
  | zero => rfl
  | succ fuel ih =>
      unfold cutZeros
      split
      · next h =>
          have hdigits : decimal.digits = 10 * (decimal.digits / 10) := by omega
          have hten := magnitude?_mul_ten (decimal.digits / 10) decimal.exponent
          rw [← hdigits] at hten
          rw [ih]
          exact hten.symm
      · rfl

theorem magnitude?_normalized (decimal : Decimal) :
    decimal.normalized.magnitude? = decimal.magnitude? :=
  magnitude?_cutZeros _ decimal

end Decimal

/-! ## Reading back -/

namespace Magnitude

theorem numerator_eq (magnitude : Magnitude) :
    magnitude.numerator = magnitude.mantissa * 2 ^ magnitude.exponent :=
  rfl

theorem numerator_lt (magnitude : Magnitude) : magnitude.numerator < 2 ^ 2098 := by
  have hpow : 2 ^ magnitude.exponent ≤ 2 ^ 2045 :=
    Nat.pow_le_pow_right (n := 2) (by decide) magnitude.exponent_le
  have hsum : (2 : Nat) ^ 2098 = 2 ^ 53 * 2 ^ 2045 := by rw [← Nat.pow_add]
  have hlt : magnitude.numerator < 2 ^ 53 * 2 ^ magnitude.exponent :=
    (Nat.mul_lt_mul_right (Nat.two_pow_pos _)).mpr magnitude.mantissa_lt
  rw [hsum]
  exact Nat.lt_of_lt_of_le hlt (Nat.mul_le_mul (Nat.le_refl _) hpow)

theorem log2_numerator_sub (magnitude : Magnitude) :
    magnitude.numerator.log2 - 52 = magnitude.exponent := by
  rcases magnitude.normal with hzero | hnormal
  · have hlt : magnitude.numerator < 2 ^ 53 := by
      rw [numerator_eq, hzero, Nat.pow_zero, Nat.mul_one]
      exact magnitude.mantissa_lt
    rw [hzero]
    by_cases hnumerator : magnitude.numerator = 0
    · rw [hnumerator]
      rfl
    · have hlog := (Nat.log2_lt hnumerator).mpr hlt
      omega
  · have hpos : 0 < 2 ^ magnitude.exponent := Nat.pow_pos (by decide)
    have hlower : 2 ^ (52 + magnitude.exponent) ≤ magnitude.numerator := by
      rw [Nat.pow_add, numerator_eq]
      exact Nat.mul_le_mul_right _ hnormal
    have hupper : magnitude.numerator < 2 ^ (53 + magnitude.exponent) := by
      rw [Nat.pow_add, numerator_eq]
      exact (Nat.mul_lt_mul_right hpos).mpr magnitude.mantissa_lt
    have hnumerator : magnitude.numerator ≠ 0 := by
      have hpos' : 0 < 2 ^ (52 + magnitude.exponent) := Nat.pow_pos (by decide)
      omega
    have hlog := (Nat.le_log2 hnumerator).mpr hlower
    have hlog' := (Nat.log2_lt hnumerator).mpr hupper
    omega

/-- A magnitude is the nearest one to itself. -/
theorem nearest?_numerator (magnitude : Magnitude) :
    nearest? magnitude.numerator (2 ^ 1074) = some magnitude := by
  have hpos : 0 < 2 ^ 1074 := Nat.two_pow_pos 1074
  have hpos' : 0 < 2 ^ magnitude.exponent := Nat.pow_pos (by decide)
  have hdiv : magnitude.numerator * 2 ^ 1074 / 2 ^ 1074 = magnitude.numerator :=
    Nat.mul_div_cancel _ hpos
  have hmantissa : nearestQuotient (magnitude.numerator * 2 ^ 1074)
      (2 ^ 1074 * 2 ^ magnitude.exponent) = magnitude.mantissa := by
    have hswap : magnitude.numerator * 2 ^ 1074 =
        magnitude.mantissa * (2 ^ 1074 * 2 ^ magnitude.exponent) := by
      rw [numerator_eq, Nat.mul_assoc, Nat.mul_comm (2 ^ magnitude.exponent)]
    rw [hswap]
    exact nearestQuotient_mul_right (Nat.mul_pos hpos hpos') _
  have hparts : ofParts? magnitude.mantissa magnitude.exponent = some magnitude := by
    rw [ofParts?, dif_pos ⟨magnitude.mantissa_lt, magnitude.exponent_le, magnitude.normal⟩]
  have hne : magnitude.mantissa ≠ 2 ^ 53 := Nat.ne_of_lt magnitude.mantissa_lt
  simp only [nearest?, Nat.pow_eq, hdiv, log2_numerator_sub, hmantissa, if_neg hne, hparts]

/-- The exact decimal of a magnitude reads back as the magnitude. -/
theorem magnitude?_exactDecimal (magnitude : Magnitude) :
    magnitude.exactDecimal.magnitude? = some magnitude := by
  by_cases hzero : magnitude.numerator = 0
  · have hmantissa : magnitude.mantissa = 0 := by
      have hpos : 0 < 2 ^ magnitude.exponent := Nat.pow_pos (by decide)
      rw [numerator_eq] at hzero
      rcases Nat.mul_eq_zero.mp hzero with h | h
      · exact h
      · omega
    have hexponent : magnitude.exponent = 0 := by
      rcases magnitude.normal with h | h
      · exact h
      · rw [hmantissa] at h
        exact absurd h (by decide)
    simp only [exactDecimal, hzero, Nat.zero_mul, Decimal.magnitude?_zero]
    obtain ⟨mantissa, exponent, _, _, _⟩ := magnitude
    subst hmantissa
    subst hexponent
    rfl
  · have hpos : 0 < magnitude.numerator := Nat.pos_of_ne_zero hzero
    have hfive : 0 < 5 ^ 1074 := Nat.pos_of_ne_zero fun h => by simp at h
    have hupper : digitCount (magnitude.numerator * 5 ^ 1074) ≤ 1474 := by
      rw [digitCount_le_iff]
      have hlt : magnitude.numerator * 5 ^ 1074 < 2 ^ 2098 * 5 ^ 1074 :=
        (Nat.mul_lt_mul_right hfive).mpr magnitude.numerator_lt
      have hle : 2 ^ 2098 * 5 ^ 1074 ≤ 10 ^ 1474 := by decide +kernel
      exact Nat.lt_of_lt_of_le hlt hle
    have hlower : 674 ≤ digitCount (magnitude.numerator * 5 ^ 1074) := by
      refine Nat.le_of_not_lt fun hless => ?_
      have hle : digitCount (magnitude.numerator * 5 ^ 1074) ≤ 673 := by omega
      rw [digitCount_le_iff] at hle
      have hge : 5 ^ 1074 ≤ magnitude.numerator * 5 ^ 1074 := Nat.le_mul_of_pos_left _ hpos
      have hbig : 10 ^ 673 ≤ 5 ^ 1074 := by decide +kernel
      exact absurd (Nat.lt_of_lt_of_le hle (Nat.le_trans hbig hge)) (Nat.lt_irrefl _)
    have hnearest : nearest? (magnitude.numerator * 5 ^ 1074) (10 ^ 1074) = some magnitude := by
      have hten : (10 : Nat) ^ 1074 = 5 ^ 1074 * 2 ^ 1074 := by rw [← Nat.mul_pow]
      rw [hten, Nat.mul_comm _ (5 ^ 1074), nearest?_mul_left hfive, nearest?_numerator]
    have hne : magnitude.numerator * 5 ^ 1074 ≠ 0 :=
      Nat.ne_of_gt (Nat.mul_pos hpos hfive)
    have hsmall : ¬ (magnitude.numerator * 5 ^ 1074 = 0 ∨
        (digitCount (magnitude.numerator * 5 ^ 1074) : Int) + -1074 < -400) := by
      rintro (h | h)
      · exact hne h
      · omega
    have hlarge : ¬ 400 < (digitCount (magnitude.numerator * 5 ^ 1074) : Int) + -1074 := by omega
    have hfraction : magnitude.exactDecimal.fraction =
        (magnitude.numerator * 5 ^ 1074, 10 ^ 1074) := rfl
    rw [Decimal.magnitude?, hfraction]
    simp only [exactDecimal, Nat.pow_eq, if_neg hsmall, if_neg hlarge, hnearest]

/-- The decimal that is printed for a magnitude reads back as the magnitude. -/
theorem magnitude?_shortest (magnitude : Magnitude) :
    magnitude.shortest.magnitude? = some magnitude := by
  rw [shortest, Decimal.magnitude?_normalized]
  cases hfound : ((List.range 17).map (· + 1)).findSome? magnitude.withDigits? with
  | none => exact magnitude.magnitude?_exactDecimal
  | some decimal =>
      obtain ⟨count, _, hcount⟩ := List.exists_of_findSome?_eq_some hfound
      have hread : magnitude.isReadFrom decimal = true := List.find?_some hcount
      simpa [isReadFrom] using hread

end Magnitude

end EditableMarkup
