import EditableMarkup.Proofs.Number.Printed
import EditableMarkup.Proofs.Number.Exact
import Mathlib.Algebra.Order.Field.Basic
import Mathlib.Tactic.Linarith

/-!
# The nearest double

A decimal is read as the double that is nearest to it.  Of two doubles that are
equally near the one with the even mantissa is taken, so that there is one
nearest double; from half a step behind the largest double on it is infinite.
Between two powers of two the doubles are the multiples of one step.  So the
nearest double is the nearest whole number of steps, as far as this needs no
more than 53 bits.
-/

namespace EditableMarkup

open EditableMarkup.Number

/-! ## The nearest whole number -/

/-- A whole number lies nearest to a number, and it is even if there is another as near. -/
structure NearestWhole (z : ℚ) (q : Nat) : Prop where
  le_half : |z - q| ≤ 1 / 2
  even : |z - q| = 1 / 2 → q % 2 = 0

theorem nearestWhole_nearestQuotient {divisor : Nat} (h : 0 < divisor) (dividend : Nat) :
    NearestWhole (dividend / divisor) (nearestQuotient dividend divisor) := by
  have hpos : (0 : ℚ) < divisor := Nat.cast_pos.mpr h
  have hsplit := Nat.div_add_mod dividend divisor
  generalize hquotient : dividend / divisor = quotient at hsplit
  generalize hrest : dividend % divisor = rest at hsplit
  have hvalue : (dividend / divisor : ℚ) = quotient + rest / divisor := by
    rw [← hsplit]
    push_cast
    field_simp
  have hlt : rest < divisor := hrest ▸ Nat.mod_lt dividend h
  have hbelow : (rest : ℚ) / divisor < 1 := (div_lt_one hpos).mpr (Nat.cast_lt.mpr hlt)
  have habove : 0 ≤ (rest : ℚ) / divisor := div_nonneg (Nat.cast_nonneg _) hpos.le
  have hhalf : (rest : ℚ) / divisor = 1 / 2 ↔ 2 * rest = divisor := by
    rw [div_eq_div_iff hpos.ne' two_ne_zero, one_mul, mul_comm]
    exact_mod_cast Iff.rfl
  have hless : (rest : ℚ) / divisor ≤ 1 / 2 ↔ 2 * rest ≤ divisor := by
    rw [div_le_div_iff₀ hpos two_pos, one_mul, mul_comm]
    exact_mod_cast Iff.rfl
  simp only [nearestQuotient, hquotient, hrest]
  rw [hvalue]
  split
  next hup =>
    have hmore : 1 / 2 ≤ (rest : ℚ) / divisor := by
      by_contra hnot
      have hle := hless.mp (not_le.mp hnot).le
      have heq := hhalf.mpr (by omega)
      exact hnot heq.ge
    have hdistance : |(quotient : ℚ) + rest / divisor - ((quotient + 1 : Nat) : ℚ)| =
        1 - rest / divisor := by
      push_cast
      rw [abs_of_nonpos (by linarith)]
      ring
    constructor
    · rw [hdistance]
      linarith
    · intro htie
      rw [hdistance] at htie
      have heq := hhalf.mp (by linarith)
      omega
  next hdown =>
    have hdistance : |(quotient : ℚ) + rest / divisor - quotient| = rest / divisor := by
      rw [add_sub_cancel_left, abs_of_nonneg habove]
    constructor
    · rw [hdistance]
      exact hless.mpr (by omega)
    · intro htie
      rw [hdistance] at htie
      have heq := hhalf.mp htie
      omega

namespace NearestWhole

variable {z : ℚ} {q t : Nat}

/-- All other whole numbers are at least half a step away. -/
theorem half_le_of_ne (h : NearestWhole z q) (hne : t ≠ q) : 1 / 2 ≤ |z - t| := by
  have hapart : (1 : ℚ) ≤ |(t : ℚ) - q| := by
    have hint : (1 : Int) ≤ |(t : Int) - q| := Int.one_le_abs (by omega)
    exact_mod_cast hint
  have htriangle : |(t : ℚ) - q| ≤ |z - q| + |z - t| := by
    have hsum := abs_sub_le (t : ℚ) z q
    rw [abs_sub_comm (t : ℚ) z] at hsum
    linarith
  have hhalf := h.le_half
  linarith

theorem le (h : NearestWhole z q) (t : Nat) : |z - q| ≤ |z - t| := by
  by_cases heq : t = q
  · rw [heq]
  · exact h.le_half.trans (h.half_le_of_ne heq)

theorem eq_or_even (h : NearestWhole z q) (htie : |z - q| = |z - t|) : t = q ∨ q % 2 = 0 := by
  by_cases heq : t = q
  · exact Or.inl heq
  · exact Or.inr (h.even (le_antisymm h.le_half (htie ▸ h.half_le_of_ne heq)))

theorem le_of_lt (h : NearestWhole z q) (hlt : z < t) : q ≤ t := by
  have hhalf := (abs_le.mp h.le_half).1
  have hcast : (q : ℚ) < (t + 1 : Nat) := by
    push_cast
    linarith
  exact Nat.lt_succ_iff.mp (Nat.cast_lt.mp hcast)

theorem le_of_le (h : NearestWhole z q) (hle : (t : ℚ) ≤ z) : t ≤ q := by
  have hhalf := (abs_le.mp h.le_half).2
  have hcast : (t : ℚ) < (q + 1 : Nat) := by
    push_cast
    linarith
  exact Nat.lt_succ_iff.mp (Nat.cast_lt.mp hcast)

/-- The half in front of an even number is rounded up to it. -/
theorem lt_iff (h : NearestWhole z q) (heven : t % 2 = 0) : q < t ↔ z < t - 1 / 2 := by
  obtain ⟨hlower, hupper⟩ := abs_le.mp h.le_half
  constructor
  · intro hlt
    have hcast : (q : ℚ) + 1 ≤ t := by exact_mod_cast hlt
    refine lt_of_le_of_ne (by linarith) fun heq => ?_
    have hq : (q : ℚ) + 1 = t := by linarith
    have hodd := h.even (by rw [heq, ← hq, abs_of_nonneg (by linarith)]; ring)
    have hsucc : q + 1 = t := by exact_mod_cast hq
    omega
  · intro hlt
    have hcast : (q : ℚ) < t := by linarith
    exact_mod_cast hcast

end NearestWhole

/-! ## The nearest number of steps -/

/-- A number has at most 53 bits from the step `2 ^ k` on, and it has all of them unless this is the
smallest step. -/
structure InBinade (y : ℚ) (k : Nat) : Prop where
  lt : y < 2 ^ (53 + k)
  le : k = 0 ∨ 2 ^ (52 + k) ≤ y

theorem inBinade_log2 {divisor : Nat} (h : 0 < divisor) (dividend : Nat) :
    InBinade (dividend / divisor) ((dividend / divisor).log2 - 52) := by
  have hpos : (0 : ℚ) < divisor := Nat.cast_pos.mpr h
  generalize hquotient : dividend / divisor = quotient
  constructor
  · have hlt : quotient < 2 ^ (53 + (quotient.log2 - 52)) :=
      Nat.lt_log2_self.trans_le (Nat.pow_le_pow_right two_pos (by omega))
    rw [← hquotient, Nat.div_lt_iff_lt_mul h, hquotient] at hlt
    rw [div_lt_iff₀ hpos]
    exact_mod_cast hlt
  · by_cases hlog : quotient.log2 ≤ 52
    · exact Or.inl (Nat.sub_eq_zero_of_le hlog)
    · have hne : quotient ≠ 0 := by
        rintro rfl
        exact hlog (by decide)
      have hle : 2 ^ (52 + (quotient.log2 - 52)) ≤ quotient := by
        rw [show 52 + (quotient.log2 - 52) = quotient.log2 by omega]
        exact Nat.log2_self_le hne
      rw [← hquotient, Nat.le_div_iff_mul_le h, hquotient] at hle
      refine Or.inr ((le_div_iff₀ hpos).mpr ?_)
      exact_mod_cast hle

section Steps

variable {y : ℚ} {k q : Nat}

theorem abs_sub_steps (y : ℚ) (k t : Nat) :
    |y - ((t * 2 ^ k : Nat) : ℚ)| = |y / 2 ^ k - t| * 2 ^ k := by
  have hpos : (0 : ℚ) < 2 ^ k := pow_pos two_pos k
  rw [← abs_of_pos hpos, ← abs_mul, abs_of_pos hpos, sub_mul, div_mul_cancel₀ _ hpos.ne']
  push_cast
  rfl

theorem Magnitude.numerator_lt_mul (magnitude : Magnitude) :
    magnitude.numerator < 2 ^ 53 * 2 ^ magnitude.exponent :=
  (Nat.mul_lt_mul_right (Nat.two_pow_pos _)).mpr magnitude.mantissa_lt

theorem numerator_lt_of_exponent_lt {other : Magnitude} (h : other.exponent < k) :
    other.numerator < 2 ^ (52 + k) := by
  have hlt := other.numerator_lt_mul
  rw [← Nat.pow_add] at hlt
  exact hlt.trans_le (Nat.pow_le_pow_right two_pos (by omega))

/-- The nearest number of steps is as near as any magnitude, and it is even if there is a tie. A
magnitude with a smaller step lies below the power of two that is a number of steps itself. -/
theorem nearest_steps (hbinade : InBinade y k) (hq : NearestWhole (y / 2 ^ k) q)
    (other : Magnitude) :
    |y - ((q * 2 ^ k : Nat) : ℚ)| ≤ |y - other.numerator| ∧
      (|y - ((q * 2 ^ k : Nat) : ℚ)| = |y - other.numerator| →
        other.numerator = q * 2 ^ k ∨ q % 2 = 0) := by
  have hpos : (0 : ℚ) < 2 ^ k := pow_pos two_pos k
  rcases Nat.lt_or_ge other.exponent k with hless | hmore
  · have hlarge : (2 : ℚ) ^ (52 + k) ≤ y := hbinade.le.resolve_left (by omega)
    have hsmall : (other.numerator : ℚ) < 2 ^ (52 + k) := by
      exact_mod_cast numerator_lt_of_exponent_lt hless
    have hpower : |y - ((2 ^ 52 * 2 ^ k : Nat) : ℚ)| = y - 2 ^ (52 + k) := by
      rw [← Nat.pow_add]
      push_cast
      exact abs_of_nonneg (sub_nonneg.mpr hlarge)
    have hnear : |y - ((q * 2 ^ k : Nat) : ℚ)| ≤ |y - ((2 ^ 52 * 2 ^ k : Nat) : ℚ)| := by
      rw [abs_sub_steps, abs_sub_steps]
      exact mul_le_mul_of_nonneg_right (hq.le _) hpos.le
    have hfar : y - other.numerator = |y - other.numerator| :=
      (abs_of_nonneg (by linarith)).symm
    rw [← hfar]
    constructor
    · linarith
    · intro htie
      linarith
  · have hmultiple : other.numerator = other.mantissa * 2 ^ (other.exponent - k) * 2 ^ k := by
      rw [Magnitude.numerator_eq, Nat.mul_assoc, ← Nat.pow_add, Nat.sub_add_cancel hmore]
    rw [hmultiple, abs_sub_steps, abs_sub_steps]
    constructor
    · exact mul_le_mul_of_nonneg_right (hq.le _) hpos.le
    · intro htie
      rcases hq.eq_or_even (mul_right_cancel₀ hpos.ne' htie) with heq | heven
      · exact Or.inl (by rw [heq])
      · exact Or.inr heven

theorem InBinade.steps_le (hbinade : InBinade y k) (hq : NearestWhole (y / 2 ^ k) q) :
    q ≤ 2 ^ 53 := by
  refine hq.le_of_lt ((div_lt_iff₀ (pow_pos two_pos k)).mpr ?_)
  rw [Nat.cast_pow, Nat.cast_ofNat, ← pow_add]
  exact hbinade.lt

theorem InBinade.le_steps (hbinade : InBinade y k) (hq : NearestWhole (y / 2 ^ k) q) :
    k = 0 ∨ 2 ^ 52 ≤ q := by
  refine hbinade.le.imp_right fun hlarge =>
    hq.le_of_le ((le_div_iff₀ (pow_pos two_pos k)).mpr ?_)
  rw [Nat.cast_pow, Nat.cast_ofNat, ← pow_add]
  exact hlarge

/-- Rounding reaches the power of two behind the step `2 ^ top` from half of this step in front of
it on. -/
theorem steps_lt_iff (hbinade : InBinade y k) (hq : NearestWhole (y / 2 ^ k) q) (top : Nat) :
    q * 2 ^ k < 2 ^ 53 * 2 ^ top ↔ y < (2 ^ 53 - 1 / 2) * 2 ^ top := by
  have hpos : (0 : ℚ) < 2 ^ k := pow_pos two_pos k
  -- Only where the steps have the size in question does the tie decide.
  rcases Nat.lt_trichotomy k top with hless | rfl | hmore
  · have hq' := hbinade.steps_le hq
    have hpow : (2 : ℚ) ^ (53 + k) ≤ 2 ^ 52 * 2 ^ top := by
      rw [← pow_add]
      exact pow_le_pow_right₀ one_le_two (by omega)
    have htop : (0 : ℚ) < 2 ^ top := pow_pos two_pos top
    refine iff_of_true ?_ ?_
    · exact (Nat.mul_le_mul_right _ hq').trans_lt
        (Nat.mul_lt_mul_of_pos_left (Nat.pow_lt_pow_right one_lt_two hless) (by decide))
    · refine (hbinade.lt.trans_le hpow).trans ?_
      exact mul_lt_mul_of_pos_right (by norm_num) htop
  · rw [Nat.mul_lt_mul_right (Nat.two_pow_pos k), hq.lt_iff (by decide), div_lt_iff₀ hpos]
    push_cast
    rfl
  · have hlarge : (2 : ℚ) ^ (52 + k) ≤ y := hbinade.le.resolve_left (by omega)
    have hq' := (hbinade.le_steps hq).resolve_left (by omega)
    have hpow : (2 : ℚ) ^ 53 * 2 ^ top ≤ 2 ^ (52 + k) := by
      rw [← pow_add]
      exact pow_le_pow_right₀ one_le_two (by omega)
    have htop : (0 : ℚ) < 2 ^ top := pow_pos two_pos top
    refine iff_of_false (Nat.not_lt.mpr ?_) (not_lt.mpr ?_)
    · calc 2 ^ 53 * 2 ^ top = 2 ^ (53 + top) := (Nat.pow_add ..).symm
        _ ≤ 2 ^ (52 + k) := Nat.pow_le_pow_right two_pos (by omega)
        _ = 2 ^ 52 * 2 ^ k := Nat.pow_add ..
        _ ≤ q * 2 ^ k := Nat.mul_le_mul_right _ hq'
    · refine le_trans ?_ (hpow.trans hlarge)
      exact mul_le_mul_of_nonneg_right (by norm_num) htop.le

end Steps

/-! ## The nearest magnitude -/

theorem unitCount_pos : (0 : ℚ) < unitCount :=
  (Nat.cast_nonneg _).lt_of_ne' unitCount_ne_zero

theorem cast_unitCount : (unitCount : ℚ) = 2 ^ 1074 := by
  simp only [unitCount, Nat.pow_eq, Nat.cast_pow, Nat.cast_ofNat]

namespace Magnitude

theorem ofParts?_eq_some_iff {mantissa exponent : Nat} {magnitude : Magnitude} :
    ofParts? mantissa exponent = some magnitude ↔
      magnitude.mantissa = mantissa ∧ magnitude.exponent = exponent := by
  unfold ofParts?
  split
  next h =>
    rw [Option.some.injEq]
    constructor
    · rintro rfl
      exact ⟨rfl, rfl⟩
    · obtain ⟨_, _, _, _, _⟩ := magnitude
      rintro ⟨rfl, rfl⟩
      rfl
  next h =>
    refine iff_of_false nofun ?_
    rintro ⟨rfl, rfl⟩
    exact h ⟨magnitude.mantissa_lt, magnitude.exponent_le, magnitude.normal⟩

/-- One more bit in front is worth one more in the exponent. -/
theorem mul_pow_succ (k : Nat) : 2 ^ 53 * 2 ^ k = 2 ^ 52 * 2 ^ (k + 1) := by
  rw [← Nat.pow_add, ← Nat.pow_add, Nat.add_comm k, ← Nat.add_assoc]

/-- A number of steps as a magnitude; where it needs one more bit, it is a power of two. -/
def rounded? (k q : Nat) : Option Magnitude :=
  if q = Nat.pow 2 53 then ofParts? (Nat.pow 2 52) (k + 1) else ofParts? q k

theorem rounded_eq_some {k q : Nat} {magnitude : Magnitude}
    (h : rounded? k q = some magnitude) :
    magnitude.numerator = q * 2 ^ k ∧ (q % 2 = 0 → magnitude.mantissa % 2 = 0) := by
  rw [numerator_eq]
  unfold rounded? at h
  split at h
  next hcarry =>
    obtain ⟨hmantissa, hexponent⟩ := ofParts?_eq_some_iff.mp h
    rw [hmantissa, hexponent, hcarry]
    exact ⟨(mul_pow_succ k).symm, fun _ => rfl⟩
  next =>
    obtain ⟨rfl, rfl⟩ := ofParts?_eq_some_iff.mp h
    exact ⟨rfl, id⟩

theorem lt_of_ofParts?_eq_none {mantissa exponent : Nat} (hmantissa : mantissa < 2 ^ 53)
    (hnormal : exponent = 0 ∨ 2 ^ 52 ≤ mantissa) (h : ofParts? mantissa exponent = none) :
    2045 < exponent := by
  unfold ofParts? at h
  split at h
  next => cases h
  next hnot => exact Nat.lt_of_not_le fun hle => hnot ⟨hmantissa, hle, hnormal⟩

theorem mul_pow_le {top k : Nat} (h : top ≤ k) : 2 ^ 53 * 2 ^ top ≤ 2 ^ 53 * 2 ^ k :=
  Nat.mul_le_mul_left _ (Nat.pow_le_pow_right two_pos h)

/-- A rounded number of steps is no magnitude only if it is too large. -/
theorem rounded_eq_none {k q : Nat} (hq : q ≤ 2 ^ 53) (hnormal : k = 0 ∨ 2 ^ 52 ≤ q)
    (h : rounded? k q = none) :
    2 ^ 53 * 2 ^ 2045 ≤ q * 2 ^ k := by
  unfold rounded? at h
  split at h
  next hcarry =>
    have hk := lt_of_ofParts?_eq_none (by decide) (Or.inr (by decide)) h
    rw [hcarry]
    exact mul_pow_le (Nat.le_of_lt_succ hk)
  next hfits =>
    have hk := lt_of_ofParts?_eq_none (Nat.lt_of_le_of_ne hq hfits) hnormal h
    cases k with
    | zero => cases hk
    | succ k =>
        have hle : 2 ^ 53 * 2 ^ k ≤ q * 2 ^ (k + 1) := by
          rw [mul_pow_succ]
          exact Nat.mul_le_mul_right _ (hnormal.resolve_left (Nat.succ_ne_zero k))
        exact (mul_pow_le (Nat.le_of_lt_succ hk)).trans hle

/-- The nearest magnitude to a quotient is a rounded number of steps. -/
theorem exists_nearest?_eq {divisor : Nat} (h : 0 < divisor) (dividend : Nat) :
    ∃ k q, InBinade (dividend / divisor * unitCount) k ∧
      NearestWhole (dividend / divisor * unitCount / 2 ^ k) q ∧
      nearest? dividend divisor = rounded? k q := by
  have hunits : (dividend / divisor * unitCount : ℚ) =
      ((dividend * unitCount : Nat) : ℚ) / divisor := by
    rw [Nat.cast_mul, div_mul_eq_mul_div]
  refine ⟨(dividend * unitCount / divisor).log2 - 52, nearestQuotient (dividend * unitCount)
    (divisor * Nat.pow 2 ((dividend * unitCount / divisor).log2 - 52)), ?_, ?_, ?_⟩
  · rw [hunits]
    exact inBinade_log2 h _
  · rw [hunits, div_div, ← Nat.cast_ofNat, ← Nat.cast_pow, ← Nat.cast_mul]
    exact nearestWhole_nearestQuotient (Nat.mul_pos h (Nat.two_pow_pos _)) _
  · unfold nearest? rounded? unitCount
    rfl

/-- Every magnitude has one form. -/
theorem eq_of_numerator_eq {a b : Magnitude} (h : a.numerator = b.numerator) : a = b := by
  have hexponent : a.exponent = b.exponent := by
    rw [← log2_numerator_sub, ← log2_numerator_sub, h]
  have hmantissa : a.mantissa = b.mantissa := by
    rw [numerator_eq, numerator_eq, hexponent] at h
    exact Nat.eq_of_mul_eq_mul_right (Nat.two_pow_pos _) h
  cases a
  cases b
  simp_all

/-- The exact value of a magnitude. -/
def value (magnitude : Magnitude) : ℚ :=
  magnitude.numerator / unitCount

theorem value?_real (magnitude : Magnitude) :
    (Number.real (.finite false magnitude)).value? = some magnitude.value := by
  rw [Number.value?_eq, units?, Option.map_some, if_neg Bool.false_ne_true, Int.cast_natCast, value]

theorem abs_sub_value (x : ℚ) (magnitude : Magnitude) :
    |x - magnitude.value| = |x * unitCount - magnitude.numerator| / unitCount := by
  rw [← abs_of_pos unitCount_pos, ← abs_div, abs_of_pos unitCount_pos, sub_div,
    mul_div_cancel_right₀ _ unitCount_ne_zero, value]

end Magnitude

/-! ## Rounding -/

/-- Half a step behind the largest double. -/
def overflowBound : ℚ :=
  (2 ^ 53 - 1 / 2) * 2 ^ 971

theorem overflowBound_mul : overflowBound * unitCount = (2 ^ 53 - 1 / 2) * 2 ^ 2045 := by
  rw [overflowBound, cast_unitCount, mul_assoc, ← pow_add]

/-- The double that is nearest to a number, and of two that are equally near the one with the even
mantissa; behind the largest one it is infinite. -/
inductive RoundsTo (x : ℚ) : Binary64 → Prop where
  | finite {magnitude : Magnitude} (hlt : x < overflowBound)
      (hnearest : ∀ other : Magnitude, |x - magnitude.value| ≤ |x - other.value|)
      (heven : ∀ other : Magnitude, |x - magnitude.value| = |x - other.value| →
        other = magnitude ∨ magnitude.mantissa % 2 = 0) :
      RoundsTo x (.finite false magnitude)
  | infinite (hle : overflowBound ≤ x) : RoundsTo x (.infinite false)

theorem lt_overflowBound_iff {x : ℚ} :
    x < overflowBound ↔ x * unitCount < (2 ^ 53 - 1 / 2) * 2 ^ 2045 := by
  rw [← overflowBound_mul, mul_lt_mul_iff_left₀ unitCount_pos]

section Quotient

variable {dividend divisor : Nat}

theorem roundsTo_of_nearest?_eq_some (h : 0 < divisor) {magnitude : Magnitude}
    (hnearest : Magnitude.nearest? dividend divisor = some magnitude) :
    RoundsTo (dividend / divisor) (.finite false magnitude) := by
  obtain ⟨k, q, hbinade, hq, hrounded⟩ := Magnitude.exists_nearest?_eq h dividend
  obtain ⟨hnumerator, heven⟩ := Magnitude.rounded_eq_some (hrounded.symm.trans hnearest)
  have hsteps := nearest_steps hbinade hq
  rw [← hnumerator] at hsteps
  constructor
  · rw [lt_overflowBound_iff, ← steps_lt_iff hbinade hq, ← hnumerator]
    exact magnitude.numerator_lt_mul.trans_le (Magnitude.mul_pow_le magnitude.exponent_le)
  · intro other
    rw [Magnitude.abs_sub_value, Magnitude.abs_sub_value]
    exact div_le_div_of_nonneg_right (hsteps other).1 unitCount_pos.le
  · intro other htie
    rw [Magnitude.abs_sub_value, Magnitude.abs_sub_value] at htie
    rcases (hsteps other).2 ((div_left_inj' unitCount_ne_zero).mp htie) with hsame | hq
    · exact Or.inl (Magnitude.eq_of_numerator_eq hsame)
    · exact Or.inr (heven hq)

theorem roundsTo_of_nearest?_eq_none (h : 0 < divisor)
    (hnearest : Magnitude.nearest? dividend divisor = none) :
    RoundsTo (dividend / divisor) (.infinite false) := by
  obtain ⟨k, q, hbinade, hq, hrounded⟩ := Magnitude.exists_nearest?_eq h dividend
  have hmany := Magnitude.rounded_eq_none (hbinade.steps_le hq) (hbinade.le_steps hq)
    (hrounded.symm.trans hnearest)
  refine .infinite (not_lt.mp fun hless => ?_)
  rw [lt_overflowBound_iff, ← steps_lt_iff hbinade hq] at hless
  exact Nat.not_lt.mpr hmany hless

end Quotient

/-- Between two magnitudes with even mantissas lies a third one: the next to the lower one has an
odd mantissa. -/
theorem Magnitude.exists_between {a b : Magnitude} (hlt : a.numerator < b.numerator)
    (ha : a.mantissa % 2 = 0) (hb : b.mantissa % 2 = 0) :
    ∃ c : Magnitude, a.numerator < c.numerator ∧ c.numerator < b.numerator := by
  have hmantissa : a.mantissa + 1 < 2 ^ 53 := by
    have hlt := a.mantissa_lt
    rw [Nat.pow_eq] at hlt
    omega
  have hnormal : a.exponent = 0 ∨ 2 ^ 52 ≤ a.mantissa + 1 :=
    a.normal.imp_right fun hle => hle.trans (Nat.le_succ _)
  let next : Magnitude := ⟨a.mantissa + 1, a.exponent, hmantissa, a.exponent_le, hnormal⟩
  have hnext : next.numerator = a.numerator + 2 ^ a.exponent := Nat.succ_mul ..
  refine ⟨next, by rw [hnext]; exact Nat.lt_add_of_pos_right (Nat.two_pow_pos _), ?_⟩
  have hexponent : a.exponent ≤ b.exponent := by
    by_contra hless
    have hsmall := numerator_lt_of_exponent_lt (Nat.lt_of_not_le hless)
    have hlarge := Nat.mul_le_mul_right (2 ^ a.exponent) (a.normal.resolve_left (by omega))
    rw [Nat.pow_add] at hsmall
    exact Nat.lt_asymm hlt (hsmall.trans_le hlarge)
  have hmultiple : b.numerator = b.mantissa * 2 ^ (b.exponent - a.exponent) * 2 ^ a.exponent := by
    rw [numerator_eq, Nat.mul_assoc, ← Nat.pow_add, Nat.sub_add_cancel hexponent]
  refine Nat.lt_of_le_of_ne ?_ fun hsame => ?_
  · rw [hmultiple, numerator_eq] at hlt
    rw [hmultiple]
    exact Nat.mul_le_mul_right _ (Nat.lt_of_mul_lt_mul_right hlt)
  · have heven : next.mantissa % 2 = 0 := eq_of_numerator_eq hsame ▸ hb
    have hodd : next.mantissa = a.mantissa + 1 := rfl
    omega

/-- Of two magnitudes that are equally near and have even mantissas none is nearest. -/
theorem Magnitude.exists_nearer {x : ℚ} {a b : Magnitude} (hne : a ≠ b)
    (htie : |x - a.value| = |x - b.value|) (ha : a.mantissa % 2 = 0) (hb : b.mantissa % 2 = 0) :
    ∃ c : Magnitude, |x - c.value| < |x - a.value| := by
  wlog hlt : a.numerator < b.numerator generalizing a b
  · have hgt : b.numerator < a.numerator :=
      Nat.lt_of_le_of_ne (Nat.le_of_not_lt hlt) fun heq => hne (eq_of_numerator_eq heq.symm)
    rw [htie]
    exact this hne.symm htie.symm hb ha hgt
  obtain ⟨c, hac, hcb⟩ := exists_between hlt ha hb
  have hvalue {a b : Magnitude} (h : a.numerator < b.numerator) : a.value < b.value :=
    div_lt_div_of_pos_right (Nat.cast_lt.mpr h) unitCount_pos
  have hmiddle : x - a.value = b.value - x := by
    rcases abs_eq_abs.mp htie with heq | heq
    · exact absurd (sub_right_injective heq) (hvalue hlt).ne
    · rw [heq, neg_sub]
  have hac' := hvalue hac
  have hcb' := hvalue hcb
  refine ⟨c, lt_of_lt_of_le (abs_lt.mpr ⟨?_, ?_⟩) (le_abs_self _)⟩
  · linarith
  · linarith

/-- There is one nearest double. -/
theorem RoundsTo.unique {x : ℚ} {a b : Binary64} (ha : RoundsTo x a) (hb : RoundsTo x b) :
    a = b := by
  cases ha with
  | infinite hle =>
      cases hb with
      | infinite _ => rfl
      | finite hlt _ _ => exact absurd hle (not_le.mpr hlt)
  | @finite magnitude hlt hnearest heven =>
      cases hb with
      | infinite hle => exact absurd hle (not_le.mpr hlt)
      | @finite other _ hnearest' heven' =>
          have htie := le_antisymm (hnearest other) (hnearest' magnitude)
          by_contra hne
          have hdiffer : magnitude ≠ other := fun heq => hne (heq ▸ rfl)
          have hfirst := (heven other htie).resolve_left hdiffer.symm
          have hsecond := (heven' magnitude htie.symm).resolve_left hdiffer
          obtain ⟨nearer, hnearer⟩ := Magnitude.exists_nearer hdiffer htie hfirst hsecond
          exact absurd (hnearest nearer) (not_le.mpr hnearer)

/-- Half of the smallest step is rounded to zero. -/
theorem roundsTo_zero {x : ℚ} (hnonneg : 0 ≤ x) (hsmall : x * unitCount ≤ 1 / 2) :
    RoundsTo x (.finite false Magnitude.zero) := by
  have hunits : 0 ≤ x * unitCount := mul_nonneg hnonneg unitCount_pos.le
  have hzero : ((Magnitude.zero).numerator : ℚ) = 0 := by
    simp [Magnitude.numerator, Magnitude.zero]
  refine .finite ?_ (fun other => ?_) fun _ _ => Or.inr rfl
  · rw [lt_overflowBound_iff]
    calc x * unitCount ≤ 1 / 2 := hsmall
      _ < (2 ^ 53 - 1 / 2) * 1 := by norm_num
      _ ≤ (2 ^ 53 - 1 / 2) * 2 ^ 2045 :=
        mul_le_mul_of_nonneg_left (one_le_pow₀ one_le_two) (by norm_num)
  · rw [Magnitude.abs_sub_value, Magnitude.abs_sub_value, hzero, sub_zero, abs_of_nonneg hunits]
    refine div_le_div_of_nonneg_right ?_ unitCount_pos.le
    rcases Nat.eq_zero_or_pos other.numerator with hnone | hsome
    · rw [hnone, Nat.cast_zero, sub_zero]
      exact le_abs_self _
    · have hone : (1 : ℚ) ≤ other.numerator := by exact_mod_cast hsome
      rw [abs_sub_comm]
      refine le_trans ?_ (le_abs_self _)
      linarith

/-! ## Decimals -/

theorem two_pow_le_ten_pow {m n : Nat} (h : m ≤ 3 * n) : (2 : ℚ) ^ m ≤ 10 ^ n :=
  calc (2 : ℚ) ^ m ≤ 2 ^ (3 * n) := pow_le_pow_right₀ one_le_two h
    _ = (2 ^ 3) ^ n := pow_mul ..
    _ ≤ 10 ^ n := pow_le_pow_left₀ (by norm_num) (by norm_num) n

theorem inv_ten_pow_mul_le {m n : Nat} (h : m + 1 ≤ 3 * n) :
    ((10 : ℚ) ^ n)⁻¹ * 2 ^ m ≤ 1 / 2 := by
  have hpow := two_pow_le_ten_pow h
  rw [pow_succ] at hpow
  rw [inv_mul_le_iff₀ (pow_pos (by norm_num) n)]
  linarith

/-- Numbers up to `10 ^ (-400)` are less than half of the smallest step. -/
theorem mul_unitCount_le {x : ℚ} (h : x ≤ 10 ^ (-400 : Int)) : x * unitCount ≤ 1 / 2 := by
  refine (mul_le_mul_of_nonneg_right h unitCount_pos.le).trans ?_
  rw [zpow_neg, zpow_ofNat, cast_unitCount]
  exact inv_ten_pow_mul_le (by decide)

/-- Numbers from `10 ^ 400` on lie behind the largest double. -/
theorem overflowBound_le : overflowBound ≤ 10 ^ (400 : Int) := by
  have hpos : (0 : ℚ) ≤ 2 ^ 971 := pow_nonneg two_pos.le 971
  calc overflowBound ≤ 2 ^ 53 * 2 ^ 971 := mul_le_mul_of_nonneg_right (by norm_num) hpos
    _ = 2 ^ 1024 := (pow_add ..).symm
    _ ≤ 10 ^ 400 := two_pow_le_ten_pow (by decide)

namespace Decimal

/-- The exact value of a decimal. -/
def value (decimal : Decimal) : ℚ :=
  decimal.digits * 10 ^ decimal.exponent

theorem fraction_pos (decimal : Decimal) : 0 < decimal.fraction.2 := by
  unfold fraction
  split
  · exact Nat.one_pos
  · exact Nat.pow_pos (by decide)

theorem value_eq_div (decimal : Decimal) :
    decimal.value = decimal.fraction.1 / decimal.fraction.2 := by
  obtain ⟨digits, exponent⟩ := decimal
  cases exponent with
  | ofNat exponent => simp [value, fraction]
  | negSucc exponent =>
      simp only [value, fraction, zpow_negSucc, Nat.pow_eq, Nat.cast_pow, Nat.cast_ofNat]
      rw [div_eq_mul_inv]

theorem value_nonneg (decimal : Decimal) : 0 ≤ decimal.value :=
  mul_nonneg (Nat.cast_nonneg _) (zpow_nonneg (by norm_num) _)

/-- The size of a decimal is the number of its digits before the point. -/
theorem value_lt (decimal : Decimal) :
    decimal.value < 10 ^ (digitCount decimal.digits + decimal.exponent) := by
  have hdigits : (decimal.digits : ℚ) < 10 ^ (digitCount decimal.digits : Int) := by
    rw [zpow_natCast]
    exact_mod_cast digitCount_le_iff.mp (Nat.le_refl (digitCount decimal.digits))
  rw [zpow_add₀ (by norm_num)]
  exact mul_lt_mul_of_pos_right hdigits (zpow_pos (by norm_num) _)

theorem le_value {decimal : Decimal} (hne : decimal.digits ≠ 0) :
    10 ^ (digitCount decimal.digits + decimal.exponent - 1) ≤ decimal.value := by
  have hpos : digitCount decimal.digits ≠ 0 := by
    intro hzero
    have hlt := digitCount_le_iff.mp hzero.le
    omega
  obtain ⟨count, hcount⟩ := Nat.exists_eq_succ_of_ne_zero hpos
  have hdigits : (10 : ℚ) ^ (count : Int) ≤ decimal.digits := by
    rw [zpow_natCast]
    have hle : 10 ^ count ≤ decimal.digits := by
      rw [← Nat.not_lt, ← digitCount_le_iff]
      omega
    exact_mod_cast hle
  have hexponent : (digitCount decimal.digits + decimal.exponent - 1 : Int) =
      count + decimal.exponent := by
    omega
  rw [hexponent, zpow_add₀ (by norm_num)]
  exact mul_le_mul_of_nonneg_right hdigits (zpow_nonneg (by norm_num) _)

/-- A decimal is read as the double that is nearest to it. -/
theorem roundsTo_toBinary64 (decimal : Decimal) :
    RoundsTo decimal.value (decimal.toBinary64 false) := by
  unfold toBinary64 magnitude?
  simp only
  split
  next magnitude hmagnitude =>
    split at hmagnitude
    next hsmall =>
      cases hmagnitude
      refine roundsTo_zero decimal.value_nonneg ?_
      rcases hsmall with hzero | hsize
      · rw [value, hzero, Nat.cast_zero, zero_mul, zero_mul]
        norm_num
      · have htiny : decimal.value ≤ 10 ^ (-400 : Int) :=
          decimal.value_lt.le.trans (zpow_le_zpow_right₀ (by norm_num) hsize.le)
        exact mul_unitCount_le htiny
    next =>
      split at hmagnitude
      next => cases hmagnitude
      next =>
        rw [value_eq_div]
        exact roundsTo_of_nearest?_eq_some decimal.fraction_pos hmagnitude
  next hnone =>
    split at hnone
    next => cases hnone
    next hdigits =>
      split at hnone
      next hsize =>
        have hhuge : 10 ^ (400 : Int) ≤ decimal.value :=
          (zpow_le_zpow_right₀ (by norm_num) (by omega)).trans
            (le_value fun hzero => hdigits (Or.inl hzero))
        exact .infinite (overflowBound_le.trans hhuge)
      next =>
        rw [value_eq_div]
        exact roundsTo_of_nearest?_eq_none decimal.fraction_pos hnone

end Decimal

/-! ## Integers -/

/-- Every integer of at most 53 bits is a magnitude. -/
theorem Magnitude.exists_numerator_eq {n : Nat} (h : n < 2 ^ 53) :
    ∃ magnitude : Magnitude, magnitude.numerator = n * unitCount := by
  by_cases hzero : n = 0
  · exact ⟨zero, by simp [numerator, zero, hzero]⟩
  · have hlog : n.log2 ≤ 52 := Nat.lt_succ_iff.mp ((Nat.log2_lt hzero).mpr h)
    have hlt : n * 2 ^ (52 - n.log2) < 2 ^ 53 := by
      calc n * 2 ^ (52 - n.log2) < 2 ^ (n.log2 + 1) * 2 ^ (52 - n.log2) :=
            (Nat.mul_lt_mul_right (Nat.two_pow_pos _)).mpr Nat.lt_log2_self
        _ = 2 ^ 53 := by rw [← Nat.pow_add]; congr 1; omega
    have hle : 2 ^ 52 ≤ n * 2 ^ (52 - n.log2) := by
      calc 2 ^ 52 = 2 ^ n.log2 * 2 ^ (52 - n.log2) := by rw [← Nat.pow_add]; congr 1; omega
        _ ≤ n * 2 ^ (52 - n.log2) := Nat.mul_le_mul_right _ (Nat.log2_self_le hzero)
    refine ⟨⟨n * 2 ^ (52 - n.log2), 1022 + n.log2, hlt, by omega, Or.inr hle⟩, ?_⟩
    have hunits : 52 - n.log2 + (1022 + n.log2) = 1074 := by omega
    simp only [unitCount, Nat.pow_eq, numerator_eq, Nat.mul_assoc, ← Nat.pow_add, hunits]

theorem Magnitude.value_eq_iff {magnitude : Magnitude} {n : Nat} :
    magnitude.value = n ↔ magnitude.numerator = n * unitCount := by
  rw [value, div_eq_iff unitCount_ne_zero]
  exact_mod_cast Iff.rfl

/-- A multiple of a unit, with a sign in front of it. -/
theorem signed_eq_mul_iff {negative : Bool} {n : Int} {count unit : Nat} (hpos : 0 < unit) :
    (if negative then -(count : Int) else count) = n * unit ↔
      ∃ whole : Nat, count = whole * unit ∧ n = if negative then -(whole : Int) else whole := by
  have hunit : (0 : Int) < unit := Int.natCast_pos.mpr hpos
  constructor
  · intro h
    have hcount : count = n.natAbs * unit := by
      have habs := congrArg Int.natAbs h
      rw [Int.natAbs_mul, Int.natAbs_natCast] at habs
      cases negative with
      | false => simpa using habs
      | true => simpa using habs
    refine ⟨n.natAbs, hcount, ?_⟩
    cases negative with
    | false =>
        have hsign : 0 ≤ n := nonneg_of_mul_nonneg_left (h ▸ Int.natCast_nonneg _) hunit
        exact (Int.natAbs_of_nonneg hsign).symm
    | true =>
        have hsign : 0 ≤ -n := by
          refine nonneg_of_mul_nonneg_left (b := (unit : Int)) ?_ hunit
          have hnegate : -n * unit = count := by
            rw [Int.neg_mul, ← h, if_pos rfl, Int.neg_neg]
          exact hnegate ▸ Int.natCast_nonneg _
        simp only [if_true]
        omega
  · rintro ⟨whole, rfl, rfl⟩
    cases negative with
    | false => simp
    | true => simp

/-- A double is an integer if its exact value is. -/
theorem Binary64.integer?_eq_some_iff_value? {double : Binary64} {n : Int} :
    double.integer? = some n ↔ (Number.real double).value? = some (n : ℚ) := by
  cases double with
  | notANumber => exact iff_of_false nofun nofun
  | infinite negative => exact iff_of_false nofun nofun
  | finite negative magnitude =>
      have hpos : 0 < unitCount := Nat.cast_pos.mp unitCount_pos
      have hvalue : (Number.real (.finite negative magnitude)).value? = some (n : ℚ) ↔
          (if negative then -(magnitude.numerator : Int) else magnitude.numerator) =
            n * unitCount := by
        rw [Number.value?_eq, units?, Option.map_some, Option.some.injEq,
          div_eq_iff unitCount_ne_zero]
        exact_mod_cast Iff.rfl
      rw [integer?_eq_some_iff, hvalue, signed_eq_mul_iff hpos]
      exact exists_congr fun whole => and_congr_left' Magnitude.whole?_eq_some_iff

/-- An integer of at most 53 bits is rounded to itself. -/
theorem RoundsTo.value?_eq {n : Nat} (h : n < 2 ^ 53) {double : Binary64}
    (hrounds : RoundsTo n double) : (Number.real double).value? = some (n : ℚ) := by
  obtain ⟨exact, hexact⟩ := Magnitude.exists_numerator_eq h
  cases hrounds with
  | finite hlt hnearest heven =>
      have hzero := hnearest exact
      rw [Magnitude.value_eq_iff.mpr hexact, sub_self, abs_zero, abs_nonpos_iff,
        sub_eq_zero] at hzero
      rw [Magnitude.value?_real, hzero]
  | infinite hle =>
      have hlarge : (2 : ℚ) ^ 53 ≤ overflowBound :=
        calc (2 : ℚ) ^ 53 ≤ (2 ^ 53 - 1 / 2) * 2 ^ 1 := by norm_num
          _ ≤ (2 ^ 53 - 1 / 2) * 2 ^ 971 :=
            mul_le_mul_of_nonneg_left (pow_le_pow_right₀ one_le_two (by decide)) (by norm_num)
      have hcast : (n : ℚ) < 2 ^ 53 := by exact_mod_cast h
      exact absurd (hlarge.trans hle) (not_le.mpr hcast)

end EditableMarkup
