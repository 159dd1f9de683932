import EditableMarkup.Number.Basic
import Mathlib.Data.Rat.Cast.Order
import Mathlib.Tactic.FieldSimp

/-!
# Exact values

Numbers are compared by their exact values: an integer and a double are the same
only if they are the same fraction, however many bits the integer has.
-/

namespace EditableMarkup.Number

/-- The number of units in which values are counted that make up one. -/
def unitCount : Nat := Nat.pow 2 1074

theorem unitCount_ne_zero : (unitCount : ℚ) ≠ 0 :=
  Nat.cast_ne_zero.mpr (Nat.pow_pos Nat.two_pos).ne'

/-- The exact value of a finite number. -/
def value? : Number → Option ℚ
  | integer value => some value
  | real (.finite negative magnitude) =>
    some ((if negative then -1 else 1) * magnitude.mantissa * 2 ^ magnitude.exponent / unitCount)
  | real _ => none

theorem units?_integer (value : Int) : (integer value).units? = some (value * unitCount) := by
  simp only [units?, unitCount]

/-- The exact value is given by the count of units. -/
theorem value?_eq (number : Number) :
    number.value? = number.units?.map fun units : Int => (units : ℚ) / unitCount := by
  cases number with
  | integer value =>
      rw [value?, units?_integer, Option.map_some, Int.cast_mul, Int.cast_natCast,
        mul_div_cancel_right₀ _ unitCount_ne_zero]
  | real value =>
      cases value with
      | notANumber => rfl
      | infinite negative => rfl
      | finite negative magnitude =>
          have hnumerator : (magnitude.numerator : ℚ) =
              magnitude.mantissa * 2 ^ magnitude.exponent :=
            (Nat.cast_mul _ _).trans (congrArg _ (Nat.cast_pow 2 _))
          simp only [value?, units?, Option.map_some, mul_assoc, ← hnumerator]
          cases negative with
          | false => rw [if_neg Bool.false_ne_true, if_neg Bool.false_ne_true, one_mul, Int.cast_natCast]
          | true => rw [if_pos rfl, if_pos rfl, neg_one_mul, Int.cast_neg, Int.cast_natCast]

theorem units?_eq_none_iff {number : Number} :
    number.units? = none ↔
      number = real .notANumber ∨ ∃ negative, number = real (.infinite negative) := by
  cases number with
  | integer value => exact iff_of_false nofun (by rintro (h | ⟨_, h⟩) <;> cases h)
  | real value =>
      cases value with
      | notANumber => exact iff_of_true rfl (.inl rfl)
      | infinite negative => exact iff_of_true rfl (.inr ⟨negative, rfl⟩)
      | finite negative magnitude => exact iff_of_false nofun (by rintro (h | ⟨_, h⟩) <;> cases h)

theorem sameValue_of_units? {a b : Number} {x y : Int} (ha : a.units? = some x)
    (hb : b.units? = some y) : a.sameValue b = (x == y) := by
  simp only [sameValue, ha, hb]

/-- A finite number is not the same as any other. -/
theorem sameValue_of_units?_eq_none {a b : Number} (h : a.units? = none ↔ b.units? ≠ none) :
    a.sameValue b = false := by
  cases ha : a.units? <;> cases hb : b.units? <;> simp_all [sameValue]

theorem not_sameValue_notANumber (number : Number) :
    (real .notANumber).sameValue number = false ∧ number.sameValue (real .notANumber) = false := by
  rcases number with value | (_ | negative | ⟨negative, magnitude⟩) <;> exact ⟨rfl, rfl⟩

/-- Numbers are the same if they have the same exact value, or are infinite with the same sign. -/
theorem sameValue_iff {a b : Number} :
    a.sameValue b = true ↔ (∃ value, a.value? = some value ∧ b.value? = some value) ∨
      ∃ negative, a = real (.infinite negative) ∧ b = real (.infinite negative) := by
  rw [value?_eq, value?_eq]
  cases ha : a.units? with
  | some x =>
      have hfinite : ¬∃ negative, a = real (.infinite negative) ∧ b = real (.infinite negative) := by
        rintro ⟨negative, rfl, _⟩
        cases ha
      cases hb : b.units? with
      | none =>
          rw [sameValue_of_units?_eq_none (by simp [ha, hb])]
          refine iff_of_false nofun ?_
          rintro (⟨_, _, hvalue⟩ | hinfinite)
          · cases hvalue
          · exact hfinite hinfinite
      | some y =>
          rw [sameValue_of_units? ha hb, beq_iff_eq, or_iff_left hfinite]
          constructor
          · rintro rfl
            exact ⟨_, rfl, rfl⟩
          · rintro ⟨value, hx, hy⟩
            have hvalues := (Option.some.inj hx).trans (Option.some.inj hy).symm
            exact Int.cast_injective ((div_left_inj' unitCount_ne_zero).mp hvalues)
  | none =>
      simp only [Option.map_none, reduceCtorEq, false_and, exists_false, false_or]
      rcases units?_eq_none_iff.mp ha with rfl | ⟨negative, rfl⟩
      · simp [(not_sameValue_notANumber b).1]
      · cases hb : b.units? with
        | some y =>
            rw [sameValue_of_units?_eq_none (by simp [ha, hb])]
            refine iff_of_false nofun ?_
            rintro ⟨_, _, rfl⟩
            cases hb
        | none =>
            rcases units?_eq_none_iff.mp hb with rfl | ⟨other, rfl⟩
            · simp [(not_sameValue_notANumber _).2]
            · have hsign : (real (.infinite negative)).sameValue (real (.infinite other)) =
                  (negative == other) := rfl
              rw [hsign, beq_iff_eq]
              simp [eq_comm]

/-- A number is the same as itself unless it is undefined. -/
theorem sameValue_self {number : Number} (h : number ≠ real .notANumber) :
    number.sameValue number = true := by
  cases hunits : number.units? with
  | some units => rw [sameValue_of_units? hunits hunits, beq_self_eq_true]
  | none =>
      obtain ⟨negative, rfl⟩ := (units?_eq_none_iff.mp hunits).resolve_left h
      exact sameValue_iff.mpr (.inr ⟨negative, rfl, rfl⟩)

theorem sameValue_symm {a b : Number} (h : a.sameValue b = true) : b.sameValue a = true := by
  rcases sameValue_iff.mp h with ⟨value, ha, hb⟩ | ⟨negative, ha, hb⟩
  · exact sameValue_iff.mpr (.inl ⟨value, hb, ha⟩)
  · exact sameValue_iff.mpr (.inr ⟨negative, hb, ha⟩)

/-- Exact values make equality transitive, also from an integer over a double to an integer. -/
theorem sameValue_trans {a b c : Number} (h : a.sameValue b = true) (h' : b.sameValue c = true) :
    a.sameValue c = true := by
  rcases sameValue_iff.mp h with ⟨value, ha, hb⟩ | ⟨negative, rfl, rfl⟩
  · rcases sameValue_iff.mp h' with ⟨value', hb', hc⟩ | ⟨negative, rfl, _⟩
    · rw [hb] at hb'
      cases hb'
      exact sameValue_iff.mpr (.inl ⟨value, ha, hc⟩)
    · cases hb
  · exact h'

end EditableMarkup.Number
