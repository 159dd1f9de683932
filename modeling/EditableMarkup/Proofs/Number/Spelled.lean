import EditableMarkup.Proofs.Literal.Numerals
import EditableMarkup.Proofs.Number.Digits

/-!
# What a decimal text stands for

A decimal text of the ten digits is a numeral without separators.  So it stands
for the number that it spells: for an integer, if it has digits only, and else
for the double nearest to the decimal.
-/

namespace EditableMarkup.Literal

open EditableMarkup.Text

theorem isDigit_of_allDigits {text : List Char} (h : AllDigits text) :
    ∀ c ∈ text, isDigit c = true :=
  fun c hc => isDigit_of_char (h c hc)

theorem numeral_eq_ofDigitChars {text : List Char} (h : AllDigits text) :
    numeral 10 text = Nat.ofDigitChars 10 text 0 := by
  induction text using List.reverseRecOn with
  | nil => rfl
  | append_singleton text c ih =>
      obtain ⟨htext, hc⟩ := List.forall_mem_append.mp h
      have hvalue := hexValue?_of_char (hc c (List.mem_singleton_self c))
      rw [numeral_concat, ih htext, hvalue, Nat.ofDigitChars_append, Nat.ofDigitChars_cons,
        Nat.ofDigitChars_nil, Option.getD_some]

theorem FractionText.pointShape {fraction digits : List Char} (h : FractionText fraction digits) :
    PointShape fraction digits := by
  cases h with
  | missing => exact Or.inl ⟨rfl, rfl⟩
  | digits _ _ => exact Or.inr rfl

theorem ExponentText.exponentShape {exponent : List Char} {value : Int}
    (h : ExponentText exponent value) :
    ExponentShape exponent ∧ exponentValue exponent = value := by
  cases h with
  | missing => exact ⟨Or.inl rfl, rfl⟩
  | @positive digits h hne =>
      refine ⟨Or.inr ⟨'e', ['+'], digits, rfl, by simp, by simp, hne, isDigit_of_allDigits h⟩, ?_⟩
      rw [exponentValue, numeral_eq_ofDigitChars h]
  | @negative digits h hne =>
      refine ⟨Or.inr ⟨'e', ['-'], digits, rfl, by simp, by simp, hne, isDigit_of_allDigits h⟩, ?_⟩
      rw [exponentValue, numeral_eq_ofDigitChars h]

section Parts

variable {whole fraction fractionDigits exponent : List Char} {value : Int}

/-- A decimal text with a fraction or an exponent stands for the double nearest to it. -/
theorem digitsNumber_append (hwhole : AllDigits whole) (hne : whole ≠ [])
    (hfraction : FractionText fraction fractionDigits) (hexponent : ExponentText exponent value)
    (hmore : fraction ≠ [] ∨ exponent ≠ []) :
    digitsNumber (whole ++ fraction ++ exponent) =
      .ok (integerIfSafe (Decimal.toBinary64 false
        ⟨Nat.ofDigitChars 10 (whole ++ fractionDigits) 0, value - fractionDigits.length⟩)) := by
  have hall := hwhole.append hfraction.allDigits
  obtain ⟨hshape, hvalue⟩ := hexponent.exponentShape
  have hne' : whole ++ fractionDigits ≠ [] := by simp [hne]
  rw [digitsNumber_decimal hfraction.pointShape (isDigit_of_allDigits hall) hne' hshape hmore,
    numeral_eq_ofDigitChars hall, hvalue]

/-- Digits alone stand for an integer, if there are not too many of them. -/
theorem digitsNumber_digits {digits : List Char} (h : AllDigits digits) (hne : digits ≠ [])
    (hlength : digits.length ≤ Number.digitLimit) :
    digitsNumber digits = .ok (.integer (Nat.ofDigitChars 10 digits 0)) := by
  rw [digitsNumber_whole (isDigit_of_allDigits h) hne, if_neg (Nat.not_lt.mpr hlength),
    numeral_eq_ofDigitChars h]

/-- A decimal text has no separators, and no final letter makes it a big integer. -/
theorem numberOf?_of_parts (hwhole : AllDigits whole)
    (hfraction : FractionText fraction fractionDigits) (hexponent : ExponentText exponent value)
    {number : Number} (h : digitsNumber (whole ++ fraction ++ exponent) = .ok number) :
    numberOf? (String.ofList (whole ++ fraction ++ exponent)) = .ok (some number) := by
  have hplain : ∀ c ∈ whole ++ fraction ++ exponent, isDigit c = true ∨ c ∈ decimalMarks := by
    intro c hc
    rcases mem_decimal hfraction.pointShape hexponent.exponentShape.1 hc with hc | hc
    · exact Or.inl (isDigit_of_allDigits (hwhole.append hfraction.allDigits) c hc)
    · exact hc
  have hlast : (whole ++ fraction ++ exponent).getLast? ≠ some 'n' := by
    intro hlast
    exact absurd (hplain 'n' (List.mem_of_getLast? hlast)) (by decide)
  have hfilter : (whole ++ fraction ++ exponent).filter (· != '_') =
      whole ++ fraction ++ exponent := by
    refine List.filter_eq_self.mpr fun c hc => bne_iff_ne.mpr ?_
    rintro rfl
    exact absurd (hplain '_' hc) (by decide)
  rw [numberOf?, String.toList_ofList, if_neg hlast, hfilter, h]
  rfl

end Parts

end EditableMarkup.Literal
