import EditableMarkup.Proofs.Number.Nearest

/-!
# Numbers that are read back

A finite number is printed as one numeric literal, with a minus in front of it if
the number is below zero.  The literal is read back with the exact value of the
number, though a double may come back as an integer, and it is printed as the
same text again.  So it makes no difference that a double between `2 ^ 53` and
`10 ^ 21` is printed as a long integer.
-/

namespace EditableMarkup

/-! ## Signs -/

theorem Magnitude.value_nonneg (magnitude : Magnitude) : 0 ≤ magnitude.value :=
  div_nonneg (Nat.cast_nonneg _) unitCount_pos.le

/-- The double with the other sign is the opposite integer, if it is one. -/
theorem Binary64.integer?_negate (double : Binary64) :
    double.negate.integer? = double.integer?.map fun n => -n := by
  cases double with
  | notANumber => rfl
  | infinite negative => rfl
  | finite negative magnitude =>
      cases hwhole : magnitude.whole? with
      | none => simp [negate, integer?, hwhole]
      | some whole =>
          cases negative with
          | false => simp [negate, integer?, hwhole]
          | true => simp [negate, integer?, hwhole]

namespace Number

theorem value?_finite (negative : Bool) (magnitude : Magnitude) :
    (real (.finite negative magnitude)).value? =
      some (if negative then -magnitude.value else magnitude.value) := by
  cases negative with
  | false => exact magnitude.value?_real
  | true =>
      rw [value?_eq, units?, if_pos rfl, Option.map_some, if_pos rfl, Int.cast_neg,
        Int.cast_natCast, neg_div, Magnitude.value]

/-- The other sign makes the opposite value. -/
theorem value?_negate (number : Number) :
    number.negate.value? = number.value?.map fun x => -x := by
  cases number with
  | integer value => rw [negate, value?, value?, Option.map_some, Int.cast_neg]
  | real value =>
      cases value with
      | notANumber => rfl
      | infinite negative => rfl
      | finite negative magnitude =>
          rw [negate, Binary64.negate, value?_finite, value?_finite, Option.map_some]
          cases negative with
          | false => rfl
          | true => exact congrArg some (neg_neg _).symm

/-- A double below zero has its sign. -/
theorem sign_of_neg {negative : Bool} {magnitude : Magnitude} {x : ℚ}
    (hvalue : (real (.finite negative magnitude)).value? = some x) (hneg : x < 0) :
    negative = true := by
  cases negative with
  | true => rfl
  | false =>
      rw [value?_finite] at hvalue
      cases hvalue
      exact absurd hneg (not_lt.mpr magnitude.value_nonneg)

/-! ## Printing -/

theorem integerText_of_neg {value : Int} (hneg : value < 0) :
    integerText value = "-" ++ integerText (-value) := by
  have hpos : ¬ -value < 0 := by omega
  simp only [integerText, Int.natAbs_neg, signed, hneg, hpos, decide_true, decide_false, if_true,
    Bool.false_eq_true, if_false]

/-- A number below zero is printed with a minus in front of what its opposite is printed as. -/
theorem literal_of_neg {number : Number} {x : ℚ} (hvalue : number.value? = some x)
    (hneg : x < 0) : number.literal = "-" ++ number.negate.literal := by
  cases number with
  | integer value =>
      cases hvalue
      exact integerText_of_neg (Int.cast_lt_zero.mp hneg)
  | real value =>
      cases value with
      | notANumber => cases hvalue
      | infinite negative => cases hvalue
      | finite negative magnitude =>
          cases sign_of_neg hvalue hneg
          have hfinite : finiteText true magnitude = "-" ++ finiteText false magnitude := by
            simp only [finiteText, signed, if_true, Bool.false_eq_true, if_false]
          have hopposite := Binary64.integer?_negate (.finite true magnitude)
          simp only [Binary64.negate, Bool.not_true] at hopposite
          cases hn : (Binary64.finite true magnitude).integer? with
          | none =>
              rw [hn, Option.map_none] at hopposite
              simp only [literal, negate, Binary64.negate, Bool.not_true, hn, hopposite, hfinite]
          | some n =>
              have hvalue' := Binary64.integer?_eq_some_iff_value?.mp hn
              rw [hvalue, Option.some.injEq] at hvalue'
              have hneg' : n < 0 := Int.cast_lt_zero.mp (hvalue' ▸ hneg)
              rw [hn, Option.map_some] at hopposite
              simp only [literal, negate, Binary64.negate, Bool.not_true, hn, hopposite, hfinite,
                Int.natAbs_neg, integerText_of_neg hneg']
              split
              · rfl
              · rfl

/-- A number that is not below zero is printed without a minus; this is so for both zeros. -/
theorem exists_prints_of_nonneg {number : Number} {x : ℚ} (hvalue : number.value? = some x)
    (hwritable : number.isWritable = true) (hnonneg : 0 ≤ x) :
    ∃ text size, number.Prints false text size := by
  have hsign {n : Int} (h : 0 ≤ n) : decide (n < 0) = false := decide_eq_false (not_lt.mpr h)
  cases number with
  | integer value =>
      cases hvalue
      simp only [isWritable, decide_eq_true_eq] at hwritable
      have hprints : (integer value).Prints (decide (value < 0)) _ _ :=
        prints_integer hwritable rfl rfl
      rw [hsign (Int.cast_nonneg_iff.mp hnonneg)] at hprints
      exact ⟨_, _, hprints⟩
  | real value =>
      cases value with
      | notANumber => cases hvalue
      | infinite negative => cases hvalue
      | finite negative magnitude =>
          by_cases hsmall : ∃ n, (Binary64.finite negative magnitude).integer? = some n ∧
              n.natAbs < 10 ^ 21
          · obtain ⟨n, hn, hlt⟩ := hsmall
            have hprints := prints_small hn hlt
            rw [Binary64.integer?_eq_some_iff_value?, hvalue, Option.some.injEq] at hn
            rw [hsign (Int.cast_nonneg_iff.mp (hn ▸ hnonneg))] at hprints
            exact ⟨_, _, hprints⟩
          · have hprints := prints_real fun n hn hlt => hsmall ⟨n, hn, hlt⟩
            cases negative with
            | false => exact ⟨_, _, hprints⟩
            | true =>
                -- a negative zero would be a small integer
                rw [value?_finite, if_pos rfl, Option.some.injEq] at hvalue
                have hzero : magnitude.value = 0 :=
                  le_antisymm (by linarith) magnitude.value_nonneg
                refine absurd ⟨0, ?_, by decide⟩ hsmall
                rw [Binary64.integer?_eq_some_iff_value?, value?_finite, if_pos rfl, hzero]
                simp

/-! ## Reading back -/

theorem literal_reread (number : Number) : number.reread.literal = number.literal := by
  cases number with
  | integer value => rfl
  | real value =>
      cases value with
      | notANumber => rfl
      | infinite negative => rfl
      | finite negative magnitude =>
          cases hn : (Binary64.finite negative magnitude).integer? with
          | none => rw [reread, hn]
          | some n =>
              simp only [reread, hn]
              split
              · next hsmall => simp only [literal, hn, Nat.pow_eq, if_pos hsmall]
              · rfl

theorem isWritable_reread (number : Number) : number.reread.isWritable = number.isWritable := by
  cases number with
  | integer value => rfl
  | real value =>
      cases hn : value.integer? with
      | none => rw [reread, hn]
      | some n =>
          simp only [reread, hn]
          split
          · next hsmall =>
              have hvalue : n.natAbs < 10 ^ digitLimit := lt_pow_digitLimit hsmall
              simp only [isWritable, Nat.pow_eq, hvalue, decide_true]
          · rfl

theorem isFinite_of_value? {number : Number} {x : ℚ} (hvalue : number.value? = some x) :
    number.isFinite = true := by
  cases number with
  | integer value => rfl
  | real value =>
      cases value with
      | notANumber => cases hvalue
      | infinite negative => cases hvalue
      | finite negative magnitude => rfl

/-- A number is read back with its exact value. -/
theorem value?_reread {number : Number} {x : ℚ} (hvalue : number.value? = some x) :
    number.reread.value? = some x := by
  have hsame := reread_sameValue (isFinite_of_value? hvalue)
  rcases sameValue_iff.mp hsame with ⟨y, hreread, hy⟩ | ⟨negative, _, hinfinite⟩
  · rwa [← hvalue, hy]
  · rw [hinfinite] at hvalue
    cases hvalue

/-- A finite number that is not below zero is printed as one numeric literal, unless it is an integer
with too many digits.  The literal is read back with the exact value of the number, and what is read
back is printed as the same literal.  A number below zero is printed with a minus in front of the
literal of its opposite. -/
theorem numberOf?_literal {number : Number} {x : ℚ} (hvalue : number.value? = some x)
    (hwritable : number.isWritable = true) :
    (0 ≤ x → Grammar.Lexeme.number number.literal.toList = some number.literal.toList.length ∧
      ∃ again, Literal.numberOf? number.literal = .ok (some again) ∧ again.value? = some x ∧
        again.literal = number.literal) ∧
    (x < 0 → number.negate.value? = some (-x) ∧
      number.literal = "-" ++ number.negate.literal) := by
  constructor
  · intro hnonneg
    obtain ⟨text, size, hliteral, hread, hsize⟩ := exists_prints_of_nonneg hvalue hwritable hnonneg
    have hsize : size = number.reread := hsize
    have hliteral : number.literal.toList = text := hliteral
    refine ⟨?_, number.reread, ?_, value?_reread hvalue, literal_reread number⟩
    · have hlexeme := hread.lexeme [] rfl
      rwa [List.append_nil, ← hliteral] at hlexeme
    · have hmeaning := hread.meaning
      rwa [← hliteral, String.ofList_toList, hsize] at hmeaning
  · intro hneg
    refine ⟨?_, literal_of_neg hvalue hneg⟩
    rw [value?_negate, hvalue, Option.map_some]

/-- The double `2 ^ 53 + 2`, the first one beyond the integers of safe size that is no power of
two. -/
def longDouble : Binary64 :=
  .finite false ⟨2 ^ 52 + 1, 1075, by decide, by decide, .inr (by decide)⟩

/-- A double beyond the safe size is printed as a long integer, and its opposite with a minus in
front of this integer. -/
theorem numberOf?_literal_longDouble :
    (real longDouble).value? = some (2 ^ 53 + 2) ∧ (real longDouble).isWritable = true ∧
      (real longDouble).literal = "9007199254740994" ∧
      Grammar.Lexeme.number "9007199254740994".toList = some 16 ∧
      (∃ again, Literal.numberOf? "9007199254740994" = .ok (some again) ∧
        again.value? = some (2 ^ 53 + 2) ∧ again.literal = "9007199254740994") ∧
      (real longDouble.negate).literal = "-9007199254740994" := by
  have hvalue : (real longDouble).value? = some (2 ^ 53 + 2) := by
    have hinteger : longDouble.integer? = some (2 ^ 53 + 2) := by decide +kernel
    have hvalue := Binary64.integer?_eq_some_iff_value?.mp hinteger
    rwa [Int.cast_add, Int.cast_pow, Int.cast_ofNat] at hvalue
  have hopposite : (real longDouble.negate).value? = some (-(2 ^ 53 + 2)) := by
    have hnegate := value?_negate (real longDouble)
    rwa [hvalue, Option.map_some] at hnegate
  have hliteral : (real longDouble).literal = "9007199254740994" := by decide +kernel
  obtain ⟨hnumber, hagain⟩ := (numberOf?_literal hvalue rfl).1 (by positivity)
  obtain ⟨_, hminus⟩ := (numberOf?_literal hopposite rfl).2 (by norm_num)
  rw [hliteral] at hnumber hagain
  refine ⟨hvalue, rfl, hliteral, hnumber, hagain, hminus.trans ?_⟩
  decide +kernel

end Number

end EditableMarkup
