import EditableMarkup.Proofs.Literal.Numerals
import EditableMarkup.Proofs.Number.Nearest

/-!
# The value of a numeral

A numeral is digits in a base, or a decimal with a fraction and an exponent;
where separators stand among its digits makes no difference.  An integer is
read as it is, and a decimal as the double that is nearest to it, or as the
integer that this double is.  So every way to write an integer of safe size is
read as the same integer.
-/

namespace EditableMarkup.Literal

open EditableMarkup.Grammar EditableMarkup.Text

/-- The digits of a numeric literal: behind the letter of a base, alone, or with a fraction and an
exponent. -/
inductive Numeral where
  | radix (base : Nat) (digits : List Char)
  | whole (digits : List Char)
  | decimal (front fraction : List Char) (exponent : Int)

namespace Numeral

/-- The exact value of a numeral. -/
def value : Numeral → ℚ
  | radix base digits => numeral base digits
  | whole digits => numeral 10 digits
  | decimal front fraction exponent =>
    numeral 10 (front ++ fraction) * 10 ^ (exponent - fraction.length)

/-- Decimal digits alone are read up to a number of digits. -/
def Fits : Numeral → Prop
  | whole digits => digits.length ≤ Number.digitLimit
  | _ => True

/-- The letters of the bases. -/
def letterBases : List (Char × Nat) :=
  [('x', 16), ('X', 16), ('o', 8), ('O', 8), ('b', 2), ('B', 2)]

/-- A way to write a numeral, with separators among its digits. -/
inductive WrittenAs : Numeral → List Char → Prop where
  | radix {letter : Char} {base : Nat} {digits : List Char} (hletter : (letter, base) ∈ letterBases)
      (hdigits : ∀ d ∈ withoutSeparators digits,
        isHexDigit d = true ∧ ∃ value < base, hexValue? d = some value)
      (hne : withoutSeparators digits ≠ []) :
      WrittenAs (.radix base (withoutSeparators digits)) ('0' :: letter :: digits)
  | whole {digits : List Char} (hdigits : ∀ d ∈ withoutSeparators digits, isDigit d = true)
      (hne : withoutSeparators digits ≠ []) :
      WrittenAs (.whole (withoutSeparators digits)) digits
  | decimal {front point fraction exponent : List Char} (hpoint : PointShape point fraction)
      (hdigits : ∀ d ∈ withoutSeparators front ++ withoutSeparators fraction, isDigit d = true)
      (hne : withoutSeparators front ++ withoutSeparators fraction ≠ [])
      (hexponent : ExponentShape exponent) (hmore : point ≠ [] ∨ exponent ≠ []) :
      WrittenAs
        (.decimal (withoutSeparators front) (withoutSeparators fraction) (exponentValue exponent))
        (front ++ point ++ exponent)

/-- The number that a numeral means: an integer, or the double nearest to a decimal; where this
double is an integer of safe size, it is this integer. -/
inductive Means : Numeral → Number → Prop where
  | radix {base : Nat} {digits : List Char} :
      Means (.radix base digits) (.integer (numeral base digits))
  | whole {digits : List Char} : Means (.whole digits) (.integer (numeral 10 digits))
  | safe {front fraction : List Char} {exponent : Int} {double : Binary64} {n : Int}
      (hrounds : RoundsTo (decimal front fraction exponent).value double)
      (hvalue : (Number.real double).value? = some (n : ℚ)) (hsafe : n.natAbs < 2 ^ 53) :
      Means (.decimal front fraction exponent) (.integer n)
  | double {front fraction : List Char} {exponent : Int} {double : Binary64}
      (hrounds : RoundsTo (decimal front fraction exponent).value double)
      (hlarge : ∀ n : Int, (Number.real double).value? = some (n : ℚ) → 2 ^ 53 ≤ n.natAbs) :
      Means (.decimal front fraction exponent) (.real double)

variable {written : Numeral} {text : List Char}

/-! ## Separators -/

theorem withoutSeparators_idem (text : List Char) :
    withoutSeparators (withoutSeparators text) = withoutSeparators text := by
  simp [withoutSeparators, List.filter_filter]

theorem announcedBase?_eq_some_iff {letter : Char} {base : Nat} {rest : List Char} :
    announcedBase? ('0' :: letter :: rest) = some base ↔ (letter, base) ∈ letterBases := by
  simp only [announcedBase?, letterBases, Bool.or_eq_true, beq_iff_eq, List.mem_cons,
    Prod.mk.injEq, List.not_mem_nil, or_false]
  grind

theorem announcedBase?_of_mem {letter : Char} {base : Nat} (h : (letter, base) ∈ letterBases)
    (rest : List Char) : announcedBase? ('0' :: letter :: rest) = some base :=
  announcedBase?_eq_some_iff.mpr h

/-- A numeral is written without its separators, too. -/
theorem writtenAs_withoutSeparators (h : written.WrittenAs text) :
    written.WrittenAs (withoutSeparators text) := by
  cases h with
  | @radix letter base digits hletter hdigits hne =>
      have hself := withoutSeparators_idem digits
      rw [withoutSeparators_radix (mem_baseLetters (announcedBase?_of_mem hletter []))]
      rw [← hself] at hdigits hne
      have hwritten := WrittenAs.radix hletter hdigits hne
      rwa [hself] at hwritten
  | whole hdigits hne =>
      have hself := withoutSeparators_idem text
      rw [← hself] at hdigits hne
      have hwritten := WrittenAs.whole hdigits hne
      rwa [hself] at hwritten
  | @decimal front point fraction exponent hpoint hdigits hne hexponent hmore =>
      have hfront := withoutSeparators_idem front
      have hfraction := withoutSeparators_idem fraction
      have hmore' := hmore.imp_left hpoint.withoutSeparators_ne_nil
      rw [withoutSeparators_decimal hexponent]
      rw [← hfront, ← hfraction] at hdigits hne
      have hwritten := WrittenAs.decimal hpoint.withoutSeparators hdigits hne hexponent hmore'
      rwa [hfront, hfraction] at hwritten

/-- No numeral is written with the letter of big integers. -/
theorem notMem_of_writtenAs (h : written.WrittenAs text) : 'n' ∉ text := by
  intro hmem
  have hplain : 'n' ∈ withoutSeparators text := List.mem_filter.mpr ⟨hmem, rfl⟩
  cases h with
  | radix hletter hdigits _ =>
      have hbase := mem_baseLetters (announcedBase?_of_mem hletter [])
      rw [withoutSeparators_radix hbase] at hplain
      rcases List.mem_cons.mp hplain with h | hplain
      · exact absurd h (by decide)
      · rcases List.mem_cons.mp hplain with rfl | hplain
        · exact absurd hbase (by decide)
        · exact absurd (hdigits 'n' hplain).1 (by decide)
  | whole hdigits _ => exact absurd (hdigits 'n' hplain) (by decide)
  | decimal hpoint hdigits _ hexponent _ =>
      rw [withoutSeparators_decimal hexponent] at hplain
      rcases mem_decimal hpoint.withoutSeparators hexponent hplain with hc | hc
      · exact absurd (hdigits 'n' hc) (by decide)
      · exact absurd hc (by decide)

theorem numberOf?_eq (h : written.WrittenAs text) :
    numberOf? (String.ofList text) = (digitsNumber (withoutSeparators text)).map some := by
  have hlast : text.getLast? ≠ some 'n' := fun hlast =>
    notMem_of_writtenAs h (List.mem_of_getLast? hlast)
  rw [numberOf?, String.toList_ofList, if_neg hlast]

/-- Where separators stand among the digits makes no difference. -/
theorem numberOf?_withoutSeparators (h : written.WrittenAs text) :
    numberOf? (String.ofList (withoutSeparators text)) = numberOf? (String.ofList text) := by
  rw [numberOf?_eq h, numberOf?_eq (writtenAs_withoutSeparators h), withoutSeparators_idem]

/-! ## Values -/

theorem value_nonneg (written : Numeral) : 0 ≤ written.value := by
  cases written with
  | radix base digits => exact Nat.cast_nonneg _
  | whole digits => exact Nat.cast_nonneg _
  | decimal front fraction exponent =>
      exact mul_nonneg (Nat.cast_nonneg _) (zpow_nonneg (by norm_num) _)

/-- A nearest double becomes the number that the decimal means. -/
theorem means_integerIfSafe {front fraction : List Char} {exponent : Int} {double : Binary64}
    (hrounds : RoundsTo (decimal front fraction exponent).value double) :
    (decimal front fraction exponent).Means (integerIfSafe double) := by
  unfold integerIfSafe
  split
  next n hn =>
    have hvalue := Binary64.integer?_eq_some_iff_value?.mp hn
    split
    next hsafe => exact .safe hrounds hvalue hsafe
    next hlarge =>
      refine .double hrounds fun m hm => ?_
      rw [← Binary64.integer?_eq_some_iff_value?, hn] at hm
      cases hm
      exact Nat.not_lt.mp hlarge
  next hnone =>
    refine .double hrounds fun m hm => ?_
    rw [← Binary64.integer?_eq_some_iff_value?, hnone] at hm
    cases hm

/-- A numeral means one number only. -/
theorem Means.unique {number other : Number} (h : written.Means number)
    (h' : written.Means other) : number = other := by
  cases h with
  | radix =>
      cases h'
      rfl
  | whole =>
      cases h'
      rfl
  | safe hrounds hvalue hsafe =>
      cases h' with
      | safe hrounds' hvalue' _ =>
          cases hrounds.unique hrounds'
          rw [hvalue] at hvalue'
          exact congrArg _ (Int.cast_injective (Option.some.inj hvalue'))
      | double hrounds' hlarge =>
          cases hrounds.unique hrounds'
          exact absurd hsafe (Nat.not_lt.mpr (hlarge _ hvalue))
  | double hrounds hlarge =>
      cases h' with
      | safe hrounds' hvalue' hsafe =>
          cases hrounds.unique hrounds'
          exact absurd hsafe (Nat.not_lt.mpr (hlarge _ hvalue'))
      | double hrounds' _ =>
          cases hrounds.unique hrounds'
          rfl

/-- An integer of safe size means itself, in whatever way it is written. -/
theorem Means.eq_integer {number : Number} (h : written.Means number) {n : Nat}
    (hsafe : n < 2 ^ 53) (hvalue : written.value = n) : number = .integer n := by
  cases h with
  | radix => exact congrArg (fun n : Nat => Number.integer n) (Nat.cast_injective hvalue)
  | whole => exact congrArg (fun n : Nat => Number.integer n) (Nat.cast_injective hvalue)
  | safe hrounds hdouble _ =>
      rw [hvalue] at hrounds
      rw [hrounds.value?_eq hsafe] at hdouble
      exact congrArg _ (by exact_mod_cast (Option.some.inj hdouble).symm)
  | double hrounds hlarge =>
      rw [hvalue] at hrounds
      have hbound := hlarge n (by exact_mod_cast hrounds.value?_eq hsafe)
      exact absurd hsafe (Nat.not_lt.mpr hbound)

/-- A numeral that fits is read as the number that it means. -/
theorem exists_means (h : written.WrittenAs text) (hfits : written.Fits) :
    ∃ number, digitsNumber (withoutSeparators text) = .ok number ∧ written.Means number := by
  cases h with
  | radix hletter hdigits hne =>
      have hbase := announcedBase?_of_mem hletter
      rw [withoutSeparators_radix (mem_baseLetters (hbase [])),
        digitsNumber_radix (hbase _) hdigits hne]
      exact ⟨_, rfl, .radix⟩
  | whole hdigits hne =>
      rw [digitsNumber_whole hdigits hne, if_neg (Nat.not_lt.mpr hfits)]
      exact ⟨_, rfl, .whole⟩
  | decimal hpoint hdigits hne hexponent hmore =>
      have hmore' := hmore.imp_left hpoint.withoutSeparators_ne_nil
      rw [withoutSeparators_decimal hexponent,
        digitsNumber_decimal hpoint.withoutSeparators hdigits hne hexponent hmore']
      exact ⟨_, rfl, means_integerIfSafe (Decimal.roundsTo_toBinary64 ⟨_, _⟩)⟩

theorem digitsNumber_of_not_fits (h : written.WrittenAs text) (hlong : ¬ written.Fits) :
    digitsNumber (withoutSeparators text) = .error .tooManyDigits := by
  cases h with
  | radix _ _ _ => exact absurd trivial hlong
  | whole hdigits hne => rw [digitsNumber_whole hdigits hne, if_pos (Nat.lt_of_not_le hlong)]
  | decimal _ _ _ _ _ => exact absurd trivial hlong

/-! ## Numerals of literals -/

/-- Digits in a base, of which there are some, or a decimal are numerals. -/
theorem exists_writtenAs (shape : RadixShape text ∨ DecimalShape text) (hdigits : ¬ NoDigits text) :
    ∃ written : Numeral, written.WrittenAs text := by
  rcases shape with ⟨letter, digits, base, rfl, _, hbase, hall⟩ |
    ⟨front, point, fraction, exponent, rfl, hpoint, hall, hdigit, hexponent⟩
  · refine ⟨_, .radix (announcedBase?_eq_some_iff.mp hbase) (fun d hd => ?_) fun hempty => ?_⟩
    · obtain ⟨hmem, hne⟩ := List.mem_filter.mp hd
      exact (hall d hmem).resolve_left (bne_iff_ne.mp hne)
    · refine hdigits ⟨letter, digits, rfl, mem_baseLetters hbase, fun d hd => ?_⟩
      simpa using List.filter_eq_nil_iff.mp hempty d hd
  · obtain ⟨hdigits', hne⟩ := digits_withoutSeparators hall hdigit
    by_cases hmore : point ≠ [] ∨ exponent ≠ []
    · exact ⟨_, .decimal hpoint hdigits' hne hexponent hmore⟩
    · obtain ⟨hnone, hnone'⟩ := not_or.mp hmore
      cases not_not.mp hnone
      cases not_not.mp hnone'
      rcases hpoint with ⟨_, rfl⟩ | hpoint
      · rw [List.append_nil, List.append_nil]
        refine ⟨_, .whole ?_ ?_⟩
        · simpa using hdigits'
        · simpa using hne
      · cases hpoint

end Numeral

/-- A numeric literal without the letter of big integers is one of the two shapes as a whole. -/
theorem shape_of_number {text : List Char} (hnumber : Lexeme.number text = some text.length)
    (hbig : text.getLast? ≠ some 'n') : RadixShape text ∨ DecimalShape text := by
  obtain ⟨front, rest, hsplit, hlength, core, big, rfl, hcore, hletter⟩ :=
    Lexeme.front_number hnumber
  have hrest : rest = [] := by
    have hsum := congrArg List.length hsplit
    rw [List.length_append, hlength] at hsum
    exact List.length_eq_zero_iff.mp (by omega)
  rw [hrest, List.append_nil] at hsplit
  rcases hletter with rfl | rfl
  · rw [hsplit, List.append_nil]
    exact hcore
  · exact absurd (by rw [hsplit, List.getLast?_concat]) hbig

/-- A numeric literal is read as the number that its numeral means, wherever separators stand among
the digits: digits in a base as their integer, decimal digits as theirs unless there are too many,
and every decimal as the double nearest to it or as the integer of safe size that this double is.
So an integer of safe size is read as itself in every spelling. -/
theorem numberOf?_means {text : List Char} (hnumber : Lexeme.number text = some text.length)
    (hbig : text.getLast? ≠ some 'n') (hdigits : ¬ NoDigits text) :
    numberOf? (String.ofList (withoutSeparators text)) = numberOf? (String.ofList text) ∧
      (∃ written : Numeral, written.WrittenAs text) ∧
      ∀ written : Numeral, written.WrittenAs text →
        (written.Fits → ∃ number, numberOf? (String.ofList text) = .ok (some number) ∧
          (∀ other, written.Means other ↔ other = number) ∧
          ∀ n : Int, n.natAbs < 2 ^ 53 → written.value = n → number = .integer n) ∧
        (¬ written.Fits → numberOf? (String.ofList text) = .error .tooManyDigits) := by
  have hsome := Numeral.exists_writtenAs (shape_of_number hnumber hbig) hdigits
  refine ⟨?_, hsome, fun written hwritten => ⟨fun hfits => ?_, fun hlong => ?_⟩⟩
  · obtain ⟨written, hwritten⟩ := hsome
    exact Numeral.numberOf?_withoutSeparators hwritten
  · obtain ⟨number, hread, hmeans⟩ := Numeral.exists_means hwritten hfits
    refine ⟨number, ?_, fun other => ⟨fun hother => hother.unique hmeans, ?_⟩, ?_⟩
    · rw [Numeral.numberOf?_eq hwritten, hread]
      rfl
    · rintro rfl
      exact hmeans
    · intro n hsafe hvalue
      have hnonneg : (0 : ℚ) ≤ n := hvalue ▸ written.value_nonneg
      obtain ⟨n, rfl⟩ := Int.eq_ofNat_of_zero_le (by exact_mod_cast hnonneg)
      exact hmeans.eq_integer hsafe (by exact_mod_cast hvalue)
  · rw [Numeral.numberOf?_eq hwritten, Numeral.digitsNumber_of_not_fits hwritten hlong]
    rfl

/-- A decimal without digits before its point is read as the integer that its exponent makes of
it. -/
theorem numberOf?_pointedLiteral :
    Lexeme.number ".1_2e+3".toList = some ".1_2e+3".toList.length ∧
      ".1_2e+3".toList.getLast? ≠ some 'n' ∧ ¬ NoDigits ".1_2e+3".toList ∧
      numberOf? (String.ofList ".1_2e+3".toList) = .ok (some (.integer 120)) := by
  have hnumber : Lexeme.number ".1_2e+3".toList = some ".1_2e+3".toList.length := by decide
  have hbig : ".1_2e+3".toList.getLast? ≠ some 'n' := by decide
  have hdigits : ¬ NoDigits ".1_2e+3".toList := by
    rintro ⟨letter, digits, htext, _⟩
    exact absurd htext (by simp)
  have hwritten : Numeral.WrittenAs
      (.decimal (withoutSeparators []) (withoutSeparators ['1', '_', '2'])
        (exponentValue ['e', '+', '3'])) ".1_2e+3".toList :=
    .decimal (Or.inr rfl) (List.all_eq_true.mp rfl) (by decide)
      (Or.inr ⟨'e', ['+'], ['3'], rfl, by simp, by simp, by simp, List.all_eq_true.mp rfl⟩)
      (Or.inl (by simp))
  obtain ⟨_, _, hmeans⟩ := numberOf?_means hnumber hbig hdigits
  obtain ⟨number, hread, _, hinteger⟩ := (hmeans _ hwritten).1 trivial
  have hnumeral : numeral 10 (withoutSeparators [] ++ withoutSeparators ['1', '_', '2']) = 12 := by
    decide
  have hexponent :
      exponentValue ['e', '+', '3'] - (withoutSeparators ['1', '_', '2']).length = 1 := by
    decide
  refine ⟨hnumber, hbig, hdigits, ?_⟩
  rw [hread, hinteger 120 (by decide) ?_]
  rw [Numeral.value, hnumeral, hexponent]
  norm_num

end EditableMarkup.Literal
