import Mathlib.Tactic.Convert
import EditableMarkup.Proofs.Number.Spelled

/-!
# Printed numbers

A printed number is a sign and a decimal text, and the text stands for the
number without its sign.  An integer is read back as it is.  A double that is
an integer below `10 ^ 21` is read back as this integer, which has the same
value, and every other double is read back as it is.
-/

namespace EditableMarkup

open EditableMarkup.Text

/-- A text with a fraction or an exponent spells a decimal of the same magnitude as a given one. -/
def Spells (text : List Char) (decimal : Decimal) : Prop :=
  ∃ whole fraction fractionDigits exponent value,
    text = whole ++ fraction ++ exponent ∧ AllDigits whole ∧ whole ≠ [] ∧
    Literal.FractionText fraction fractionDigits ∧ Literal.ExponentText exponent value ∧
    (fraction ≠ [] ∨ exponent ≠ []) ∧
    (Decimal.mk (Nat.ofDigitChars 10 (whole ++ fractionDigits) 0)
      (value - fractionDigits.length)).magnitude? = decimal.magnitude?

theorem allDigits_singleton {c : Char} (h : c.isDigit = true) : AllDigits [c] := by
  intro d hd
  rw [List.mem_singleton.mp hd]
  exact h

/-! ## The four layouts of a double -/

section Layout

variable {digits : List Char} {n : Nat}

/-- All digits stand behind the point, and zeros in front of them. -/
theorem spells_behind (hall : AllDigits digits) (hne : digits ≠ [])
    (hvalue : Nat.ofDigitChars 10 digits 0 = n) (zeros : Nat) :
    Spells ("0.".toList ++ List.replicate zeros '0' ++ digits)
      ⟨n, -((zeros + digits.length : Nat) : Int)⟩ := by
  have hdigits : AllDigits (List.replicate zeros '0' ++ digits) :=
    (allDigits_replicate zeros).append hall
  have hcount : Nat.ofDigitChars 10 (['0'] ++ (List.replicate zeros '0' ++ digits)) 0 = n := by
    rw [List.singleton_append, Nat.ofDigitChars_cons, Nat.ofDigitChars_append,
      Nat.ofDigitChars_replicate_zero]
    simpa using hvalue
  refine ⟨['0'], '.' :: (List.replicate zeros '0' ++ digits), _, [], 0, ?_,
    allDigits_singleton rfl, by simp, .digits hdigits (by simp [hne]), .missing,
    Or.inl (by simp), ?_⟩
  · simp
  · rw [hcount]
    congr 2
    simp

/-- All digits stand before the point, with zeros behind them. -/
theorem spells_before (hall : AllDigits digits) (hne : digits ≠ [])
    (hvalue : Nat.ofDigitChars 10 digits 0 = n) (zeros : Nat) :
    Spells (digits ++ List.replicate zeros '0' ++ ".0".toList) ⟨n, zeros⟩ := by
  have hcount : Nat.ofDigitChars 10 (digits ++ List.replicate zeros '0' ++ ['0']) 0 =
      10 ^ (zeros + 1) * n := by
    rw [Nat.ofDigitChars_append, Nat.ofDigitChars_append, Nat.ofDigitChars_replicate_zero, hvalue,
      Nat.ofDigitChars_cons, Nat.ofDigitChars_nil, Nat.pow_succ, Nat.mul_comm (10 ^ zeros) 10,
      Nat.mul_assoc]
    rfl
  refine ⟨digits ++ List.replicate zeros '0', ['.', '0'], ['0'], [], 0, ?_,
    hall.append (allDigits_replicate zeros), by simp [hne],
    .digits (allDigits_singleton rfl) (by simp), .missing, Or.inl (by simp), ?_⟩
  · simp
  · rw [hcount, Decimal.magnitude?_mul_pow]
    congr 2
    simp only [List.length_singleton]
    omega

/-- The point stands between the digits. -/
theorem spells_between (hall : AllDigits digits) (hvalue : Nat.ofDigitChars 10 digits 0 = n)
    {point : Nat} (hpos : 0 < point) (hlt : point < digits.length) :
    Spells (digits.take point ++ '.' :: digits.drop point)
      ⟨n, -((digits.length - point : Nat) : Int)⟩ := by
  have hdrop : AllDigits (digits.drop point) := fun c hc => hall c (List.mem_of_mem_drop hc)
  refine ⟨digits.take point, '.' :: digits.drop point, digits.drop point, [], 0, ?_,
    fun c hc => hall c (List.mem_of_mem_take hc), ?_, .digits hdrop ?_, .missing,
    Or.inl (by simp), ?_⟩
  · simp
  · intro hnil
    have hlength := congrArg List.length hnil
    rw [List.length_take, List.length_nil] at hlength
    omega
  · intro hnil
    have hlength := congrArg List.length hnil
    rw [List.length_drop, List.length_nil] at hlength
    omega
  · rw [List.take_append_drop, hvalue, List.length_drop]
    congr 2
    omega

/-- One digit stands before the point, and an exponent behind the others. -/
theorem spells_exponent {d : Char} (hall : AllDigits (d :: digits))
    (hvalue : Nat.ofDigitChars 10 (d :: digits) 0 = n) {exponent : List Char} {value : Int}
    (hexponent : Literal.ExponentText exponent value) (hne : exponent ≠ []) :
    Spells (d :: (if digits = [] then [] else '.' :: digits) ++ exponent)
      ⟨n, value - digits.length⟩ := by
  have hfraction : Literal.FractionText (if digits = [] then [] else '.' :: digits) digits := by
    cases digits with
    | nil => exact .missing
    | cons c rest => exact .digits (fun c hc => hall c (List.mem_cons_of_mem _ hc)) (by simp)
  refine ⟨[d], _, digits, exponent, value, ?_,
    allDigits_singleton (hall d (List.mem_cons_self ..)), by simp, hfraction, hexponent,
    Or.inr hne, ?_⟩
  · simp
  · rw [List.singleton_append, hvalue]

/-- The digits of an exponent, of which there are at least two, have its value. -/
theorem exponentDigits (m : Nat) :
    ∃ expDigits, (if (Nat.toDigits 10 m).length < 2 then '0' :: Nat.toDigits 10 m
        else Nat.toDigits 10 m) = expDigits ∧
      AllDigits expDigits ∧ expDigits ≠ [] ∧ Nat.ofDigitChars 10 expDigits 0 = m := by
  have hm : Nat.ofDigitChars 10 (Nat.toDigits 10 m) 0 = m := Nat.ofDigitChars_ten_toDigits
  refine ⟨_, rfl, ?_⟩
  split
  · refine ⟨(allDigits_singleton rfl).append (allDigits_toDigits m), by simp, ?_⟩
    rw [Nat.ofDigitChars_cons]
    exact hm
  · exact ⟨allDigits_toDigits m, Nat.toDigits_ne_nil, hm⟩

end Layout

/-- A decimal is printed as a text that spells a decimal of the same magnitude. -/
theorem Number.spells_positional {decimal : Decimal} (hne : decimal.digits ≠ 0) :
    Spells (positional decimal).toList decimal := by
  obtain ⟨n, e⟩ := decimal
  have hall : AllDigits (Nat.toDigits 10 n) := allDigits_toDigits n
  have hnil : Nat.toDigits 10 n ≠ [] := Nat.toDigits_ne_nil
  have hvalue : Nat.ofDigitChars 10 (Nat.toDigits 10 n) 0 = n := Nat.ofDigitChars_ten_toDigits
  simp only [positional, if_neg hne]
  generalize Nat.toDigits 10 n = digits at hall hnil hvalue
  have hpos : 0 < digits.length := List.length_pos_iff.mpr hnil
  split
  · split
    · next hpoint =>
        have h := spells_behind hall hnil hvalue (-(digits.length + e)).toNat
        rw [String.toList_ofList]
        convert h using 2
        push_cast
        omega
    · split
      · next hcount =>
          have h := spells_before hall hnil hvalue (digits.length + e - digits.length).toNat
          rw [String.toList_ofList]
          convert h using 2
          omega
      · next hpoint hcount =>
          have h := @spells_between digits n hall hvalue (digits.length + e).toNat (by omega)
            (by omega)
          rw [String.toList_ofList]
          convert h using 2
          omega
  · obtain ⟨d, digits, rfl⟩ := List.exists_cons_of_ne_nil hnil
    obtain ⟨expDigits, hexpEq, hexp, hexpNe, hexpValue⟩ :=
      exponentDigits (((d :: digits).length : Int) + e - 1).natAbs
    simp only [List.length_cons] at hexpEq hexpValue
    simp only [List.take_succ_cons, List.take_zero, List.drop_succ_cons, List.drop_zero,
      List.length_cons, hexpEq, String.toList_ofList]
    by_cases hsign : ((digits.length + 1 : Nat) : Int) + e - 1 < 0
    · have h := spells_exponent hall hvalue (.negative hexp hexpNe) (by simp)
      have hvalue' : -((Nat.ofDigitChars 10 expDigits 0 : Nat) : Int) - digits.length = e := by
        omega
      rw [hvalue'] at h
      rw [if_pos hsign]
      cases digits with
      | nil => exact h
      | cons c rest => simpa using h
    · have h := spells_exponent hall hvalue (.positive hexp hexpNe) (by simp)
      have hvalue' : ((Nat.ofDigitChars 10 expDigits 0 : Nat) : Int) - digits.length = e := by
        omega
      rw [hvalue'] at h
      rw [if_neg hsign]
      cases digits with
      | nil => exact h
      | cons c rest => simpa using h

/-! ## Doubles that are integers -/

theorem Magnitude.whole?_eq (magnitude : Magnitude) :
    magnitude.whole? =
      if magnitude.numerator % 2 ^ 1074 = 0 then some (magnitude.numerator / 2 ^ 1074) else none :=
  rfl

theorem Magnitude.whole?_eq_some_iff {magnitude : Magnitude} {whole : Nat} :
    magnitude.whole? = some whole ↔ magnitude.numerator = whole * 2 ^ 1074 := by
  have hpos : 0 < 2 ^ 1074 := Nat.two_pow_pos 1074
  rw [whole?_eq]
  generalize 2 ^ 1074 = unit at hpos
  constructor
  · intro h
    split at h
    · next hmod =>
        cases h
        exact (Nat.div_mul_cancel (Nat.dvd_of_mod_eq_zero hmod)).symm
    · cases h
  · intro h
    rw [h, if_pos (Nat.mul_mod_left ..), Nat.mul_div_cancel _ hpos]

theorem Binary64.integer?_eq_some_iff {negative : Bool} {magnitude : Magnitude} {n : Int} :
    (Binary64.finite negative magnitude).integer? = some n ↔
      ∃ whole : Nat, magnitude.whole? = some whole ∧
        n = if negative then -(whole : Int) else whole := by
  cases hwhole : magnitude.whole? with
  | none => simp [integer?, hwhole]
  | some whole => simp [integer?, hwhole, eq_comm]

/-! ## Literals -/

/-- A text without a sign is one numeric literal, whatever follows it, and stands for a number. -/
structure IsLiteralOf (text : List Char) (number : Number) : Prop where
  starts : ∃ c rest, text = c :: rest ∧ c.isDigit = true
  lexeme : ∀ rest, Grammar.Stops Grammar.Lexeme.continuesNumber rest →
    Grammar.Lexeme.number (text ++ rest) = some text.length
  meaning : Literal.numberOf? (String.ofList text) = .ok (some number)

theorem AllDigits.isLiteralOf {digits : List Char} (hall : AllDigits digits) (hne : digits ≠ [])
    (hlength : digits.length ≤ Number.digitLimit) :
    IsLiteralOf digits (.integer (Nat.ofDigitChars 10 digits 0)) where
  starts := by
    obtain ⟨c, rest, rfl⟩ := List.exists_cons_of_ne_nil hne
    exact ⟨c, rest, rfl, hall c (List.mem_cons_self ..)⟩
  lexeme rest stops := by
    have h := Grammar.Lexeme.number_append hall hne .missing .missing stops
    rwa [List.append_nil, List.append_nil] at h
  meaning := by
    have hnumber := Literal.digitsNumber_digits hall hne hlength
    have hself : digits ++ [] ++ [] = digits := by rw [List.append_nil, List.append_nil]
    rw [← hself] at hnumber
    have h := Literal.numberOf?_of_parts hall .missing .missing hnumber
    rwa [hself] at h

theorem Spells.isLiteralOf {text : List Char} {decimal : Decimal} (spells : Spells text decimal) :
    IsLiteralOf text (Literal.integerIfSafe (decimal.toBinary64 false)) := by
  obtain ⟨whole, fraction, fractionDigits, exponent, value, rfl, hwhole, hne, hfraction, hexponent,
    hmore, hmagnitude⟩ := spells
  have hdouble : (Decimal.mk (Nat.ofDigitChars 10 (whole ++ fractionDigits) 0)
      (value - fractionDigits.length)).toBinary64 false = decimal.toBinary64 false := by
    simp only [Decimal.toBinary64, hmagnitude]
  have hnumber := Literal.digitsNumber_append hwhole hne hfraction hexponent hmore
  rw [hdouble] at hnumber
  constructor
  · obtain ⟨c, rest, rfl⟩ := List.exists_cons_of_ne_nil hne
    exact ⟨c, rest ++ fraction ++ exponent, by simp, hwhole c (List.mem_cons_self ..)⟩
  · intro rest stops
    exact Grammar.Lexeme.number_append hwhole hne hfraction hexponent stops
  · exact Literal.numberOf?_of_parts hwhole hfraction hexponent hnumber

namespace Number

/-- What a printed number is read back as: a double that is an integer below `10 ^ 21` becomes this
integer. -/
def reread : Number → Number
  | integer value => integer value
  | real value =>
    match value.integer? with
    | some n => if n.natAbs < 10 ^ 21 then integer n else real value
    | none => real value

/-- A number is read back with its value. -/
theorem reread_sameValue {number : Number} (h : number.isFinite = true) :
    number.reread.sameValue number = true := by
  cases number with
  | integer value => simp only [reread, sameValue, units?, beq_self_eq_true]
  | real value =>
      cases value with
      | notANumber => cases h
      | infinite negative => cases h
      | finite negative magnitude =>
          have hself : (real (.finite negative magnitude)).sameValue
              (real (.finite negative magnitude)) = true := by
            simp only [sameValue, units?, beq_self_eq_true]
          cases hn : (Binary64.finite negative magnitude).integer? with
          | none =>
              simp only [reread, hn]
              exact hself
          | some n =>
              simp only [reread, hn]
              split
              · obtain ⟨whole, hwhole, rfl⟩ := Binary64.integer?_eq_some_iff.mp hn
                have hunits : magnitude.numerator = whole * Nat.pow 2 1074 :=
                  Magnitude.whole?_eq_some_iff.mp hwhole
                simp only [sameValue, units?, hunits]
                generalize Nat.pow 2 1074 = unit
                cases negative with
                | false => simp
                | true => simp
              · exact hself

theorem isLiteralOf_toDigits {n : Nat} (h : n < 10 ^ digitLimit) :
    IsLiteralOf (Nat.toDigits 10 n) (.integer n) := by
  have hlength : (Nat.toDigits 10 n).length ≤ digitLimit :=
    (Nat.length_toDigits_le_iff (by decide) (by decide)).mpr h
  have hliteral := (allDigits_toDigits n).isLiteralOf Nat.toDigits_ne_nil hlength
  rwa [Nat.ofDigitChars_ten_toDigits] at hliteral

/-- A text without a sign, with which a number is printed behind its sign. -/
structure Prints (number : Number) (negative : Bool) (text : List Char) (size : Number) : Prop where
  literal_eq : number.literal.toList = (if negative then ['-'] else []) ++ text
  isLiteralOf : IsLiteralOf text size
  signed_eq : (if negative then size.negate else size) = number.reread

theorem toList_signed (negative : Bool) (text : String) :
    (signed negative text).toList = (if negative then ['-'] else []) ++ text.toList := by
  cases negative with
  | false => rfl
  | true => simp [signed]

theorem integerText_eq (value : Int) :
    (integerText value).toList =
      (if value < 0 then ['-'] else []) ++ Nat.toDigits 10 value.natAbs := by
  rw [integerText, toList_signed, String.toList_ofList]
  simp

theorem signed_natAbs (value : Int) :
    (if value < 0 then (integer value.natAbs).negate else integer value.natAbs) =
      integer value := by
  split
  · simp only [negate, integer.injEq]
    omega
  · simp only [integer.injEq]
    omega

/-- An integer is printed with its digits, as is a double that is read back as this integer. -/
theorem prints_integer {number : Number} {value : Int} (hvalue : value.natAbs < 10 ^ digitLimit)
    (hliteral : number.literal = integerText value) (hreread : number.reread = integer value) :
    number.Prints (decide (value < 0)) (Nat.toDigits 10 value.natAbs) (integer value.natAbs) where
  literal_eq := by
    rw [hliteral, integerText_eq]
    simp
  isLiteralOf := isLiteralOf_toDigits hvalue
  signed_eq := by
    rw [hreread]
    simp only [decide_eq_true_eq]
    exact signed_natAbs value

theorem lt_pow_digitLimit {n : Nat} (h : n < 10 ^ 21) : n < 10 ^ digitLimit := by
  have hlimit : 21 ≤ digitLimit := by decide
  generalize digitLimit = limit at hlimit
  exact Nat.lt_of_lt_of_le h (Nat.pow_le_pow_right (by decide) hlimit)

/-- A double that is a small integer is printed as this integer. -/
theorem prints_small {negative : Bool} {magnitude : Magnitude} {n : Int}
    (hn : (Binary64.finite negative magnitude).integer? = some n) (hsmall : n.natAbs < 10 ^ 21) :
    (real (.finite negative magnitude)).Prints (decide (n < 0)) (Nat.toDigits 10 n.natAbs)
      (integer n.natAbs) := by
  refine prints_integer (lt_pow_digitLimit hsmall) ?_ ?_
  · simp only [literal, hn, Nat.pow_eq, if_pos hsmall]
  · simp only [reread, hn, if_pos hsmall]

/-- A double is printed as its shortest decimal, if it is not a small integer. -/
theorem prints_real {negative : Bool} {magnitude : Magnitude}
    (hlarge : ∀ n, (Binary64.finite negative magnitude).integer? = some n → ¬ n.natAbs < 10 ^ 21) :
    (real (.finite negative magnitude)).Prints negative (positional magnitude.shortest).toList
      (real (.finite false magnitude)) := by
  have hmagnitude := magnitude.magnitude?_shortest
  have hdigits : magnitude.shortest.digits ≠ 0 := by
    intro hzero
    have hself : magnitude.shortest = ⟨0, magnitude.shortest.exponent⟩ := by
      rw [← hzero]
    rw [hself, Decimal.magnitude?_zero] at hmagnitude
    cases hmagnitude
    have hwhole : Magnitude.zero.whole? = some 0 := by
      rw [Magnitude.whole?_eq_some_iff, Nat.zero_mul, Magnitude.numerator]
      exact Nat.zero_mul _
    refine hlarge 0 (Binary64.integer?_eq_some_iff.mpr ⟨0, hwhole, ?_⟩) (by decide)
    simp
  have hdouble : magnitude.shortest.toBinary64 false = .finite false magnitude := by
    simp only [Decimal.toBinary64, hmagnitude]
  have hsafe : Literal.integerIfSafe (.finite false magnitude) =
      real (.finite false magnitude) := by
    cases hn : (Binary64.finite false magnitude).integer? with
    | none => simp only [Literal.integerIfSafe, hn]
    | some n =>
        obtain ⟨whole, hwhole, rfl⟩ := Binary64.integer?_eq_some_iff.mp hn
        have hbig := hlarge _ (Binary64.integer?_eq_some_iff.mpr ⟨whole, hwhole, rfl⟩)
        have hbound : Literal.safeBound ≤ 10 ^ 21 := by decide
        have habs : (if negative then -(whole : Int) else whole).natAbs = whole := by
          cases negative with
          | false => simp
          | true => simp
        rw [habs] at hbig
        simp only [Literal.integerIfSafe, hn, Bool.false_eq_true, if_false, Int.natAbs_natCast]
        rw [if_neg]
        omega
  have hspells := (spells_positional hdigits).isLiteralOf
  rw [hdouble, hsafe] at hspells
  constructor
  · have hliteral : (real (.finite negative magnitude)).literal =
        finiteText negative magnitude := by
      cases hn : (Binary64.finite negative magnitude).integer? with
      | none => simp only [literal, hn]
      | some n => simp only [literal, hn, Nat.pow_eq, if_neg (hlarge n hn)]
    rw [hliteral, finiteText, toList_signed]
  · exact hspells
  · have hreread : (real (.finite negative magnitude)).reread =
        real (.finite negative magnitude) := by
      cases hn : (Binary64.finite negative magnitude).integer? with
      | none => simp only [reread, hn]
      | some n => simp only [reread, hn, if_neg (hlarge n hn)]
    rw [hreread]
    cases negative with
    | false => rfl
    | true => rfl

/-- A finite number that can be written is printed as a sign and a literal, which together stand for
the number that it is read back as. -/
theorem exists_prints {number : Number} (hfinite : number.isFinite = true)
    (hwritable : number.isWritable = true) :
    ∃ negative text size, number.Prints negative text size := by
  cases number with
  | integer value =>
      simp only [isWritable, decide_eq_true_eq] at hwritable
      exact ⟨_, _, _, prints_integer hwritable rfl rfl⟩
  | real value =>
      cases value with
      | notANumber => cases hfinite
      | infinite negative => cases hfinite
      | finite negative magnitude =>
          by_cases hsmall : ∃ n, (Binary64.finite negative magnitude).integer? = some n ∧
              n.natAbs < 10 ^ 21
          · obtain ⟨n, hn, hlt⟩ := hsmall
            exact ⟨_, _, _, prints_small hn hlt⟩
          · refine ⟨_, _, _, prints_real fun n hn hlt => hsmall ⟨n, hn, hlt⟩⟩

end Number

end EditableMarkup
