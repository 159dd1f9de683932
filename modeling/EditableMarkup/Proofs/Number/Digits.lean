import EditableMarkup.Grammar.Lexeme
import EditableMarkup.Literal.Numeric
import EditableMarkup.Proofs.Number.Shortest
import EditableMarkup.Proofs.Reading.Lexemes
import EditableMarkup.Proofs.Text.Blank

/-!
# Decimal texts

A decimal text has digits, perhaps a fraction with its point, and perhaps an
exponent with its sign.  Such a text is one numeric literal, whatever follows
it, and it stands for the decimal that it spells.
-/

namespace EditableMarkup

open EditableMarkup.Text

/-! ## The ten digits -/

theorem exists_digitChar_of_isDigit {c : Char} (h : c.isDigit = true) :
    ∃ n : Fin 10, c = Nat.digitChar n := by
  have hchar : ∀ n : Fin 10, Char.ofNat (n + 48) = Nat.digitChar n := by decide
  simp only [Char.isDigit, Bool.and_eq_true, decide_eq_true_eq, ge_iff_le,
    UInt32.le_iff_toNat_le] at h
  have hlower : 48 ≤ c.toNat := h.1
  have hupper : c.toNat ≤ 57 := h.2
  refine ⟨⟨c.toNat - 48, by omega⟩, ?_⟩
  rw [← hchar]
  have hcode : c.toNat - 48 + 48 = c.toNat := by omega
  simp only [hcode, Char.ofNat_toNat]

/-- What holds of the ten digits holds of every character that is one of them. -/
theorem forall_isDigit {property : Char → Prop} (h : ∀ n : Fin 10, property (Nat.digitChar n))
    {c : Char} (hc : c.isDigit = true) : property c := by
  obtain ⟨n, rfl⟩ := exists_digitChar_of_isDigit hc
  exact h n

theorem isDigit_of_char {c : Char} (h : c.isDigit = true) : isDigit c = true :=
  @forall_isDigit (fun c => isDigit c = true) (by decide) c h

theorem hexValue?_of_char {c : Char} (h : c.isDigit = true) :
    hexValue? c = some (c.toNat - '0'.toNat) :=
  @forall_isDigit (fun c => hexValue? c = some (c.toNat - '0'.toNat)) (by decide) c h

/-- A text of the ten digits. -/
abbrev AllDigits (text : List Char) : Prop :=
  ∀ c ∈ text, c.isDigit = true

theorem allDigits_toDigits (n : Nat) : AllDigits (Nat.toDigits 10 n) :=
  fun _ => Nat.isDigit_of_mem_toDigits (by decide) (by decide)

theorem AllDigits.append {front rest : List Char} (hfront : AllDigits front)
    (hrest : AllDigits rest) : AllDigits (front ++ rest) := by
  intro c hc
  rcases List.mem_append.mp hc with hc | hc
  · exact hfront c hc
  · exact hrest c hc

theorem allDigits_replicate (count : Nat) : AllDigits (List.replicate count '0') := by
  intro c hc
  rw [List.eq_of_mem_replicate hc]
  rfl

namespace Literal

/-! ## The parts of a decimal text -/

/-- A fraction with its point, and its digits; it may be missing. -/
inductive FractionText : List Char → List Char → Prop where
  | missing : FractionText [] []
  | digits {digits : List Char} (h : AllDigits digits) (hne : digits ≠ []) :
      FractionText ('.' :: digits) digits

/-- An exponent with its sign, and its value; it may be missing. -/
inductive ExponentText : List Char → Int → Prop where
  | missing : ExponentText [] 0
  | positive {digits : List Char} (h : AllDigits digits) (hne : digits ≠ []) :
      ExponentText ('e' :: '+' :: digits) (Nat.ofDigitChars 10 digits 0)
  | negative {digits : List Char} (h : AllDigits digits) (hne : digits ≠ []) :
      ExponentText ('e' :: '-' :: digits) (-(Nat.ofDigitChars 10 digits 0 : Int))

theorem FractionText.allDigits {fraction digits : List Char} (h : FractionText fraction digits) :
    AllDigits digits := by
  cases h with
  | missing =>
      intro c hc
      cases hc
  | digits h _ => exact h

section Parts

variable {whole fraction fractionDigits exponent rest : List Char} {value : Int}

/-- Behind some digits only a digit, a point, an `e` or the following text comes next. -/
theorem stops_parts {test : Char → Bool} (hdigit : ∀ n : Fin 10, test (Nat.digitChar n) = false)
    (hpoint : test '.' = false) (he : test 'e' = false) (hwhole : AllDigits whole)
    (hfraction : FractionText fraction fractionDigits) (hexponent : ExponentText exponent value)
    (stops : Grammar.Stops test rest) :
    Grammar.Stops test (whole ++ fraction ++ exponent ++ rest) := by
  cases whole with
  | cons c whole =>
      exact @forall_isDigit (fun c => test c = false) hdigit c (hwhole c (List.mem_cons_self ..))
  | nil =>
      cases hfraction with
      | digits _ _ => exact hpoint
      | missing =>
          cases hexponent with
          | missing => exact stops
          | positive _ _ => exact he
          | negative _ _ => exact he

end Parts

end Literal

namespace Grammar.Lexeme

open Literal

/-- What may go on with a number. -/
def continuesNumber (c : Char) : Bool :=
  isWord c || isDigit c || c == '.'

theorem opens_number : Opens number fun c => isDigit c || c == '.' where
  space := forall_isSpace rfl rfl rfl rfl rfl
  eq_none text stops := by
    have hscientific : scientific text = none := by
      cases text with
      | nil => rfl
      | cons c rest =>
          have hc : (isDigit c || c == '.') = false := stops
          obtain ⟨hdigit, hpoint⟩ := Bool.or_eq_false_iff.mp hc
          have hdecimal : decimal (c :: rest) = none := by
            rw [decimal]
            · simp [hdigit]
            · rintro d rest' rfl
              cases hpoint
          simp [scientific, hdecimal]
    have hradix (letters : List Char) (test : Char → Bool) : radix letters test text = none := by
      unfold radix
      split
      · cases stops
      · rfl
    simp [number, firstOf, hradix, hscientific]

theorem radix_eq_none {letters : List Char} {test : Char → Bool} {text : List Char}
    (stops : Stops letters.contains (text.drop 1)) : radix letters test text = none := by
  unfold radix
  split
  · next letter rest =>
      have hletter : letters.contains letter = false := stops
      simp only [hletter]
      rfl
  · rfl

section Parts

variable {whole fraction fractionDigits exponent rest : List Char} {value : Int}

theorem run_continuesDigits {digits : List Char} (h : AllDigits digits)
    (stops : Stops continuesDigits rest) : run continuesDigits (digits ++ rest) = digits.length :=
  run_append_of_stops (fun c hc => continuesDigits_of_isDigit (isDigit_of_char (h c hc))) stops

/-- Digits with a fraction are one decimal, up to what cannot go on with it. -/
theorem decimal_append (hwhole : AllDigits whole) (hne : whole ≠ [])
    (hfraction : FractionText fraction fractionDigits)
    (stops : Stops (fun c => continuesDigits c || c == '.') rest) :
    decimal (whole ++ fraction ++ rest) = some (whole ++ fraction).length := by
  obtain ⟨c, whole, rfl⟩ := List.exists_cons_of_ne_nil hne
  have hc : c.isDigit = true := hwhole c (List.mem_cons_self ..)
  have hdigit : isDigit c = true := isDigit_of_char hc
  have hpoint : c ≠ '.' := by
    rintro rfl
    exact absurd hc (by decide)
  have hwhole' : AllDigits whole := fun d hd => hwhole d (List.mem_cons_of_mem _ hd)
  have hstops : Stops continuesDigits rest := stops.of_imp fun c hc => by simp [hc]
  have hassoc : c :: whole ++ fraction ++ rest = c :: (whole ++ (fraction ++ rest)) := by simp
  rw [hassoc, decimal]
  · rw [if_pos hdigit]
    cases hfraction with
    | missing =>
        simp only [List.nil_append, run_continuesDigits hwhole' hstops, Nat.add_sub_cancel,
          List.drop_left]
        split
        · cases stops
        · simp
    | digits hdigits _ =>
        have hdot : Stops continuesDigits ('.' :: (fractionDigits ++ rest)) := rfl
        have hrun := run_continuesDigits hwhole' hdot
        simp only [List.cons_append, hrun, Nat.add_sub_cancel, List.drop_left,
          run_continuesDigits hdigits hstops, List.length_append, List.length_cons,
          Option.some.injEq]
        omega
  · rintro d rest' rfl
    exact absurd rfl hpoint

theorem exponent_append (hexponent : ExponentText exponent value)
    (stops : Stops continuesNumber rest) :
    Lexeme.exponent (exponent ++ rest) = exponent.length := by
  have hdigits {digits : List Char} (h : AllDigits digits) (hne : digits ≠ []) :
      ∃ count, digits.length = count + 1 ∧ run isDigit (digits ++ rest) = count + 1 := by
    obtain ⟨c, digits, rfl⟩ := List.exists_cons_of_ne_nil hne
    refine ⟨digits.length, rfl, ?_⟩
    refine run_append_of_stops (fun d hd => isDigit_of_char (h d hd)) (stops.of_imp ?_)
    intro d hd
    simp [continuesNumber, hd]
  cases hexponent with
  | missing =>
      cases rest with
      | nil => rfl
      | cons c rest =>
          have hc : continuesNumber c = false := stops
          have he : (c == 'e' || c == 'E') = false := by
            cases hletter : c == 'e' || c == 'E' with
            | false => rfl
            | true =>
                simp only [Bool.or_eq_true, beq_iff_eq] at hletter
                rcases hletter with rfl | rfl
                · exact absurd hc (by decide)
                · exact absurd hc (by decide)
          simp [Lexeme.exponent, he]
  | positive h hne =>
      obtain ⟨count, hcount, hrun⟩ := hdigits h hne
      simp [Lexeme.exponent, hrun, hcount]
  | negative h hne =>
      obtain ⟨count, hcount, hrun⟩ := hdigits h hne
      simp [Lexeme.exponent, hrun, hcount]

/-- Digits with a fraction and an exponent are one number, whatever follows it. -/
theorem number_append (hwhole : AllDigits whole) (hne : whole ≠ [])
    (hfraction : FractionText fraction fractionDigits) (hexponent : ExponentText exponent value)
    (stops : Stops continuesNumber rest) :
    number (whole ++ fraction ++ exponent ++ rest) =
      some (whole ++ fraction ++ exponent).length := by
  have hradix (letters : List Char) (test : Char → Bool)
      (hdigit : ∀ n : Fin 10, letters.contains (Nat.digitChar n) = false)
      (hpoint : letters.contains '.' = false) (he : letters.contains 'e' = false)
      (hrest : ∀ c, letters.contains c = true → continuesNumber c = true) :
      radix letters test (whole ++ fraction ++ exponent ++ rest) = none := by
    obtain ⟨c, whole, rfl⟩ := List.exists_cons_of_ne_nil hne
    have hwhole' : AllDigits whole := fun d hd => hwhole d (List.mem_cons_of_mem _ hd)
    exact radix_eq_none
      (stops_parts hdigit hpoint he hwhole' hfraction hexponent (stops.of_imp hrest))
  have hletters (a b : Char) (ha : continuesNumber a = true) (hb : continuesNumber b = true) (c : Char)
      (hc : [a, b].contains c = true) : continuesNumber c = true := by
    simp only [List.contains_cons, List.contains_nil, Bool.or_false, Bool.or_eq_true,
      beq_iff_eq] at hc
    rcases hc with rfl | rfl
    · exact ha
    · exact hb
  have htail : Stops (fun c => continuesDigits c || c == '.') (exponent ++ rest) := by
    cases hexponent with
    | positive _ _ => rfl
    | negative _ _ => rfl
    | missing =>
        refine stops.of_imp fun c hc => ?_
        simp only [continuesDigits, Bool.or_eq_true, beq_iff_eq] at hc
        rcases hc with (hc | rfl) | rfl
        · simp [continuesNumber, hc]
        · rfl
        · rfl
  have hscientific : scientific (whole ++ fraction ++ exponent ++ rest) =
      some (whole ++ fraction ++ exponent).length := by
    have hdecimal := decimal_append hwhole hne hfraction htail
    have hdrop : (whole ++ fraction ++ (exponent ++ rest)).drop (whole ++ fraction).length =
        exponent ++ rest := List.drop_left
    rw [List.append_assoc]
    simp only [scientific, hdecimal, bind, Option.bind]
    rw [hdrop, exponent_append hexponent stops, ← List.length_append]
  have hfirst : firstOf
      [radix ['x', 'X'] (fun c => isHexDigit c || c == '_'),
        radix ['b', 'B'] (fun c => c == '0' || c == '1' || c == '_'),
        radix ['o', 'O'] (fun c => ('0' ≤ c && c ≤ '7') || c == '_'), scientific]
      (whole ++ fraction ++ exponent ++ rest) = some (whole ++ fraction ++ exponent).length := by
    simp only [firstOf, List.findSome?_cons, hscientific]
    rw [hradix _ _ (by decide) rfl rfl (hletters _ _ (by decide) (by decide)),
      hradix _ _ (by decide) rfl rfl (hletters _ _ (by decide) (by decide)),
      hradix _ _ (by decide) rfl rfl (hletters _ _ (by decide) (by decide))]
  simp only [number, hfirst, bind, Option.bind, List.drop_left]
  split
  · exact absurd (show continuesNumber 'n' = false from stops) (by decide)
  · rfl

end Parts

end Grammar.Lexeme

end EditableMarkup
