import EditableMarkup.Text.Blank
import EditableMarkup.Text.Digit
import Mathlib.Data.Nat.Digits.Defs

/-!
# Digits

A decimal digit of any script has a value below ten, and among the first 128
characters only the ten digits are decimal digits.  No digit is blank.  Below
U+0080 classes of characters are compared one character at a time.  Digits stand
for a number in every base.
-/

namespace EditableMarkup.Text

/-! ## The first 128 characters -/

/-- What holds of the first 128 characters, one by one, holds of every character below U+0080. -/
theorem holds_of_toNat_lt {property : Char → Prop} (h : ∀ n : Fin 0x80, property (Char.ofNat n))
    {c : Char} (hc : c.toNat < 0x80) : property c := by
  have hself := h ⟨c.toNat, hc⟩
  simp only [Char.ofNat_toNat] at hself
  exact hself

/-! ## Hexadecimal digits -/

theorem toNat_lt_of_isHexDigit {c : Char} (h : isHexDigit c = true) : c.toNat < 0x80 := by
  simp only [isHexDigit, Bool.or_eq_true, Bool.and_eq_true, decide_eq_true_eq, Char.le_def,
    UInt32.le_iff_toNat_le] at h
  change c.val.toNat < 0x80
  rcases h with (⟨_, hle⟩ | ⟨_, hle⟩) | ⟨_, hle⟩
  · exact Nat.lt_of_le_of_lt hle (by decide)
  · exact Nat.lt_of_le_of_lt hle (by decide)
  · exact Nat.lt_of_le_of_lt hle (by decide)

/-- What holds of the first 128 characters that are hexadecimal digits holds of all that are. -/
theorem forall_isHexDigit {property : Char → Prop}
    (h : ∀ n : Fin 0x80, isHexDigit (Char.ofNat n) = true → property (Char.ofNat n)) {c : Char}
    (hc : isHexDigit c = true) : property c :=
  @holds_of_toNat_lt (fun c => isHexDigit c = true → property c) h c (toNat_lt_of_isHexDigit hc) hc

/-! ## Decimal digits -/

/-- A decimal digit is one of the ten, or its value tells how far it stands behind a zero. -/
theorem digitValue?_cases {c : Char} {value : Nat} (h : digitValue? c = some value) :
    (c.toNat = '0'.toNat + value ∧ value < 10) ∨
      (0x80 ≤ c.toNat ∧ ∃ first ∈ zeros, c.toNat = first + value ∧ value < 10) := by
  unfold digitValue? at h
  split at h
  next =>
    split at h
    next hrange =>
      simp only [Bool.and_eq_true, decide_eq_true_eq, Char.le_def, UInt32.le_iff_toNat_le] at hrange
      have hlower : 48 ≤ c.toNat := hrange.1
      have hupper : c.toNat ≤ 57 := hrange.2
      have hzero : '0'.toNat = 48 := rfl
      cases h
      exact Or.inl (by omega)
    next => cases h
  next hlarge =>
    obtain ⟨first, hfound, rfl⟩ := Option.map_eq_some_iff.mp h
    have hrange := List.find?_some hfound
    simp only [Bool.and_eq_true, decide_eq_true_eq] at hrange
    exact Or.inr ⟨by omega, first, List.mem_of_find?_eq_some hfound, by omega⟩

theorem isDigit_iff {c : Char} : isDigit c = true ↔ ∃ value, digitValue? c = some value :=
  Option.isSome_iff_exists

theorem not_isBlank_of_isDigit {c : Char} (h : isDigit c = true) : isBlank c = false := by
  have hten : ∀ value < 10, isBlank (Char.ofNat ('0'.toNat + value)) = false := by decide
  have hzeros : ∀ first ∈ zeros, ∀ value < 10, isBlank (Char.ofNat (first + value)) = false := by
    decide
  obtain ⟨value, hvalue⟩ := isDigit_iff.mp h
  rw [← Char.ofNat_toNat c]
  rcases digitValue?_cases hvalue with ⟨heq, hlt⟩ | ⟨_, first, hfirst, heq, hlt⟩
  · rw [heq]
    exact hten value hlt
  · rw [heq]
    exact hzeros first hfirst value hlt

/-- The value of a decimal digit as one of base sixteen. -/
theorem hexValue?_of_isDigit {c : Char} (h : isDigit c = true) :
    ∃ value < 10, hexValue? c = some value := by
  obtain ⟨value, hvalue⟩ := isDigit_iff.mp h
  have hcases := digitValue?_cases hvalue
  have hzero : '0'.toNat = 48 := rfl
  have hlower : ¬ ('a' ≤ c && c ≤ 'f') = true := by
    simp only [Bool.and_eq_true, decide_eq_true_eq, Char.le_def, UInt32.le_iff_toNat_le]
    rintro ⟨h₁, h₂⟩
    have hlow : 97 ≤ c.toNat := h₁
    have hhigh : c.toNat ≤ 102 := h₂
    omega
  have hupper : ¬ ('A' ≤ c && c ≤ 'F') = true := by
    simp only [Bool.and_eq_true, decide_eq_true_eq, Char.le_def, UInt32.le_iff_toNat_le]
    rintro ⟨h₁, h₂⟩
    have hlow : 65 ≤ c.toNat := h₁
    have hhigh : c.toNat ≤ 70 := h₂
    omega
  refine ⟨value, ?_, ?_⟩
  · rcases hcases with ⟨_, hlt⟩ | ⟨_, _, _, _, hlt⟩
    · exact hlt
    · exact hlt
  · rw [hexValue?, if_neg hlower, if_neg hupper, hvalue]

/-! ## Numbers in a base -/

/-- The number that digits stand for in a base; the last digit counts the units. -/
def numeral (base : Nat) (digits : List Char) : Nat :=
  Nat.ofDigits base (digits.reverse.map fun d => (hexValue? d).getD 0)

@[simp] theorem numeral_nil (base : Nat) : numeral base [] = 0 := rfl

/-- A digit at the end makes the number before it worth the base times as much. -/
theorem numeral_concat (base : Nat) (digits : List Char) (d : Char) :
    numeral base (digits ++ [d]) = base * numeral base digits + (hexValue? d).getD 0 := by
  simp only [numeral, List.reverse_append, List.reverse_singleton, List.singleton_append,
    List.map_cons, Nat.ofDigits_cons, Nat.add_comm]

end EditableMarkup.Text
