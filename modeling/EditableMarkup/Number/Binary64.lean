/-!
# Binary floating point

A double is given by its sign and its magnitude, a whole number of at most 53
bits times a power of two.  Ordinary magnitudes use all 53 bits and the
smallest ones the lowest exponent, so every magnitude has one form.  Rounding
is exact arithmetic on natural numbers: the nearest magnitude, and of two
equally near ones the even one.
-/

namespace EditableMarkup

/-- The magnitude `mantissa * 2 ^ (exponent - 1074)`. -/
structure Magnitude where
  mantissa : Nat
  exponent : Nat
  mantissa_lt : mantissa < Nat.pow 2 53
  exponent_le : exponent ≤ 2045
  normal : exponent = 0 ∨ Nat.pow 2 52 ≤ mantissa
  deriving DecidableEq

/-- A double; there is one value that is not a number. -/
inductive Binary64 where
  | notANumber
  | infinite (negative : Bool)
  | finite (negative : Bool) (magnitude : Magnitude)
  deriving DecidableEq

/-- The whole number nearest to a quotient; of two equally near ones the even one. -/
def nearestQuotient (dividend divisor : Nat) : Nat :=
  let quotient := dividend / divisor
  let twice := 2 * (dividend % divisor)
  if divisor < twice ∨ (twice = divisor ∧ quotient % 2 = 1) then quotient + 1 else quotient

namespace Magnitude

/-- The magnitude zero. -/
def zero : Magnitude where
  mantissa := 0
  exponent := 0
  mantissa_lt := by decide
  exponent_le := by decide
  normal := .inl rfl

/-- The magnitude with a given mantissa and exponent, if they are in its form. -/
def ofParts? (mantissa exponent : Nat) : Option Magnitude :=
  if h : mantissa < Nat.pow 2 53 ∧ exponent ≤ 2045 ∧
      (exponent = 0 ∨ Nat.pow 2 52 ≤ mantissa) then
    some ⟨mantissa, exponent, h.1, h.2.1, h.2.2⟩
  else none

/-- The magnitude nearest to a quotient, or nothing where it lies beyond all magnitudes. -/
def nearest? (dividend divisor : Nat) : Option Magnitude :=
  let scaled := dividend * Nat.pow 2 1074
  let exponent := (scaled / divisor).log2 - 52
  let mantissa := nearestQuotient scaled (divisor * Nat.pow 2 exponent)
  if mantissa = Nat.pow 2 53 then ofParts? (Nat.pow 2 52) (exponent + 1) else ofParts? mantissa exponent

/-- The magnitude as a fraction with the denominator `2 ^ 1074`. -/
def numerator (magnitude : Magnitude) : Nat :=
  magnitude.mantissa * Nat.pow 2 magnitude.exponent

/-- The whole number that a magnitude is, if it is one. -/
def whole? (magnitude : Magnitude) : Option Nat :=
  if magnitude.numerator % Nat.pow 2 1074 = 0 then some (magnitude.numerator / Nat.pow 2 1074)
  else none

end Magnitude

namespace Binary64

/-- Neither infinite nor undefined. -/
def isFinite : Binary64 → Bool
  | finite .. => true
  | _ => false

/-- The double with the other sign. -/
def negate : Binary64 → Binary64
  | notANumber => notANumber
  | infinite negative => infinite !negative
  | finite negative magnitude => finite (!negative) magnitude

/-- The integer that a double is, if it is one. -/
def integer? : Binary64 → Option Int
  | finite negative magnitude =>
    magnitude.whole?.map fun whole => if negative then -(whole : Int) else whole
  | _ => none

end Binary64

end EditableMarkup
