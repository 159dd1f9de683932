import EditableMarkup.Number.Binary64

/-!
# Decimals

A decimal is a whole number of units of a power of ten.  Reading a decimal
gives the nearest double.  Printing a double searches the decimal with the
fewest digits that reads back as the same double; among those, the nearest.
-/

namespace EditableMarkup

/-- The number `digits * 10 ^ exponent`. -/
structure Decimal where
  digits : Nat
  exponent : Int
  deriving DecidableEq

/-- The number of decimal digits of a number; zero has none. -/
def digitCount (n : Nat) : Nat :=
  if n = 0 then 0 else (Nat.toDigits 10 n).length

namespace Decimal

/-- A decimal as a fraction. -/
def fraction (decimal : Decimal) : Nat × Nat :=
  match decimal.exponent with
  | .ofNat exponent => (decimal.digits * Nat.pow 10 exponent, 1)
  | .negSucc exponent => (decimal.digits, Nat.pow 10 (exponent + 1))

/-- The magnitude nearest to a decimal, or nothing where it lies beyond all magnitudes. Numbers from
`10 ^ 400` on and below `10 ^ (-400)` are decided by their size. -/
def magnitude? (decimal : Decimal) : Option Magnitude :=
  let size := digitCount decimal.digits + decimal.exponent
  if decimal.digits = 0 ∨ size < -400 then some Magnitude.zero
  else if 400 < size then none
  else Magnitude.nearest? decimal.fraction.1 decimal.fraction.2

/-- The double nearest to a signed decimal; beyond all magnitudes it is infinite. -/
def toBinary64 (negative : Bool) (decimal : Decimal) : Binary64 :=
  match decimal.magnitude? with
  | some magnitude => .finite negative magnitude
  | none => .infinite negative

/-- Cut zeros from the end of the digits; the fuel bounds their number. -/
def cutZeros : Nat → Decimal → Decimal
  | 0, decimal => decimal
  | fuel + 1, decimal =>
    if decimal.digits ≠ 0 ∧ decimal.digits % 10 = 0 then
      cutZeros fuel ⟨decimal.digits / 10, decimal.exponent + 1⟩
    else decimal

/-- The same number without zeros at the end of its digits. -/
def normalized (decimal : Decimal) : Decimal :=
  decimal.cutZeros (digitCount decimal.digits)

end Decimal

namespace Magnitude

/-- The number of digits before the point, or minus the number of zeros behind it. -/
def pointPosition (magnitude : Magnitude) : Int :=
  let numerator := magnitude.numerator
  if Nat.pow 2 1074 ≤ numerator then digitCount (numerator / Nat.pow 2 1074)
  else 1 - (digitCount ((Nat.pow 2 1074 + numerator - 1) / numerator - 1) : Int)

/-- Divide by a power of ten: the quotient's dividend and divisor. -/
def scaledBy (magnitude : Magnitude) : Int → Nat × Nat
  | .ofNat exponent => (magnitude.numerator, Nat.pow 2 1074 * Nat.pow 10 exponent)
  | .negSucc exponent => (magnitude.numerator * Nat.pow 10 (exponent + 1), Nat.pow 2 1074)

/-- Whether a decimal reads back as the magnitude. -/
def isReadFrom (magnitude : Magnitude) (decimal : Decimal) : Bool :=
  decimal.magnitude? = some magnitude

/-- The two neighbours of the magnitude among the multiples of a power of ten, the nearer one first.
-/
def neighbours (magnitude : Magnitude) (exponent : Int) : List Decimal :=
  let scaled := magnitude.scaledBy exponent
  let below := scaled.1 / scaled.2
  let nearest := nearestQuotient scaled.1 scaled.2
  let other := if nearest = below then below + 1 else below
  [⟨nearest, exponent⟩, ⟨other, exponent⟩]

/-- The best decimal with a given number of digits that reads back as the magnitude. -/
def withDigits? (magnitude : Magnitude) (count : Nat) : Option Decimal :=
  (magnitude.neighbours (magnitude.pointPosition - count)).find? magnitude.isReadFrom

/-- The magnitude itself as a decimal. -/
def exactDecimal (magnitude : Magnitude) : Decimal :=
  ⟨magnitude.numerator * Nat.pow 5 1074, -1074⟩

/-- The decimal with the fewest digits that reads back as the magnitude. -/
def shortest (magnitude : Magnitude) : Decimal :=
  let found := ((List.range 17).map (· + 1)).findSome? magnitude.withDigits?
  (found.getD magnitude.exactDecimal).normalized

end Magnitude

end EditableMarkup
