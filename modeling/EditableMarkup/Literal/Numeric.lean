import EditableMarkup.Literal.Fault
import EditableMarkup.Number.Basic
import EditableMarkup.Text.Blank
import EditableMarkup.Text.Digit

/-!
# Numeric literals

A numeric literal is an integer in base two, eight, ten or sixteen, or a
decimal with a point or an exponent.  The underscore only separates digits.  A
decimal whose double is an integer of safe size is that integer.  A final `n`
marks a big integer, which has no plain value.
-/

namespace EditableMarkup.Literal

open EditableMarkup.Text

/-- The value of digits in a base, if all of them are digits of it. -/
def digitsValue? (base : Nat) : List Char → Option Nat :=
  List.foldlM
    (fun value c => do
      let digit ← hexValue? c
      if digit < base then some (base * value + digit) else none)
    0

/-- The base that the first two characters announce. -/
def announcedBase? : List Char → Option Nat
  | '0' :: letter :: _ =>
    if letter == 'x' || letter == 'X' then some 16
    else if letter == 'o' || letter == 'O' then some 8
    else if letter == 'b' || letter == 'B' then some 2
    else none
  | _ => none

/-- A decimal with a point or an exponent: its digits before and behind the point, and its exponent.
-/
def decimalParts? (text : List Char) : Option (List Char × List Char × Int) :=
  let whole := text.takeWhile isDigit
  let rest := text.drop whole.length
  let fraction :=
    match rest with
    | '.' :: behind => behind.takeWhile isDigit
    | _ => []
  let rest :=
    match rest with
    | '.' :: behind => behind.drop fraction.length
    | _ => rest
  if whole.isEmpty && fraction.isEmpty then none
  else
    match rest with
    | [] => some (whole, fraction, 0)
    | e :: exponent =>
      if e == 'e' || e == 'E' then
        let (negative, digits) :=
          match exponent with
          | '-' :: digits => (true, digits)
          | '+' :: digits => (false, digits)
          | digits => (false, digits)
        if digits.isEmpty then none
        else do
          let value ← digitsValue? 10 digits
          some (whole, fraction, if negative then -(value : Int) else value)
      else none

/-- An unsigned double, as a decimal or by the name of a value that has no digits. -/
def magnitudeValue? (negative : Bool) (text : List Char) : Option Binary64 :=
  let lower := text.map Char.toLower
  if lower = "inf".toList ∨ lower = "infinity".toList then some (.infinite negative)
  else if lower = "nan".toList then some .notANumber
  else do
    let (whole, fraction, exponent) ← decimalParts? text
    let digits ← digitsValue? 10 (whole ++ fraction)
    some (Decimal.toBinary64 negative ⟨digits, exponent - fraction.length⟩)

/-- A double with its sign. -/
def doubleValue? (text : List Char) : Option Binary64 :=
  match trim text with
  | '-' :: rest => magnitudeValue? true rest
  | '+' :: rest => magnitudeValue? false rest
  | rest => magnitudeValue? false rest

/-- Below this bound every integer is a double. -/
def safeBound : Nat := Nat.pow 2 53

/-- A double that is an integer of safe size becomes that integer. -/
def integerIfSafe (value : Binary64) : Number :=
  match value.integer? with
  | some n => if n.natAbs < safeBound then .integer n else .real value
  | none => .real value

/-- The value of digits without separators. -/
def digitsNumber (digits : List Char) : Except LiteralFault Number :=
  match announcedBase? digits with
  | some base =>
    match trim (digits.drop 2), digitsValue? base (trim (digits.drop 2)) with
    | _ :: _, some value => .ok (.integer value)
    | _, _ => .error .malformedNumber
  | none =>
    if !digits.isEmpty && digits.all isDigit then
      if Number.digitLimit < digits.length then .error .tooManyDigits
      else .ok (.integer ((digitsValue? 10 digits).getD 0))
    else
      match doubleValue? digits with
      | some value => .ok (integerIfSafe value)
      | none => .error .malformedNumber

/-- The number that a literal stands for; a big integer has none. -/
def numberOf? (literal : String) : Except LiteralFault (Option Number) :=
  let text := literal.toList
  if text.getLast? = some 'n' then .ok none
  else (digitsNumber (text.filter (· != '_'))).map some

end EditableMarkup.Literal
