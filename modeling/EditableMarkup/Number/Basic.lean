import EditableMarkup.Number.Decimal

/-!
# Numbers

A number is an integer of any size or a double.  The two kinds stay apart,
but they are compared by their exact values.
-/

namespace EditableMarkup

/-- An integer of any size, or a double. -/
inductive Number where
  | integer (value : Int)
  | real (value : Binary64)
  deriving DecidableEq

namespace Number

/-- Neither infinite nor undefined. -/
def isFinite : Number → Bool
  | integer _ => true
  | real value => value.isFinite

/-- The number with the other sign. -/
def negate : Number → Number
  | integer value => integer (-value)
  | real value => real value.negate

/-- The exact value of a finite number as a signed multiple of `2 ^ (-1074)`. -/
def units? : Number → Option Int
  | integer value => some (value * Nat.pow 2 1074)
  | real (.finite negative magnitude) =>
    some (if negative then -(magnitude.numerator : Int) else magnitude.numerator)
  | real _ => none

/-- Equality of values: exact for finite numbers, by sign for infinite ones; what is not a number
equals nothing. -/
def sameValue (a b : Number) : Bool :=
  match a.units?, b.units? with
  | some x, some y => x == y
  | none, none =>
    match a, b with
    | real (.infinite negative), real (.infinite other) => negative == other
    | _, _ => false
  | _, _ => false

/-! ## Printing -/

/-- A double as text: its shortest decimal, positional from `10 ^ (-4)` up to below `10 ^ 16`,
always with a point, and otherwise with an exponent of a sign and at least two digits. -/
def positional (decimal : Decimal) : String :=
  let digits := Nat.toDigits 10 decimal.digits
  let count : Int := digits.length
  let point := count + decimal.exponent
  if decimal.digits = 0 then "0.0"
  else if -4 < point ∧ point ≤ 16 then
    if point ≤ 0 then String.ofList ("0.".toList ++ List.replicate (-point).toNat '0' ++ digits)
    else if count ≤ point then
      String.ofList (digits ++ List.replicate (point - count).toNat '0' ++ ".0".toList)
    else String.ofList (digits.take point.toNat ++ '.' :: digits.drop point.toNat)
  else
    let exponent := point - 1
    let exponentDigits := Nat.toDigits 10 exponent.natAbs
    let fraction :=
      match digits.drop 1 with
      | [] => []
      | rest => '.' :: rest
    String.ofList
      (digits.take 1 ++ fraction ++ 'e' :: (if exponent < 0 then '-' else '+') ::
        (if exponentDigits.length < 2 then '0' :: exponentDigits else exponentDigits))

/-- A sign in front of a text. -/
def signed (negative : Bool) (text : String) : String :=
  if negative then "-" ++ text else text

/-- An integer in decimal digits. -/
def integerText (value : Int) : String :=
  signed (value < 0) (String.ofList (Nat.toDigits 10 value.natAbs))

/-- A finite double with a point or an exponent. -/
def finiteText (negative : Bool) (magnitude : Magnitude) : String :=
  signed negative (positional magnitude.shortest)

/-- A number for display: an integer in digits, a double with a point or an exponent. -/
def display : Number → String
  | integer value => integerText value
  | real .notANumber => "nan"
  | real (.infinite negative) => signed negative "inf"
  | real (.finite negative magnitude) => finiteText negative magnitude

/-- A number as an expression of markup: a double that is an integer below `10 ^ 21` is written as
that integer. -/
def literal : Number → String
  | integer value => integerText value
  | real .notANumber => "NaN"
  | real (.infinite negative) => signed negative "Infinity"
  | real (.finite negative magnitude) =>
    match (Binary64.finite negative magnitude).integer? with
    | some value =>
      if value.natAbs < Nat.pow 10 21 then integerText value else finiteText negative magnitude
    | none => finiteText negative magnitude

/-- Integers of up to this many digits can be read and written in decimal. -/
def digitLimit : Nat := 4300

/-- Whether a number can be written: an integer has at most `digitLimit` digits. -/
def isWritable : Number → Bool
  | integer value => value.natAbs < Nat.pow 10 digitLimit
  | real _ => true

end Number

end EditableMarkup
