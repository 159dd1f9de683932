/-!
# Fresh identifiers

Identifiers are minted from a supply that never gives the same one twice: the
numbers from a starting point on, in base 36 with at least nine digits.
-/

namespace EditableMarkup

/-- A digit of base 36. -/
def base36Digit (n : Nat) : Char :=
  if n < 10 then Char.ofNat ('0'.toNat + n) else Char.ofNat ('a'.toNat + (n - 10))

/-- A number in base 36 with at least a given count of digits; the first argument bounds their
number. -/
def base36 : Nat → Nat → Nat → List Char
  | 0, _, _ => []
  | fuel + 1, count, n =>
    if count = 0 ∧ n = 0 then []
    else base36 fuel (count - 1) (n / 36) ++ [base36Digit (n % 36)]

/-- The identifiers that have not been given yet. -/
structure Supply where
  next : Nat

namespace Supply

/-- The identifier with a given number. -/
def identifier (n : Nat) : String :=
  String.ofList (base36 (n + 9) 9 n)

/-- Mint an identifier. -/
def mint (supply : Supply) : String × Supply :=
  (identifier supply.next, { supply with next := supply.next + 1 })

end Supply

end EditableMarkup
