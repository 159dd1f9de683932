import EditableMarkup.Literal.Fault
import EditableMarkup.Text.Digit

/-!
# Quoted strings

Writing a string puts it between double quotes and escapes the quote, the
backslash and the controls.  Reading a literal undoes every escape: simple
ones, code points in hexadecimal, and a backslash in front of a line end,
which joins two lines.
-/

namespace EditableMarkup.Literal

open EditableMarkup.Text

/-! ## Writing -/

/-- A digit of base sixteen, in lower case. -/
def hexDigit (n : Nat) : Char :=
  Nat.digitChar n

/-- A number in a fixed count of hexadecimal digits. -/
def hexDigits : Nat → Nat → List Char
  | 0, _ => []
  | count + 1, n => hexDigits count (n / 16) ++ [hexDigit (n % 16)]

/-- A character between double quotes. -/
def escaped (c : Char) : List Char :=
  if c == '"' then ['\\', '"']
  else if c == '\\' then ['\\', '\\']
  else if c == '\n' then ['\\', 'n']
  else if c == '\r' then ['\\', 'r']
  else if c == '\t' then ['\\', 't']
  else if c == '\x08' then ['\\', 'b']
  else if c == '\x0c' then ['\\', 'f']
  else if c.toNat < 0x20 then '\\' :: 'u' :: hexDigits 4 c.toNat
  else [c]

/-- A text between double quotes. -/
def quotedChars (text : List Char) : List Char :=
  '"' :: (text.flatMap escaped ++ ['"'])

/-- A string between double quotes. -/
def quoted (text : String) : String :=
  String.ofList (quotedChars text.toList)

/-! ## Reading -/

/-- The value of hexadecimal digits. -/
def hexNumber (digits : List Char) : Nat :=
  digits.foldl (fun n c => 16 * n + (hexValue? c).getD 0) 0

/-- The character of a code point. Half of a surrogate pair is no character and gives the
replacement character. -/
def codePoint (n : Nat) : Except LiteralFault Char :=
  if Nat.pow 2 31 ≤ n then .error .beyondWords
  else if 0x10FFFF < n then .error .beyondCodePoints
  else if 0xD800 ≤ n ∧ n ≤ 0xDFFF then .ok '\uFFFD'
  else .ok (Char.ofNat n)

/-- What a backslash in front of a single character stands for. -/
def simpleEscape (c : Char) : List Char :=
  if c == 'n' then ['\n']
  else if c == 't' then ['\t']
  else if c == 'r' then ['\r']
  else if c == 'b' then ['\x08']
  else if c == 'f' then ['\x0c']
  else if c == 'v' then ['\x0b']
  else if c == '0' then ['\x00']
  else if c == '\n' || c == '\r' || c == '\u2028' || c == '\u2029' then []
  else [c]

/-- The digits of a code point in braces, if they and the closing brace follow. -/
def bracedDigits? (text : List Char) : Option (List Char) :=
  let digits := text.takeWhile isHexDigit
  match digits, text.drop digits.length with
  | _ :: _, '}' :: _ => some digits
  | _, _ => none

/-- A fixed count of hexadecimal digits, if they follow. -/
def fixedDigits? (count : Nat) (text : List Char) : Option (List Char) :=
  let digits := text.take count
  if digits.length = count ∧ digits.all isHexDigit then some digits else none

/-- An escape with a code point, behind its backslash: the number of its characters and its digits.
-/
def codePointEscape? : List Char → Option (Nat × List Char)
  | 'u' :: '{' :: rest =>
    (bracedDigits? rest).map fun digits => (digits.length + 3, digits)
  | 'u' :: rest => (fixedDigits? 4 rest).map fun digits => (5, digits)
  | 'x' :: rest => (fixedDigits? 2 rest).map fun digits => (3, digits)
  | _ => none

/-- An escape behind its backslash: the number of its characters and what it stands for. A backslash
at the end of a text is no escape. -/
def escape? (text : List Char) : Option (Nat × Except LiteralFault (List Char)) :=
  match codePointEscape? text with
  | some (length, digits) => some (length, (codePoint (hexNumber digits)).map ([·]))
  | none =>
    match text with
    | '\r' :: '\n' :: _ => some (2, .ok [])
    | c :: _ => some (1, .ok (simpleEscape c))
    | [] => none

/-- Undo the escapes of a text, of which some first characters belong to an escape that is already
read. -/
def unescapeFrom : Nat → List Char → Except LiteralFault (List Char)
  | _, [] => .ok []
  | pending + 1, _ :: rest => unescapeFrom pending rest
  | 0, c :: rest => do
    if c == '\\' then
      match escape? rest with
      | some (length, meaning) =>
        let first ← meaning
        return first ++ (← unescapeFrom length rest)
      | none => return c :: (← unescapeFrom 0 rest)
    else return c :: (← unescapeFrom 0 rest)

/-- The text of a literal without its first and last character, the quotes. -/
def inner (literal : List Char) : List Char :=
  (literal.drop 1).dropLast

/-- The string that a literal stands for. -/
def unquoted (literal : String) : Except LiteralFault String :=
  (unescapeFrom 0 (inner literal.toList)).map String.ofList

end EditableMarkup.Literal
