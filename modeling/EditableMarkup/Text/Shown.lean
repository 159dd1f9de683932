import EditableMarkup.Text.Printable

/-!
# Texts in messages

A message shows a text between quotes, with everything escaped that is not
printable.  Single quotes are used unless the text holds some and no double
quote.
-/

namespace EditableMarkup.Text

/-- A number in lower case hexadecimal, filled with zeros to a given width. -/
def paddedHex (width n : Nat) : List Char :=
  let digits := Nat.toDigits 16 n
  List.replicate (width - digits.length) '0' ++ digits

/-- The escape of a character by its code point, in the shortest of three widths. -/
def codePointEscape (n : Nat) : List Char :=
  if n < 0x100 then '\\' :: 'x' :: paddedHex 2 n
  else if n < 0x10000 then '\\' :: 'u' :: paddedHex 4 n
  else '\\' :: 'U' :: paddedHex 8 n

/-- A character as it is shown between the given quotes. -/
def shownChar (quote c : Char) : List Char :=
  if c == quote || c == '\\' then ['\\', c]
  else if c == '\n' then ['\\', 'n']
  else if c == '\r' then ['\\', 'r']
  else if c == '\t' then ['\\', 't']
  else if isPrintable c then [c]
  else codePointEscape c.toNat

/-- The quotes around a text. -/
def shownQuote (text : List Char) : Char :=
  if text.contains '\'' && !text.contains '"' then '"' else '\''

/-- A text as a message shows it. -/
def shown (text : List Char) : String :=
  let quote := shownQuote text
  String.ofList (quote :: (text.flatMap (shownChar quote) ++ [quote]))

end EditableMarkup.Text
