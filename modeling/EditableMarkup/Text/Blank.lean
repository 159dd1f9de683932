/-!
# Blank characters

Texts are trimmed and split at the characters that count as blank.  These are
the blanks of Unicode together with the four separators U+001C to U+001F.
-/

namespace EditableMarkup.Text

/-- A blank character of Unicode, or one of the separators U+001C to U+001F. -/
def isBlank (c : Char) : Bool :=
  let n := c.toNat
  if n < 0x80 then (0x09 ≤ n && n ≤ 0x0D) || (0x1C ≤ n && n ≤ 0x20)
  else n == 0x85 || n == 0xA0 || n == 0x1680 || (0x2000 ≤ n && n ≤ 0x200A) ||
    n == 0x2028 || n == 0x2029 || n == 0x202F || n == 0x205F || n == 0x3000

/-- Cut the blanks from both ends. -/
def trim (text : List Char) : List Char :=
  ((text.dropWhile isBlank).reverse.dropWhile isBlank).reverse

/-- Cut the blanks from both ends of a string. -/
def trimmed (text : String) : String :=
  String.ofList (trim text.toList)

/-- A text of blanks only, the empty one included. -/
def isBlankText (text : String) : Bool :=
  text.toList.all isBlank

/-- The maximal runs of characters that are not blank; the first argument holds the open run, last
character first. -/
def wordsFrom : List Char → List Char → List (List Char)
  | [], [] => []
  | run, [] => [run.reverse]
  | run, c :: rest =>
    if isBlank c then
      match run with
      | [] => wordsFrom [] rest
      | _ => run.reverse :: wordsFrom [] rest
    else wordsFrom (c :: run) rest

/-- The maximal runs of characters that are not blank. -/
def words (text : List Char) : List (List Char) :=
  wordsFrom [] text

end EditableMarkup.Text
