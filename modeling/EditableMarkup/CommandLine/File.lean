/-!
# Files

The bytes of an input file are text in UTF-8, in which every line end becomes a
line feed.  A document is named after its file, without the last extension.
-/

namespace EditableMarkup.CommandLine

/-- A text in which a carriage return, alone or with a line feed, is a line feed. -/
def unifyLines : List Char → List Char
  | [] => []
  | '\r' :: '\n' :: rest => '\n' :: unifyLines rest
  | '\r' :: rest => '\n' :: unifyLines rest
  | c :: rest => c :: unifyLines rest

/-- The text of a file, if its bytes are UTF-8. -/
def textOf? (bytes : ByteArray) : Option String :=
  (String.fromUTF8? bytes).map fun text => String.ofList (unifyLines text.toList)

/-- The parts of a path between slashes, without empty ones and single points. -/
def pathParts (path : String) : List String :=
  (path.splitOn "/").filter fun part => part != "" && part != "."

/-- The name of a file without its last extension; a point at either end starts none. -/
def stemOf (path : String) : String :=
  let name := ((pathParts path).getLast?.getD "").toList
  let extension := name.reverse.takeWhile (· != '.')
  let before := name.length - extension.length
  if extension.isEmpty || before ≤ 1 then String.ofList name
  else String.ofList (name.take (before - 1))

end EditableMarkup.CommandLine
