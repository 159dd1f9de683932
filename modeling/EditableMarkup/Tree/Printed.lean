import EditableMarkup.Grammar.Lexeme
import EditableMarkup.Literal.Quoted
import EditableMarkup.Tree.Basic

/-!
# Printing a tree

A tree is printed with one child per line, indented by depth.  A node without
children closes itself, and a node with a single text stands on one line.  A
text that would be read as markup, as a comment or without its outer blanks is
printed as a string in braces, and so is a text behind another text.
-/

namespace EditableMarkup

open Text Literal

/-! ## Parts of a line -/

/-- The spaces in front of a line; a negative indent counts as none. -/
def margin (indent : Int) (depth : Nat) : String :=
  String.ofList (List.replicate (indent.toNat * depth) ' ')

/-- A text between braces. -/
def braced (text : String) : String :=
  "\x7b" ++ text ++ "\x7d"

/-- A text that markup would not give back: it holds a brace or an angle bracket, has a blank at an
end, or starts like a comment. -/
def isUnsafeText (text : List Char) : Bool :=
  text.any Grammar.Lexeme.endsText || (text.head?.any isBlank) || (text.getLast?.any isBlank) ||
    (text.take 2 == ['/', '/'] || text.take 2 == ['/', '*'])

/-- A text as a child. -/
def printText (text : String) : String :=
  if isUnsafeText text.toList then braced (quoted text) else text

/-- A name that needs no quotes as a key. -/
def isPlainKey (key : List Char) : Bool :=
  Grammar.Lexeme.anyName key = some key.length

/-- The key of an entry. -/
def printKey (key : String) : String :=
  if isPlainKey key.toList then key else quoted key

/-! ## Values and attributes -/

mutual

/-- A value inside an expression. -/
def Value.print : Value → String
  | .string text => quoted text
  | .number value => value.literal
  | .boolean value => if value then "true" else "false"
  | .expression source => source
  | .mapping entries => braced (", ".intercalate (Value.printEntries entries))

/-- The entries of a mapping. -/
def Value.printEntries : List (String × Value) → List String
  | [] => []
  | (key, value) :: rest => (printKey key ++ ": " ++ value.print) :: Value.printEntries rest

end

/-- A string as the value of an attribute: in double quotes, in single quotes if it holds double
ones, or as an expression if it holds both. -/
def printString (text : String) : String :=
  if !text.toList.contains '"' then "\"" ++ text ++ "\""
  else if !text.toList.contains '\'' then "'" ++ text ++ "'"
  else braced (quoted text)

/-- An attribute; one that is off is not printed. -/
def printAttribute (key : String) : Value → String
  | .boolean true => key
  | .boolean false => ""
  | .string text => key ++ "=" ++ printString text
  | value => key ++ "=" ++ braced value.print

/-- The attributes of a node, each behind a space. -/
def printAttributes (attributes : Entries Value) : String :=
  let parts := attributes.map fun entry => printAttribute entry.1 entry.2
  String.join ((parts.filter (!·.isEmpty)).map (" " ++ ·))

/-! ## Nodes -/

namespace Node

/-- What opens and closes the tags of a node. -/
def opening (tag : Tag) (attributes : Entries Value) : String :=
  match tag with
  | .fragment => "<"
  | .named name => "<" ++ name ++ printAttributes attributes

/-- The closing tag of a node. -/
def closing : Tag → String
  | .fragment => "</>"
  | .named name => "</" ++ name ++ ">"

/-- A node without children. -/
def printEmpty (tag : Tag) (attributes : Entries Value) : String :=
  match tag with
  | .fragment => "<></>"
  | .named _ => opening tag attributes ++ " />"

mutual

/-- A node at some depth. -/
def printAt (indent : Int) (depth : Nat) : Node → String
  | ⟨tag, attributes, [], _⟩ => margin indent depth ++ printEmpty tag attributes
  | ⟨.named name, attributes, [.text text], _⟩ =>
    margin indent depth ++ opening (.named name) attributes ++ ">" ++ printText text ++
      closing (.named name)
  | ⟨tag, attributes, children, _⟩ =>
    margin indent depth ++ opening tag attributes ++ ">\n" ++
      "\n".intercalate (printChildren indent (depth + 1) false children) ++ "\n" ++
      margin indent depth ++ closing tag

/-- Children, one per line; the flag tells whether a text stands before them. -/
def printChildren (indent : Int) (depth : Nat) (behindText : Bool) :
    List (Content Node) → List String
  | [] => []
  | .node node :: rest => printAt indent depth node :: printChildren indent depth false rest
  | .text text :: rest =>
    (margin indent depth ++ if behindText then braced (quoted text) else printText text) ::
      printChildren indent depth true rest
  | .expression source :: rest =>
    (margin indent depth ++ braced source) :: printChildren indent depth false rest

end

/-- A tree as markup. -/
def print (node : Node) (indent : Int) : String :=
  node.printAt indent 0

end Node

/-! ## Numbers that cannot be written -/

mutual

/-- Whether all integers of a value can be written. -/
def Value.isWritable : Value → Bool
  | .number value => value.isWritable
  | .mapping entries => Value.areWritable entries
  | _ => true

/-- Whether all integers of entries can be written. -/
def Value.areWritable : List (String × Value) → Bool
  | [] => true
  | (_, value) :: rest => value.isWritable && Value.areWritable rest

end

namespace Node

mutual

/-- Whether all integers of a tree can be written. -/
def isWritable : Node → Bool
  | ⟨_, attributes, children, _⟩ => Value.areWritable attributes && areWritable children

/-- Whether all integers of children can be written. -/
def areWritable : List (Content Node) → Bool
  | [] => true
  | .node node :: rest => node.isWritable && areWritable rest
  | _ :: rest => areWritable rest

end

/-- A tree as markup, if all of its integers can be written. -/
def serialize (node : Node) (indent : Int) : Except Fault String :=
  if node.isWritable then .ok (node.print indent) else .error .tooManyDigits

end Node

end EditableMarkup
