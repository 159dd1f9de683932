import EditableMarkup.Literal.Quoted
import EditableMarkup.Plain.Basic

/-!
# Plain values as JSON

Lists and records are written over several lines, with one item per line and
a fixed number of spaces per level; empty ones stay on one line.
-/

namespace EditableMarkup.Plain

/-- A line break and the spaces in front of a line. -/
def lineBreak (indent : Int) (level : Nat) : String :=
  String.ofList ('\n' :: List.replicate (indent.toNat * level) ' ')

/-- Items between brackets, one per line. -/
def bracketed (opening closing : String) (indent : Int) (level : Nat) : List String → String
  | [] => opening ++ closing
  | items =>
    opening ++ lineBreak indent (level + 1) ++
      ("," ++ lineBreak indent (level + 1)).intercalate items ++ lineBreak indent level ++ closing

/-- A number; infinite and undefined ones by name. -/
def jsonNumber : Number → String
  | .real .notANumber => "NaN"
  | .real (.infinite negative) => Number.signed negative "Infinity"
  | value => value.display

mutual

/-- A value at some level. -/
def jsonAt (indent : Int) (level : Nat) : Plain → String
  | nothing => "null"
  | boolean value => if value then "true" else "false"
  | number value => jsonNumber value
  | string text => Literal.quoted text
  | list items => bracketed "[" "]" indent level (jsonItems indent (level + 1) items)
  | record fields => bracketed "\x7b" "\x7d" indent level (jsonFields indent (level + 1) fields)
  | .attribute value => Literal.quoted value.shown

/-- The items of a list. -/
def jsonItems (indent : Int) (level : Nat) : List Plain → List String
  | [] => []
  | item :: rest => jsonAt indent level item :: jsonItems indent level rest

/-- The fields of a record. -/
def jsonFields (indent : Int) (level : Nat) : List (String × Plain) → List String
  | [] => []
  | (key, value) :: rest =>
    (Literal.quoted key ++ ": " ++ jsonAt indent level value) :: jsonFields indent level rest

end

/-- A value as JSON, if all of its integers can be written. -/
def json (value : Plain) (indent : Int) : Except Fault String :=
  if value.isWritable then .ok (value.jsonAt indent 0) else .error .tooManyDigits

end EditableMarkup.Plain
