import EditableMarkup.Text.Shown
import EditableMarkup.Tree.Printed

/-!
# Plain values

Values without a type of their own, as they come from an inspector or from a
stored record: nothing, truth values, numbers, strings, lists and records.  An
inspector may also hand over a value that is already an attribute value.
-/

namespace EditableMarkup

/-- A value without a type of its own. -/
inductive Plain where
  | nothing
  | boolean (value : Bool)
  | number (value : Number)
  | string (text : String)
  | list (items : List Plain)
  | record (fields : List (String × Plain))
  | attribute (value : Value)
  deriving Inhabited

/-- A truth value for display. -/
def shownBoolean (value : Bool) : String :=
  if value then "True" else "False"

/-- Fields between braces, for display. -/
def shownFields (fields : List String) : String :=
  "\x7b" ++ ", ".intercalate fields ++ "\x7d"

mutual

/-- An attribute value for display inside another value. -/
def Value.shown : Value → String
  | .string text => "String(value=" ++ Text.shown text.toList ++ ")"
  | .number value => "Number(value=" ++ value.display ++ ")"
  | .boolean value => "Boolean(value=" ++ shownBoolean value ++ ")"
  | .mapping entries =>
    "Mapping(entries=mappingproxy(" ++ shownFields (Value.shownEntries entries) ++ "))"
  | .expression source => "Expression(source=" ++ Text.shown source.toList ++ ")"

/-- The entries of a mapping for display. -/
def Value.shownEntries : List (String × Value) → List String
  | [] => []
  | (key, value) :: rest =>
    (Text.shown key.toList ++ ": " ++ value.shown) :: Value.shownEntries rest

end

namespace Plain

mutual

/-- A value for display inside another value or in a message. -/
def shown : Plain → String
  | nothing => "None"
  | boolean value => shownBoolean value
  | number value => value.display
  | string text => Text.shown text.toList
  | list items => "[" ++ ", ".intercalate (shownItems items) ++ "]"
  | record fields => shownFields (shownRecord fields)
  | .attribute value => value.shown

/-- The items of a list for display. -/
def shownItems : List Plain → List String
  | [] => []
  | item :: rest => item.shown :: shownItems rest

/-- The fields of a record for display. -/
def shownRecord : List (String × Plain) → List String
  | [] => []
  | (key, value) :: rest => (Text.shown key.toList ++ ": " ++ value.shown) :: shownRecord rest

end

/-- A value as text: a string as it is, any other value as it is shown. -/
def text : Plain → String
  | string text => text
  | value => value.shown

/-- The name of the kind of a value. -/
def kind : Plain → String
  | nothing => "NoneType"
  | boolean _ => "bool"
  | number (.integer _) => "int"
  | number (.real _) => "float"
  | string _ => "str"
  | list _ => "list"
  | record _ => "dict"
  | .attribute (.string _) => "String"
  | .attribute (.number _) => "Number"
  | .attribute (.boolean _) => "Boolean"
  | .attribute (.mapping _) => "Mapping"
  | .attribute (.expression _) => "Expression"

mutual

/-- Whether all integers of a value can be written. -/
def isWritable : Plain → Bool
  | number value => value.isWritable
  | list items => areWritable items
  | record fields => fieldsAreWritable fields
  | .attribute value => value.isWritable
  | _ => true

/-- Whether all integers of items can be written. -/
def areWritable : List Plain → Bool
  | [] => true
  | item :: rest => item.isWritable && areWritable rest

/-- Whether all integers of fields can be written. -/
def fieldsAreWritable : List (String × Plain) → Bool
  | [] => true
  | (_, value) :: rest => value.isWritable && fieldsAreWritable rest

end

end Plain

end EditableMarkup
