import EditableMarkup.Number.Basic
import EditableMarkup.Text.Blank

/-!
# Trees of markup

A node is an element with a tag name, or a fragment.  It has attributes in
the order in which they were written, children, and an identifier.  A child is
a node, a text, or an expression that is kept word for word.
-/

namespace EditableMarkup

/-- Pairs of a key and a value, in the order in which the keys were first set. -/
abbrev Entries (α : Type) := List (String × α)

namespace Entries

variable {α : Type}

/-- The value of a key. -/
def find? (key : String) : Entries α → Option α
  | [] => none
  | (other, value) :: rest => if other = key then some value else find? key rest

/-- Set the value of a key: a key that is there keeps its position, a new one comes last. -/
def set (key : String) (value : α) : Entries α → Entries α
  | [] => [(key, value)]
  | (other, old) :: rest =>
    if other = key then (key, value) :: rest else (other, old) :: set key value rest

/-- Set one key after the other. -/
def ofPairs (pairs : List (String × α)) : Entries α :=
  pairs.foldl (fun entries pair => entries.set pair.1 pair.2) []

end Entries

/-- The value of an attribute. -/
inductive Value where
  | string (text : String)
  | number (value : Number)
  | boolean (value : Bool)
  | mapping (entries : List (String × Value))
  | expression (source : String)
  deriving Inhabited

/-- The tag of a node. -/
inductive Tag where
  | fragment
  | named (name : String)
  deriving DecidableEq, Inhabited

/-- A child of a node. -/
inductive Content (α : Type) where
  | text (text : String)
  | expression (source : String)
  | node (node : α)

/-- An element or a fragment with all that it holds. -/
structure Node where
  tag : Tag
  attributes : Entries Value
  children : List (Content Node)
  id : String
  deriving Inhabited

/-- What a request on trees, values or records can be refused for. -/
inductive Fault where
  /-- A fragment was given attributes. -/
  | fragmentAttributes
  /-- A node has no such field. -/
  | unknownField (name : String)
  /-- A number that is infinite or undefined has no literal. -/
  | numberWithoutLiteral (number : Number)
  /-- A value of this kind cannot be set. -/
  | unusableKind (kind : String)
  /-- A stored attribute value has no meaning. -/
  | unsupportedValue (shown : String)
  /-- A stored child has no meaning. -/
  | unsupportedChild (shown : String)
  /-- A record lacks a field. -/
  | missingField (name : String)
  /-- A record was expected where another value stands. -/
  | notARecord
  /-- The attributes of a node are not stored as a record. -/
  | attributesNotARecord
  /-- The children of a node are not stored as a list. -/
  | childrenNotAList
  /-- An integer has too many digits to be written. -/
  | tooManyDigits
  deriving DecidableEq, Inhabited

namespace Fault

/-- The message of a refusal. -/
def message : Fault → String
  | fragmentAttributes => "Fragment nodes cannot have attributes"
  | unknownField name => "A node has no field " ++ name
  | numberWithoutLiteral number => "Cannot use " ++ number.display ++ " as a number attribute value"
  | unusableKind kind => "Cannot use " ++ kind ++ " as an attribute value"
  | unsupportedValue shown => "Unsupported attribute value: " ++ shown
  | unsupportedChild shown => "Unsupported child: " ++ shown
  | missingField name => "A record lacks the field " ++ name
  | notARecord => "A record was expected"
  | attributesNotARecord => "Attributes are not a record"
  | childrenNotAList => "Children are not a list"
  | tooManyDigits => "An integer has too many digits"

end Fault

namespace Content

variable {α : Type}

/-- A text that is empty or blank. -/
def isBlankText : Content α → Bool
  | text value => Text.isBlankText value
  | _ => false

/-- The node that a child is, if it is one. -/
def node? : Content α → Option α
  | node value => some value
  | _ => none

end Content

namespace Node

/-- Children without the blank texts among them. -/
def withoutBlankTexts (children : List (Content Node)) : List (Content Node) :=
  children.filter fun child => !child.isBlankText

/-- Make a node: blank texts among the children are dropped, and a fragment has no attributes. -/
def make (tag : Tag) (attributes : Entries Value) (children : List (Content Node)) (id : String) :
    Except Fault Node :=
  if tag = .fragment ∧ !attributes.isEmpty then .error .fragmentAttributes
  else .ok { tag, attributes, children := withoutBlankTexts children, id }

end Node

end EditableMarkup
