import EditableMarkup.Plain.Basic
import EditableMarkup.Text.Digit
import EditableMarkup.Tree.Update

/-!
# The property panel

An inspector shows the literal properties of a node and sets them one at a
time.  The entries of a style mapping are shown one by one, under keys of
their own, and the first text of a node is shown as its text content.
Expressions are not shown.
-/

namespace EditableMarkup

/-! ## Showing -/

/-- How an inspector edits a property. -/
inductive PropertyKind where
  | text
  | color
  | number
  | boolean
  deriving DecidableEq

namespace PropertyKind

/-- The name of a kind. -/
def name : PropertyKind → String
  | text => "text"
  | color => "color"
  | number => "number"
  | boolean => "boolean"

end PropertyKind

/-- A property as an inspector shows it. -/
structure Property where
  key : String
  value : Plain
  kind : PropertyKind

namespace Panel

/-- What stands in front of the name of a style entry. -/
def stylePrefix : String := "style."

/-- The attribute that holds the style of a node. -/
def styleKey : String := "style"

/-- The key of the text content. -/
def textKey : String := "textContent"

/-- The plain value of a scalar. -/
def scalar? : Value → Option Plain
  | .string text => some (.string text)
  | .number value => some (.number value)
  | .boolean value => some (.boolean value)
  | _ => none

/-- The kind of a scalar by its value. -/
def valueKind : Value → PropertyKind
  | .number _ => .number
  | .boolean _ => .boolean
  | _ => .text

/-- Whether one text occurs in another. -/
def occursIn (part : List Char) : List Char → Bool
  | [] => part.isEmpty
  | c :: rest => part.isPrefixOf (c :: rest) || occursIn part rest

/-- Whether a name speaks of a color. -/
def namesColor (name : String) : Bool :=
  occursIn "color".toList (name.toList.map Char.toLower)

/-- The kind of a style entry: a color by its name, a number also when a string starts with a digit.
-/
def styleKind (name : String) (value : Value) : PropertyKind :=
  if namesColor name then .color
  else
    match value with
    | .string text => if text.toList.head?.any Text.isDigit then .number else .text
    | value => valueKind value

/-- The properties of the entries of a style. -/
def styleProperties (entries : Entries Value) : List Property :=
  entries.filterMap fun entry =>
    (scalar? entry.2).map fun value =>
      { key := stylePrefix ++ entry.1, value, kind := styleKind entry.1 entry.2 }

/-- The properties of an attribute. -/
def attributeProperties (key : String) (value : Value) : List Property :=
  match value with
  | .mapping entries => if key = styleKey then styleProperties entries else []
  | value =>
    ((scalar? value).map fun plain => { key, value := plain, kind := valueKind value }).toList

/-- The first text among children. -/
def firstText? : List (Content Node) → Option String
  | [] => none
  | .text text :: _ => some text
  | _ :: rest => firstText? rest

/-- The properties of a node that an inspector can edit. -/
def properties (node : Node) : List Property :=
  node.attributes.flatMap (fun entry => attributeProperties entry.1 entry.2) ++
    ((firstText? node.children).map fun text =>
      { key := textKey, value := .string text, kind := .text }).toList

/-! ## Setting -/

/-- Refuse a number that has no literal. -/
def finiteNumber (number : Number) : Except Fault Value :=
  if number.isFinite then .ok (.number number) else .error (.numberWithoutLiteral number)

mutual

/-- The attribute value of a plain value. -/
def valueOf : Plain → Except Fault Value
  | .attribute (.number number) => finiteNumber number
  | .attribute value => .ok value
  | .boolean value => .ok (.boolean value)
  | .number number => finiteNumber number
  | .string text => .ok (.string text)
  | .record fields => do return .mapping (← entriesOf fields)
  | .nothing => .error (.unusableKind Plain.nothing.kind)
  | .list items => .error (.unusableKind (Plain.list items).kind)

/-- The attribute values of fields. -/
def entriesOf : List (String × Plain) → Except Fault (List (String × Value))
  | [] => .ok []
  | (key, value) :: rest => do
    let value ← valueOf value
    return (key, value) :: (← entriesOf rest)

end

/-- The name of the style entry that a key stands for. -/
def styleName? (key : String) : Option String :=
  if stylePrefix.toList.isPrefixOf key.toList then
    some (String.ofList (key.toList.drop stylePrefix.length))
  else none

/-- The entries of the style of a node; a style that is no mapping has none. -/
def styleEntries (node : Node) : Entries Value :=
  match node.attributes.find? styleKey with
  | some (.mapping entries) => entries
  | _ => []

/-- The changes that set one property of a node. -/
def changesFor (node : Node) (key : String) (value : Plain) : Except Fault Changes :=
  match styleName? key with
  | some name => do
    let entries := Entries.set name (← valueOf value) (styleEntries node)
    return { attributes := some (Entries.set styleKey (.mapping entries) node.attributes) }
  | none =>
    if key = textKey then
      if value.isWritable then .ok { children := some [.text value.text] }
      else .error .tooManyDigits
    else do
      return { attributes := some (Entries.set key (← valueOf value) node.attributes) }

/-- Set one property of the first node with an identifier; where no node has it, the tree stays as
it is. -/
def setProperty (tree : Node) (id key : String) (value : Plain) : Except Fault Node :=
  match tree.find? id with
  | none => .ok tree
  | some node => do tree.update id (← changesFor node key value)

/-! ## Classes -/

/-- The classes of a string without those that start in a given way, and a new one behind them. -/
def replaceClass (classes start new : String) : String :=
  let kept := (Text.words classes.toList).filter fun word => !start.toList.isPrefixOf word
  " ".intercalate (kept.map String.ofList ++ [new])

end Panel

end EditableMarkup
