import EditableMarkup.Plain.Basic
import EditableMarkup.Tree.Supply

/-!
# Stored trees

A tree is stored as a record with the fields `type`, `props`, `children` and
`id`.  Strings, numbers, truth values and mappings are stored as plain values,
and an expression as a record with the single field `$expression`.
-/

namespace EditableMarkup.Stored

/-- The tag under which a fragment is stored. -/
def fragmentType : String := "Fragment"

/-- The field that marks an expression. -/
def expressionKey : String := "$expression"

/-! ## Storing -/

/-- An expression as a record. -/
def expression (source : String) : Plain :=
  .record [(expressionKey, .string source)]

mutual

/-- An attribute value as a plain value. -/
def ofValue : Value → Plain
  | .string text => .string text
  | .number value => .number value
  | .boolean value => .boolean value
  | .mapping entries => .record (ofEntries entries)
  | .expression source => expression source

/-- Entries as fields. -/
def ofEntries : List (String × Value) → List (String × Plain)
  | [] => []
  | (key, value) :: rest => (key, ofValue value) :: ofEntries rest

end

/-- The text under which a tag is stored. -/
def ofTag : Tag → String
  | .fragment => fragmentType
  | .named name => name

mutual

/-- A tree as a record. -/
def ofNode : Node → Plain
  | ⟨tag, attributes, children, id⟩ =>
    .record
      [("type", .string (ofTag tag)), ("props", .record (ofEntries attributes)),
        ("children", .list (ofChildren children)), ("id", .string id)]

/-- Children as items. -/
def ofChildren : List (Content Node) → List Plain
  | [] => []
  | .text text :: rest => .string text :: ofChildren rest
  | .expression source :: rest => expression source :: ofChildren rest
  | .node node :: rest => ofNode node :: ofChildren rest

end

/-! ## Loading -/

mutual

/-- The attribute value that a plain value stores. -/
def toValue : Plain → Except Fault Value
  | .boolean value => .ok (.boolean value)
  | .number value => .ok (.number value)
  | .string text => .ok (.string text)
  | .record [(key, value)] =>
    if key = expressionKey then .ok (.expression value.text)
    else do return .mapping [(key, ← toValue value)]
  | .record fields => do return .mapping (← toEntries fields)
  | value => .error (.unsupportedValue value.shown)

/-- The entries that fields store. -/
def toEntries : List (String × Plain) → Except Fault (List (String × Value))
  | [] => .ok []
  | (key, value) :: rest => do
    let value ← toValue value
    return (key, value) :: (← toEntries rest)

end

/-- The tag that is stored under a text. -/
def toTag (text : String) : Tag :=
  if text = fragmentType then .fragment else .named text

/-- A field that must be there. -/
def requiredField (key : String) (fields : Entries Plain) : Except Fault Plain :=
  match fields.find? key with
  | some value => .ok value
  | none => .error (.missingField key)

/-- The attributes of a stored node; they may be missing. -/
def attributesOf (fields : Entries Plain) : Except Fault (Entries Value) :=
  match fields.find? "props" with
  | none => .ok []
  | some (.record attributes) => toEntries attributes
  | some _ => .error .attributesNotARecord

/-- Whether a stored identifier is missing or empty. -/
def isMissing : Option Plain → Bool
  | none | some .nothing | some (.string "") | some (.boolean false) | some (.list [])
  | some (.record []) => true
  | some (.number value) => value.sameValue (.integer 0)
  | _ => false

/-- The identifier of a stored node; a missing one is minted. -/
def identifierOf (fields : Entries Plain) (supply : Supply) : String × Supply :=
  if isMissing (fields.find? "id") then supply.mint
  else (((fields.find? "id").map Plain.text).getD "", supply)

/-- The tag and the attributes of a stored node. -/
def headOf (fields : Entries Plain) : Except Fault (Tag × Entries Value) := do
  let type ← requiredField "type" fields
  let attributes ← attributesOf fields
  return (toTag type.text, attributes)

/-- A stored node whose parts are loaded. -/
def assemble (head : Tag × Entries Value) (fields : Entries Plain) (children : List (Content Node))
    (supply : Supply) : Except Fault (Node × Supply) := do
  let (id, supply) := identifierOf fields supply
  return (← Node.make head.1 head.2 children id, supply)

mutual

/-- The tree that a record stores. -/
def toNode (supply : Supply) : Plain → Except Fault (Node × Supply)
  | .record fields => do
    let head ← headOf fields
    let (children, supply) ← childrenField supply fields
    assemble head fields children supply
  | _ => .error .notARecord

/-- The children in the field `children`; they may be missing. -/
def childrenField (supply : Supply) :
    List (String × Plain) → Except Fault (List (Content Node) × Supply)
  | [] => .ok ([], supply)
  | (key, value) :: rest =>
    if key = "children" then childrenOf supply value else childrenField supply rest

/-- The children that a list stores; the characters of a string and the keys of a record count as
texts. -/
def childrenOf (supply : Supply) : Plain → Except Fault (List (Content Node) × Supply)
  | .list items => toChildren supply items
  | .string text => .ok (text.toList.map fun c => .text (String.singleton c), supply)
  | .record fields => .ok (fields.map fun entry => .text entry.1, supply)
  | _ => .error .childrenNotAList

/-- The children that items store. -/
def toChildren (supply : Supply) : List Plain → Except Fault (List (Content Node) × Supply)
  | [] => .ok ([], supply)
  | item :: rest => do
    let (child, supply) ← toChild supply item
    let (children, supply) ← toChildren supply rest
    return (child :: children, supply)

/-- The child that an item stores. -/
def toChild (supply : Supply) : Plain → Except Fault (Content Node × Supply)
  | .string text => .ok (.text text, supply)
  | .record fields => do
    match Entries.find? expressionKey fields with
    | some source => return (.expression source.text, supply)
    | none =>
      let head ← headOf fields
      let (children, supply) ← childrenField supply fields
      let (node, supply) ← assemble head fields children supply
      return (.node node, supply)
  | value => .error (.unsupportedChild value.shown)

end

end EditableMarkup.Stored
