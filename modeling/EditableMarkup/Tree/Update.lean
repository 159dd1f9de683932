import EditableMarkup.Tree.Locate

/-!
# Updating a node

An update exchanges fields of the first node with an identifier.  Only the
nodes on the way to it are made anew; all others stay as they are.  The
identifier says where to update, and so is no field that an update can set.
-/

namespace EditableMarkup

/-- New values for some fields of a node, and the names of fields that a node does not have. -/
structure Changes where
  tag : Option Tag := none
  attributes : Option (Entries Value) := none
  children : Option (List (Content Node)) := none
  unknown : List String := []

namespace Changes

/-- The names that say what is updated and where. -/
def takenNames : List String := ["tree", "id"]

/-- A name that says what is updated is refused as a field, whether or not there is such a node. -/
def check (changes : Changes) : Except Fault Unit :=
  match changes.unknown.find? takenNames.contains with
  | some name => .error (.unknownField name)
  | none => .ok ()

end Changes

namespace Node

/-- The node with some fields exchanged. -/
def change (node : Node) (changes : Changes) : Except Fault Node :=
  match changes.unknown with
  | name :: _ => .error (.unknownField name)
  | [] =>
    make (changes.tag.getD node.tag) (changes.attributes.getD node.attributes)
      (changes.children.getD node.children) node.id

mutual

/-- The tree with its first node of an identifier changed, or nothing where no node has the
identifier. -/
def updateFirst? (id : String) (changes : Changes) : Node → Except Fault (Option Node)
  | ⟨tag, attributes, children, own⟩ => do
    if own = id then
      return some (← change ⟨tag, attributes, children, own⟩ changes)
    else
      match ← updateIn? id changes children with
      | some children => return some (← make tag attributes children own)
      | none => return none

/-- Children with the first node of an identifier changed, or nothing where no node has the
identifier. -/
def updateIn? (id : String) (changes : Changes) :
    List (Content Node) → Except Fault (Option (List (Content Node)))
  | [] => return none
  | .node node :: rest => do
    match ← updateFirst? id changes node with
    | some node => return some (.node node :: rest)
    | none =>
      match ← updateIn? id changes rest with
      | some rest => return some (.node node :: rest)
      | none => return none
  | .text text :: rest => do
    match ← updateIn? id changes rest with
    | some rest => return some (.text text :: rest)
    | none => return none
  | .expression source :: rest => do
    match ← updateIn? id changes rest with
    | some rest => return some (.expression source :: rest)
    | none => return none

end

/-- The tree with its first node of an identifier changed, if the changes are fields and a node has
the identifier. -/
def update? (tree : Node) (id : String) (changes : Changes) : Except Fault (Option Node) := do
  changes.check
  tree.updateFirst? id changes

/-- The tree with its first node of an identifier changed; where no node has it, the tree itself. -/
def update (tree : Node) (id : String) (changes : Changes) : Except Fault Node := do
  return (← tree.update? id changes).getD tree

end Node

end EditableMarkup
