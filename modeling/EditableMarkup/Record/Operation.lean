import EditableMarkup.Record.Session

/-!
# Sessions with trees from callers

Besides parsing and editing, a caller makes nodes and loads stored trees and
documents.  The children that a node is made of, or that an update puts in, are
texts, expressions and trees that are kept.  An operation that is refused leaves
the session as it was.
-/

namespace EditableMarkup

/-- A child that a caller hands in. -/
inductive Part where
  | text (text : String)
  | expression (source : String)
  /-- A tree that is kept under a name. -/
  | tree (name : String)

/-- New values for fields of a node. -/
structure Fields where
  tag : Option Tag := none
  attributes : Option (Entries Value) := none
  children : Option (List Part) := none

/-- A command, or what else gives a tree. -/
inductive Operation where
  | command (command : Command)
  /-- Make a node. -/
  | construct (tag : Tag) (attributes : Entries Value) (children : List Part) (id : Option String)
      (into : String)
  /-- Load a stored tree. -/
  | load (data : Plain) (into : String)
  /-- Load a stored document. -/
  | loadDocument (data : Plain) (into : String)
  /-- Exchange fields of a node in a tree, children among them. -/
  | update (tree id : String) (fields : Fields) (into : String)
  /-- Exchange fields of a node in a document, children among them. -/
  | edit (document id : String) (fields : Fields)

namespace Session

/-- The child that a part stands for. -/
def content? (session : Session) : Part → Option (Content Node)
  | .text text => some (.text text)
  | .expression source => some (.expression source)
  | .tree name => (session.trees name).map .node

/-- The changes that fields stand for. -/
def changes? (session : Session) (fields : Fields) : Option Changes :=
  match fields.children with
  | none => some { tag := fields.tag, attributes := fields.attributes }
  | some parts => do
    let children ← parts.mapM session.content?
    return { tag := fields.tag, attributes := fields.attributes, children := some children }

/-- An identifier for a new node: the given one, or a minted one. -/
def identifier (session : Session) : Option String → String × Supply
  | some id => (id, session.resources.supply)
  | none => session.resources.supply.mint

/-- The session with another supply. -/
def withSupply (session : Session) (supply : Supply) : Session :=
  { session with resources := { session.resources with supply } }

/-- The session behind an operation that succeeds. -/
def operate? (session : Session) : Operation → Option Session
  | .command command => session.attempt? command
  | .construct tag attributes parts id into => do
    let children ← parts.mapM session.content?
    let (id, supply) := session.identifier id
    let tree ← (Node.make tag attributes children id).toOption
    return (session.keepTree into tree).withSupply supply
  | .load data into => do
    let (tree, supply) ← (Stored.toNode session.resources.supply data).toOption
    return (session.keepTree into tree).withSupply supply
  | .loadDocument data into => do
    let (document, supply) ← (Document.ofPlain data session.resources.supply).toOption
    return (session.keepDocument into document).withSupply supply
  | .update name id fields into => do
    let tree ← session.trees name
    let changes ← session.changes? fields
    let changed ← (tree.update id changes).toOption
    return session.keepTree into changed
  | .edit name id fields => do
    let document ← session.documents name
    let changes ← session.changes? fields
    let (document, clock) ← (document.edit id changes session.resources.clock).toOption
    return { session.keepDocument name document with
      resources := { session.resources with clock } }

/-- The session behind an operation. -/
def operate (session : Session) (operation : Operation) : Session :=
  (session.operate? operation).getD session

/-- The session behind several operations. -/
def operateAll (session : Session) (operations : List Operation) : Session :=
  operations.foldl operate session

end Session

end EditableMarkup
