import EditableMarkup.Panel
import EditableMarkup.Record.Document
import EditableMarkup.Tree.Reconcile

/-!
# Sessions

In a session trees and documents are kept under names.  A command parses, edits
or reconciles what is kept and keeps the result under a name; a command that
fails, or that names nothing that is kept, leaves the session as it was.
-/

namespace EditableMarkup

/-- What is kept under names, and what the commands draw on. -/
structure Session where
  trees : String → Option Node
  documents : String → Option Document
  resources : Document.Resources

/-- A command of a session, with the name under which its result is kept. -/
inductive Command where
  /-- Parse a source. -/
  | parse (code into : String)
  /-- Set a property in a tree. -/
  | setProperty (tree id key : String) (value : Plain) (into : String)
  /-- Exchange the tag or the attributes of a node in a tree. -/
  | update (tree id : String) (tag : Option Tag) (attributes : Option (Entries Value))
      (into : String)
  /-- Give a current tree the identifiers of a previous one. -/
  | reconcile (previous current into : String)
  /-- Make a document of a source. -/
  | newDocument (code title into : String)
  /-- Give a document a new source. -/
  | recode (document code : String)
  /-- Exchange the tag or the attributes of a node in a document. -/
  | edit (document id : String) (tag : Option Tag) (attributes : Option (Entries Value))
  /-- Keep the tree of a document among the trees. -/
  | take (document into : String)

namespace Session

/-- A session in which nothing is kept yet. -/
def start (resources : Document.Resources) : Session where
  trees := fun _ => none
  documents := fun _ => none
  resources

/-- Keep a tree under a name. -/
def keepTree (session : Session) (into : String) (tree : Node) : Session :=
  { session with trees := fun name => if name = into then some tree else session.trees name }

/-- Keep a document under a name. -/
def keepDocument (session : Session) (into : String) (document : Document) : Session :=
  { session with
    documents := fun name => if name = into then some document else session.documents name }

/-- The session behind a command that succeeds. -/
def attempt? (session : Session) : Command → Option Session
  | .parse code into => do
    let (tree, supply) ← (Source.parse code session.resources.supply).toOption
    return { session.keepTree into tree with resources := { session.resources with supply } }
  | .setProperty tree id key value into => do
    let tree ← session.trees tree
    let changed ← (Panel.setProperty tree id key value).toOption
    return session.keepTree into changed
  | .update tree id tag attributes into => do
    let tree ← session.trees tree
    let changed ← (tree.update id { tag, attributes }).toOption
    return session.keepTree into changed
  | .reconcile previous current into => do
    let previous ← session.trees previous
    let current ← session.trees current
    return session.keepTree into (previous.reconcile current)
  | .newDocument code title into => do
    let (document, resources) ← (Document.ofCode code title session.resources).toOption
    return { session.keepDocument into document with resources }
  | .recode name code => do
    let document ← session.documents name
    let (document, resources) ← (document.recode code session.resources).toOption
    return { session.keepDocument name document with resources }
  | .edit name id tag attributes => do
    let document ← session.documents name
    let (document, clock) ← (document.edit id { tag, attributes } session.resources.clock).toOption
    return { session.keepDocument name document with
      resources := { session.resources with clock } }
  | .take name into => do
    let document ← session.documents name
    return session.keepTree into document.tree

/-- The session behind a command. -/
def step (session : Session) (command : Command) : Session :=
  (session.attempt? command).getD session

/-- The session behind several commands. -/
def run (session : Session) (commands : List Command) : Session :=
  commands.foldl step session

end Session

end EditableMarkup
