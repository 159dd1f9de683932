import EditableMarkup.Record.Clock
import EditableMarkup.Record.Stored
import EditableMarkup.Source.Parse
import EditableMarkup.Tree.Printed
import EditableMarkup.Tree.Update

/-!
# Documents

A document keeps a source together with its tree, and the times at which it
was made and last changed.  Editing the tree prints the source anew, and a new
source is parsed anew; what fails or finds nothing leaves the document and the
clock as they were.
-/

namespace EditableMarkup

/-- A source with its tree, its name and its times. -/
structure Document where
  name : String
  code : String
  tree : Node
  id : Option String := none
  createdAt : Option String := none
  updatedAt : Option String := none

namespace Document

/-- The name of a document that is given none. -/
def untitled : String := "Untitled Component"

/-- What a document draws on: fresh identifiers and the time. -/
structure Resources where
  supply : Supply
  clock : Clock

/-- Make a document of a source. -/
def ofCode (code name : String) (resources : Resources) :
    Except Source.Failure (Document × Resources) := do
  let (tree, supply) ← Source.parse code resources.supply
  let (now, clock) := resources.clock.read
  return ({ name, code, tree, createdAt := some now, updatedAt := some now }, ⟨supply, clock⟩)

/-- Change fields of the first node with an identifier. -/
def edit (document : Document) (id : String) (changes : Changes) (clock : Clock) :
    Except Fault (Document × Clock) := do
  match ← document.tree.update? id changes with
  | none => return (document, clock)
  | some tree =>
    let code ← tree.serialize 2
    let (now, clock) := clock.read
    return ({ document with code, tree, updatedAt := some now }, clock)

/-- Give a document a new source. -/
def recode (document : Document) (code : String) (resources : Resources) :
    Except Source.Failure (Document × Resources) := do
  let (tree, supply) ← Source.parse code resources.supply
  let (now, clock) := resources.clock.read
  return ({ document with code, tree, updatedAt := some now }, ⟨supply, clock⟩)

/-- A field that is left out when it has no value. -/
def optionalField (key : String) (value : Option String) : List (String × Plain) :=
  (value.map fun text => (key, Plain.string text)).toList

/-- A document as a record. -/
def toPlain (document : Document) : Plain :=
  .record
    ([("name", .string document.name), ("code", .string document.code),
        ("serializedComponent", Stored.ofNode document.tree)] ++
      optionalField "id" document.id ++ optionalField "createdAt" document.createdAt ++
      optionalField "updatedAt" document.updatedAt)

/-- An optional text of a stored document. -/
def storedText? (key : String) (fields : Entries Plain) : Option String :=
  match fields.find? key with
  | none | some .nothing => none
  | some value => some value.text

/-- The document that a record stores. -/
def ofPlain (data : Plain) (supply : Supply) : Except Fault (Document × Supply) :=
  match data with
  | .record fields => do
    let name ← Stored.requiredField "name" fields
    let code ← Stored.requiredField "code" fields
    let stored ← Stored.requiredField "serializedComponent" fields
    let (tree, supply) ← Stored.toNode supply stored
    let document : Document :=
      { name := name.text, code := code.text, tree
        id := storedText? "id" fields
        createdAt := storedText? "createdAt" fields
        updatedAt := storedText? "updatedAt" fields }
    return (document, supply)
  | _ => .error .notARecord

end Document

end EditableMarkup
