import EditableMarkup.Record.Document

/-!
# Histories of documents

A document is made of a source, and then edited and given new sources.  The
clock may show any times; how often it was read is counted, and a reading stays
taken when a failure follows.  A step that fails leaves the document as it was.
-/

namespace EditableMarkup

/-- The times that a clock shows, one reading after the other, and how many readings were taken. -/
structure Timeline where
  readings : Nat → Int
  taken : Nat

/-- What reads a clock and may fail. -/
abbrev Timed (ε α : Type) := ExceptT ε (StateM Timeline) α

namespace Timeline

/-- The timeline behind one more reading. -/
def next (timeline : Timeline) : Timeline :=
  { timeline with taken := timeline.taken + 1 }

/-- The text of the next reading. -/
def text (timeline : Timeline) : String :=
  timeText (timeline.readings timeline.taken)

end Timeline

namespace Timed

/-- Read the clock. -/
def now {ε : Type} : Timed ε String := do
  let timeline ← getThe Timeline
  set timeline.next
  return timeline.text

/-- What may fail without a look at the clock. -/
def untimed {ε α : Type} (outcome : Except ε α) : Timed ε α :=
  ExceptT.mk (pure outcome)

end Timed

namespace Document

/-- Make a document of a source, by any clock. -/
def making (code name : String) (supply : Supply) : Timed Source.Failure (Document × Supply) := do
  let (tree, supply) ← Timed.untimed (Source.parse code supply)
  let now ← Timed.now
  return ({ name, code, tree, createdAt := some now, updatedAt := some now }, supply)

/-- Change fields of the first node with an identifier, by any clock. -/
def editing (document : Document) (id : String) (changes : Changes) : Timed Fault Document := do
  match ← Timed.untimed (document.tree.update? id changes) with
  | none => return document
  | some tree =>
    let code ← Timed.untimed (tree.serialize 2)
    let now ← Timed.now
    return { document with code, tree, updatedAt := some now }

/-- Give a document a new source, by any clock. -/
def recoding (document : Document) (code : String) (supply : Supply) :
    Timed Source.Failure (Document × Supply) := do
  let (tree, supply) ← Timed.untimed (Source.parse code supply)
  let now ← Timed.now
  return ({ document with code, tree, updatedAt := some now }, supply)

end Document

/-- A step in the history of a document. -/
inductive Revision where
  /-- Change fields of a node. -/
  | edit (id : String) (changes : Changes)
  /-- Give a new source. -/
  | recode (code : String)

/-- A document with the source that was last parsed for it, and with what its steps draw on. -/
structure History where
  document : Document
  source : String
  supply : Supply
  timeline : Timeline

namespace History

/-- The history of a document that is made of a source. -/
def ofCode (code name : String) (supply : Supply) : Timed Source.Failure History := do
  let (document, supply) ← Document.making code name supply
  return { document, source := code, supply, timeline := ← getThe Timeline }

/-- The history behind a step. -/
def step (history : History) : Revision → History
  | .edit id changes =>
    match history.document.editing id changes history.timeline with
    | (.ok document, timeline) => { history with document, timeline }
    | (.error _, timeline) => { history with timeline }
  | .recode code =>
    match history.document.recoding code history.supply history.timeline with
    | (.ok (document, supply), timeline) => { document, source := code, supply, timeline }
    | (.error _, timeline) => { history with timeline }

/-- The history behind several steps. -/
def run (history : History) (revisions : List Revision) : History :=
  revisions.foldl step history

end History

end EditableMarkup
