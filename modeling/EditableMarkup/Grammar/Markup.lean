import EditableMarkup.Grammar.Signature

/-!
# Markup

Elements and fragments with their attributes and children.

A comment among children can be skipped or be read as text, so the children of
one element can be read in several ways.  The rule of choice is local to the
place where two readings meet: `Run.better` states it for runs of children that
end at one place, and `Inside.insert` for runs that reach one closing tag.
-/

namespace EditableMarkup.Grammar

/-- A child, with the trail of its closing tag and the arrivals of its own children, if it has
any. -/
structure TaggedChild where
  child : Child Form
  closing : Trail := []
  inside : List Arrival := []

/-- Children read from one place on. `arrivals` tells how the child that was handled first at the
end of the run was come to, and those in front of it, the last one first. -/
structure Run where
  children : List (Child Form)
  used : Nat
  cost : Nat
  arrivals : List Arrival

namespace Run

/-- No children. -/
def empty : Run where
  children := []
  used := 0
  cost := 0
  arrivals := []

/-- Whether a run is better than another one with the same end: it is cheaper; or it is a single
child, which takes in a comment in front of it; or its last child is handled first, so that a
comment between two children is a child of its own. -/
def better (run other : Run) : Bool :=
  if run.cost ≠ other.cost then run.cost < other.cost
  else if (run.children.length = 1) ≠ (other.children.length = 1) then run.children.length = 1
  else Arrival.handledFirst run.arrivals other.arrivals

/-- The better one of two runs with the same end. -/
def merge (run other : Run) : Run :=
  let arrivals :=
    if Arrival.handledFirst run.arrivals other.arrivals then run.arrivals else other.arrivals
  if run.better other then { run with arrivals } else { other with arrivals }

/-- Put a run among runs with ascending ends; it is merged with one that has the same end. -/
def insert (run : Run) : List Run → List Run
  | [] => [run]
  | other :: rest =>
    if run.used < other.used then run :: other :: rest
    else if run.used = other.used then run.merge other :: rest
    else other :: run.insert rest

/-- Go on with one more child, in front of which some numbers of characters may be skipped. -/
def append (run : Run) (gaps : List Nat) (reading : Reading TaggedChild) : Run where
  children := run.children ++ [reading.value.child]
  used := run.used + reading.used
  cost := run.cost + reading.cost
  arrivals :=
    .child reading.used (reading.used - reading.lead) (Trail.of gaps reading.lead)
      reading.value.closing reading.value.inside :: run.arrivals

/-- The runs that extend those of an agenda, nearest end first. -/
def grow (child : Reader TaggedChild) (place : Place) : Nat → List Run → List Run × Nat
  | 0, agenda => (agenda, 0)
  | _ + 1, [] => ([], 0)
  | fuel + 1, run :: agenda =>
    let behind := place.advance run.used
    let next := child behind
    let longer := next.readings.map (run.append behind.gaps)
    let rest := grow child place fuel (longer.foldl (fun runs run => run.insert runs) agenda)
    (run :: rest.1, max (run.used + next.reach) rest.2)

end Run

/-- The children of an element or a fragment, as they are read up to the closing tag, with the trail
of the angle bracket that opens the tag. -/
structure Inside where
  children : List (Child Form)
  closing : Trail
  arrivals : List Arrival

/-- Put children among others with ascending ends; of two with the same end the one whose bracket is
come to first is kept. -/
def Inside.insert (reading : Reading Inside) : List (Reading Inside) → List (Reading Inside)
  | [] => [reading]
  | other :: rest =>
    if reading.used < other.used then reading :: other :: rest
    else if reading.used = other.used then
      if other.value.closing.later reading.value.closing then reading :: rest else other :: rest
    else other :: Inside.insert reading rest

namespace Rule

open Reader

/-! ## Names and attributes -/

/-- A word of markup. -/
def markupWord : Reader Slice :=
  lexeme Lexeme.markupName

/-- The name of an element. -/
def elementName : Reader ElementName :=
  oneOf
    [.simple <$> markupWord,
      do
        let first ← markupWord
        Reader.sign "."
        let rest ← separatedBy (Reader.sign ".") markupWord
        return .path first rest,
      do
        let space ← markupWord
        Reader.sign ":"
        return .spaced space (← markupWord)]

/-- What an attribute is set to. -/
def setting : Reader (Setting Form) :=
  oneOf
    [.quoted <$> lexeme Lexeme.markupString,
      sliced do
        Reader.sign "\x7b"
        let value ← optional Reader.expression
        Reader.sign "\x7d"
        return fun slice =>
          match value with
          | some form => .braces form
          | none => .emptyBraces slice,
      .markup <$> markup]

/-- The forms inside a setting. -/
def settingInside : Setting Form → List Form
  | .braces form | .markup form => [form]
  | _ => []

/-- An attribute. -/
def elementAttribute : Reader (Attribute Form) :=
  oneOf
    [do
        let word ← markupWord
        oneOf
          [nothing (.bare word),
            do
              Reader.sign "="
              return .named word (← setting)],
      do
        let _ ← markupWord
        Reader.sign ":"
        let _ ← markupWord
        oneOf
          [nothing (.spaced []),
            do
              Reader.sign "="
              return .spaced (settingInside (← setting))],
      do
        Reader.sign "\x7b"
        Reader.sign "..."
        let form ← Reader.assignment
        Reader.sign "\x7d"
        return .spread form]

/-! ## Children -/

/-- A child of an element or a fragment. -/
def child : Reader TaggedChild :=
  oneOf
    [do
        let text ← lexeme Lexeme.markupText
        return { child := .text text },
      do
        let element ← tagged
        return {
          child := .markup element.form, closing := element.closing, inside := element.inside },
      do
        Reader.sign "\x7b"
        let value ← optional Reader.expression
        Reader.sign "\x7d"
        return match value with
          | some form => { child := .braces form }
          | none => { child := .emptyBraces },
      do
        Reader.sign "\x7b"
        Reader.sign "..."
        let form ← Reader.expression
        Reader.sign "\x7d"
        return { child := .spread form }]

/-- The children up to a closing tag, with the angle bracket that opens the tag. -/
def inside : Reader Inside := fun place =>
  let (runs, reach) := Run.grow child place (place.length + 1) [Run.empty]
  runs.foldl
    (fun outcome run =>
      let behind := place.advance run.used
      let bracket := Reader.sign "<" behind
      let opened := bracket.readings.map fun reading =>
        { value :=
            { children := run.children, closing := Trail.of behind.gaps reading.lead
              arrivals := run.arrivals }
          lead := run.used + reading.lead
          used := run.used + reading.used
          cost := run.cost + reading.cost }
      { readings := opened.foldl (fun found reading => Inside.insert reading found) outcome.readings
        reach := max outcome.reach (run.used + bracket.reach) })
    { readings := [], reach }

/-! ## Elements and fragments -/

/-- An element, closed by a tag of its own or within its opening tag. -/
def elementMarkup : Reader Tagged :=
  sliced do
    Reader.sign "<"
    let name ← elementName
    let attributes ← many elementAttribute
    oneOf
      [do
          Reader.sign ">"
          let inside ← inside
          Reader.sign "/"
          let closing ← elementName
          Reader.sign ">"
          return fun slice =>
            { form := .element slice name attributes inside.children closing
              closing := inside.closing, inside := inside.arrivals },
        do
          Reader.sign "/"
          Reader.sign ">"
          return fun slice =>
            { form := .selfClosed slice name attributes, closing := [], inside := [] }]

/-- A fragment. -/
def fragment : Reader Tagged :=
  sliced do
    Reader.sign "<"
    Reader.sign ">"
    let inside ← inside
    Reader.sign "/"
    Reader.sign ">"
    return fun slice =>
      { form := .fragment slice inside.children
        closing := inside.closing, inside := inside.arrivals }

/-- An element or a fragment. -/
def markup : Reader Tagged :=
  oneOf [elementMarkup, fragment]

end Rule

end EditableMarkup.Grammar
