import EditableMarkup.Grammar.Arrival
import EditableMarkup.Grammar.Form
import EditableMarkup.Grammar.Lexeme

/-!
# Readings

The grammar is ambiguous: from one place of a text a construct can be read in
several ways, which end at different places.  A reader therefore gives all
places at which its construct can end, with the best reading for each, and
the furthest place that any attempt came to.  Of two readings with the same
end, the cheaper one is better, and of two equally cheap ones the one that was
found first.

A text is given as its rows, one for each place that has a character.  The row
of a place holds what can be read from there, and is filled on demand.
-/

namespace EditableMarkup.Grammar

/-- One way to read a construct: `lead` characters were skipped in front of its first lexeme, `used`
characters lie between the place it was read from and its end, and `cost` counts its bare expression
statements. -/
structure Reading (α : Type) where
  value : α
  lead : Nat
  used : Nat
  cost : Nat

/-- All readings from a place, by ascending end, and how far any attempt came. -/
structure Outcome (α : Type) where
  readings : List (Reading α)
  reach : Nat

namespace Reading

variable {α β : Type}

/-- Put a reading among readings with ascending ends; it takes the place of a dearer one with the
same end. -/
def insert (reading : Reading α) : List (Reading α) → List (Reading α)
  | [] => [reading]
  | other :: rest =>
    if reading.used < other.used then reading :: other :: rest
    else if reading.used = other.used then
      if reading.cost < other.cost then reading :: rest else other :: rest
    else other :: reading.insert rest

/-- Put several readings among others. -/
def insertAll (readings others : List (Reading α)) : List (Reading α) :=
  readings.foldl (fun found reading => reading.insert found) others

/-- The reading that goes on with a second one from the end of the first. -/
def followedBy (first : Reading α) (second : Reading β) : Reading β where
  value := second.value
  lead := if first.used = 0 then second.lead else first.lead
  used := first.used + second.used
  cost := first.cost + second.cost

end Reading

namespace Outcome

variable {α β : Type}

/-- Nothing can be read. -/
def none : Outcome α where
  readings := []
  reach := 0

/-- The readings of both; the first has precedence. -/
def merge (first second : Outcome α) : Outcome α where
  readings := Reading.insertAll second.readings first.readings
  reach := max first.reach second.reach

/-- What is read behind a first reading, seen from the place where that one began. -/
def behind (first : Reading α) (second : Outcome β) : Outcome β where
  readings := second.readings.map first.followedBy
  reach := first.used + second.reach

end Outcome

/-- An element or a fragment, with the trail of its closing tag and the arrivals of its children,
the last of them first. -/
structure Tagged where
  form : Form
  closing : Trail
  inside : List Arrival

/-- What can be read from one place of a text. The forms inside a pattern or a type are all that is
kept of it. -/
structure Row where
  text : List Char
  gaps : List Nat
  pattern : Thunk (Outcome (List Form)) := Thunk.pure Outcome.none
  type : Thunk (Outcome (List Form)) := Thunk.pure Outcome.none
  object : Thunk (Outcome Form) := Thunk.pure Outcome.none
  block : Thunk (Outcome Form) := Thunk.pure Outcome.none
  markup : Thunk (Outcome Tagged) := Thunk.pure Outcome.none
  call : Thunk (Outcome Form) := Thunk.pure Outcome.none
  unary : Thunk (Outcome Form) := Thunk.pure Outcome.none
  operand : Thunk (Outcome Form) := Thunk.pure Outcome.none
  assignment : Thunk (Outcome Form) := Thunk.pure Outcome.none
  expression : Thunk (Outcome Form) := Thunk.pure Outcome.none
  statement : Thunk (Outcome Form) := Thunk.pure Outcome.none

/-- A place of a text: the rows from there on. -/
abbrev Place := List Row

namespace Place

/-- The place some characters further on. -/
def advance (place : Place) (count : Nat) : Place :=
  List.drop count place

/-- The characters from a place on. -/
def text : Place → List Char
  | [] => []
  | row :: _ => row.text

/-- The numbers of characters that may be skipped at a place, in ascending order. -/
def gaps : Place → List Nat
  | [] => [0]
  | row :: _ => row.gaps

end Place

/-- A reader gives all readings of its construct from a place. -/
def Reader (α : Type) := Place → Outcome α

namespace Reader

variable {α β : Type}

/-! ## Combining readers -/

/-- Read nothing. -/
def nothing (value : α) : Reader α := fun _ =>
  { readings := [{ value, lead := 0, used := 0, cost := 0 }], reach := 0 }

/-- Read a second construct behind the first. -/
def andThen (first : Reader α) (second : α → Reader β) : Reader β := fun place =>
  let found := first place
  found.readings.foldl
    (fun outcome reading =>
      outcome.merge (Outcome.behind reading (second reading.value (place.advance reading.used))))
    { readings := [], reach := found.reach }

instance : Monad Reader where
  pure := nothing
  bind := andThen

/-- Read one of several constructs; the earlier have precedence. -/
def oneOf (readers : List (Reader α)) : Reader α := fun place =>
  readers.foldl (fun outcome reader => outcome.merge (reader place)) Outcome.none

/-- Read a construct or nothing. -/
def optional (reader : Reader α) : Reader (Option α) :=
  oneOf [some <$> reader, nothing none]

/-- Read a construct, and more behind it where there is more; of two ways to one end the construct
alone has precedence. -/
def maybeMore (reader : Reader α) (more : α → Reader α) : Reader α := fun place =>
  let found := reader place
  oneOf [fun _ => found, andThen (fun _ => found) more] place

/-- Go on from the ends that were found, nearest first; every step leads further. -/
def grow (step : α → Reader α) (place : Place) : Nat → List (Reading α) → Outcome α
  | 0, agenda => { readings := agenda, reach := 0 }
  | _ + 1, [] => Outcome.none
  | fuel + 1, reading :: agenda =>
    let next := Outcome.behind reading (step reading.value (place.advance reading.used))
    let rest := grow step place fuel (Reading.insertAll next.readings agenda)
    { readings := reading :: rest.readings, reach := max next.reach rest.reach }

/-- Read a construct and then any number of steps that each go on from it. -/
def iterate (first : Reader α) (step : α → Reader α) : Reader α := fun place =>
  let found := first place
  let grown := grow step place (place.length + 1) found.readings
  { grown with reach := max found.reach grown.reach }

/-- Read a construct any number of times. -/
def many (reader : Reader α) : Reader (List α) :=
  iterate (nothing []) fun values => do return values ++ [← reader]

/-- Read a construct once or more, with another one in between. -/
def separatedBy (separator : Reader β) (reader : Reader α) : Reader (List α) :=
  iterate (do return [← reader]) fun values => do
    let _ ← separator
    return values ++ [← reader]

/-- Count a bare expression statement. -/
def counted (reader : Reader α) : Reader α := fun place =>
  let found := reader place
  { found with
    readings := found.readings.map fun reading => { reading with cost := reading.cost + 1 } }

/-! ## Lexemes and slices -/

/-- The lexeme that starts behind some skipped characters. -/
def lexemeBehind (taken : Lexeme) (place : Place) (gap : Nat) : Outcome Slice :=
  let text := (place.advance gap).text
  match taken text with
  | some length =>
    let reading := { value := ⟨text, length⟩, lead := gap, used := gap + length, cost := 0 }
    { readings := [reading], reach := gap + length }
  | none => { readings := [], reach := gap }

/-- Read a lexeme, in front of which spaces and comments may be skipped. -/
def lexeme (taken : Lexeme) : Reader Slice := fun place =>
  place.gaps.foldl (fun outcome gap => outcome.merge (lexemeBehind taken place gap)) Outcome.none

/-- Read a sign. -/
def sign (spelling : String) : Reader Unit := do
  let _ ← lexeme (Lexeme.sign spelling)

/-- Read a keyword. -/
def keyword (spelling : String) : Reader Unit := do
  let _ ← lexeme (Lexeme.keyword spelling)

/-- The slice of a reading, from its first lexeme to its last. -/
def sliceOf (place : Place) (reading : Reading β) : Slice where
  source := (place.advance reading.lead).text
  length := reading.used - reading.lead

/-- Give a construct the slice that it is read from. -/
def sliced (reader : Reader (Slice → α)) : Reader α := fun place =>
  let found := reader place
  { found with
    readings := found.readings.map fun reading =>
      { reading with value := reading.value (sliceOf place reading) } }

/-- Go on from a form: what is read behind it joins it in a larger plain form. -/
def extending (form : Form) (reader : Reader (List Form)) : Reader Form := fun place =>
  let found := reader place
  { found with
    readings := found.readings.map fun reading =>
      { reading with value := .plain (form.slice.extend reading.used) (form :: reading.value) } }

/-! ## Constructs that rows hold -/

/-- Read what the row of the place holds. -/
def held (column : Row → Thunk (Outcome α)) : Reader α
  | [] => Outcome.none
  | row :: _ => (column row).get

/-- A pattern that binds names. -/
def pattern : Reader (List Form) := held Row.pattern

/-- A type. -/
def type : Reader (List Form) := held Row.type

/-- An object literal. -/
def object : Reader Form := held Row.object

/-- Statements in braces. -/
def block : Reader Form := held Row.block

/-- An element or a fragment, with what is known of its arrival. -/
def tagged : Reader Tagged := held Row.markup

/-- An element or a fragment. -/
def markup : Reader Form := Tagged.form <$> tagged

/-- A primary expression with the members, indices and arguments behind it. -/
def call : Reader Form := held Row.call

/-- An expression with the operators in front of it. -/
def unary : Reader Form := held Row.unary

/-- An operand of a binary operator. -/
def operand : Reader Form := held Row.operand

/-- An expression without a comma of its own. -/
def assignment : Reader Form := held Row.assignment

/-- An expression. -/
def expression : Reader Form := held Row.expression

/-- A statement. -/
def statement : Reader Form := held Row.statement

end Reader

end EditableMarkup.Grammar
