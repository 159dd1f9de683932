import EditableMarkup.Grammar.Markup
import EditableMarkup.Grammar.Statement

/-!
# Sources

The rows of a text are filled by the rules of the grammar.  The columns of one
row depend on each other in one direction only: an expression statement on
expressions, those on operands, those on calls; so a row is built column by
column, and every rule sees the columns before its own.  A source is read as a
module, which is any number of statements, or as one piece of markup.
-/

namespace EditableMarkup.Grammar

/-! ## Rows -/

/-- The numbers of characters that may be skipped at a place with a character: none, or a run of
spaces or a comment and all that may be skipped behind it. -/
def gapsOf (text : List Char) (later : Place) : List Nat :=
  match Lexeme.skipped text with
  | none | some 0 => [0]
  | some (length + 1) => 0 :: (later.advance length).gaps.map (· + (length + 1))

namespace Row

/-- A row that holds the constructs that open with a lexeme of their own. -/
def opened (c : Char) (later : Place) : Row :=
  let text := c :: later.text
  let row : Row := { text, gaps := gapsOf text later }
  { row with
    pattern := Thunk.mk fun _ => Rule.pattern (row :: later)
    type := Thunk.mk fun _ => Rule.type (row :: later)
    object := Thunk.mk fun _ => Rule.object (row :: later)
    block := Thunk.mk fun _ => Rule.block (row :: later)
    markup := Thunk.mk fun _ => Rule.markup (row :: later) }

/-- Add the column of calls. -/
def withCall (row : Row) (later : Place) : Row :=
  { row with call := Thunk.mk fun _ => Rule.call (row :: later) }

/-- Add the column of unary expressions. -/
def withUnary (row : Row) (later : Place) : Row :=
  { row with unary := Thunk.mk fun _ => Rule.unary (row :: later) }

/-- Add the column of operands. -/
def withOperand (row : Row) (later : Place) : Row :=
  { row with operand := Thunk.mk fun _ => Rule.operand (row :: later) }

/-- Add the column of assignments. -/
def withAssignment (row : Row) (later : Place) : Row :=
  { row with assignment := Thunk.mk fun _ => Rule.assignment (row :: later) }

/-- Add the column of expressions. -/
def withExpression (row : Row) (later : Place) : Row :=
  { row with expression := Thunk.mk fun _ => Rule.expression (row :: later) }

/-- Add the column of statements. -/
def withStatement (row : Row) (later : Place) : Row :=
  { row with statement := Thunk.mk fun _ => Rule.statement (row :: later) }

/-- The row of a character, above the rows of the text behind it. -/
def of (c : Char) (later : Place) : Row :=
  let row := opened c later
  let row := row.withCall later
  let row := row.withUnary later
  let row := row.withOperand later
  let row := row.withAssignment later
  let row := row.withExpression later
  row.withStatement later

end Row

namespace Place

/-- The rows of a text. -/
def of : List Char → Place
  | [] => []
  | c :: rest =>
    let later := of rest
    Row.of c later :: later

end Place

/-! ## Reading a whole source -/

/-- A module: any number of statements. -/
def Rule.module : Reader (List Form) :=
  Reader.many Reader.statement

/-- One piece of markup, which a semicolon may end. -/
def Rule.markupSource : Reader (List Form) := do
  let form ← Reader.markup
  Rule.optionalSign ";"
  return [form]

/-- Where and how reading a source stopped: at its end, or at a place that nothing can read. -/
inductive Stop where
  | atEnd
  | at (used : Nat)
  deriving Repr, DecidableEq

/-- The end of the longest skipped run that starts within the first characters of a place. -/
def skippedEnd (place : Place) (starts : Nat) : Nat :=
  (List.range starts).foldl
    (fun reached used =>
      match Lexeme.skipped (place.advance used).text with
      | some length => max reached (used + length)
      | none => reached)
    0

/-- The first place from a given one on where no skipped run is under way. -/
def settled (place : Place) : Nat → Nat → Nat
  | 0, used => used
  | fuel + 1, used =>
    if skippedEnd place (used + 1) ≤ used + 1 then used else settled place fuel (used + 1)

/-- Read a whole source: its best reading, or where reading stopped. -/
def readWhole {α : Type} (reader : Reader α) (place : Place) : Except Stop α :=
  let found := reader place
  match found.readings.find? fun reading =>
      (place.advance reading.used).gaps.any fun gap => reading.used + gap = place.length with
  | some reading => .ok reading.value
  | none =>
    let ends := found.readings.flatMap fun reading =>
      (place.advance reading.used).gaps.map (reading.used + ·)
    let reach := ends.foldl max found.reach
    if place.length ≤ reach then .error .atEnd
    else .error (.at (settled place (place.length - reach) reach))

end EditableMarkup.Grammar
