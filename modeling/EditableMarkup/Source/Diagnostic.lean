import EditableMarkup.Text.Shown

/-!
# Diagnostics

A source that holds no tree is answered by a diagnostic: a position in the
source and what is wrong there.
-/

namespace EditableMarkup

/-- A position in a text: lines count line feeds from one, columns count characters from one. -/
structure Position where
  line : Nat
  column : Nat
  deriving Repr, DecidableEq

namespace Position

/-- The first position of a text. -/
def start : Position where
  line := 1
  column := 1

/-- The position behind a character. -/
def next (position : Position) (c : Char) : Position :=
  if c = '\n' then ⟨position.line + 1, 1⟩ else ⟨position.line, position.column + 1⟩

/-- The position behind the first characters of a text. -/
def after (text : List Char) : Position :=
  text.foldl next start

/-- A position in a message. -/
def text (position : Position) : String :=
  toString position.line ++ ":" ++ toString position.column

end Position

/-- Why a source has no tree. -/
inductive Diagnostic where
  /-- The source ends where more is needed. -/
  | unexpectedEnd (position : Position)
  /-- Nothing can go on with this character. -/
  | unexpectedCharacter (position : Position) (c : Char)
  /-- The closing tag has another name than the opening tag. -/
  | mismatchedClosing (position : Position) (opening : String)
  /-- An attribute is set to empty braces. -/
  | emptySetting (position : Position)
  /-- The source is a module without markup. -/
  | noMarkup
  /-- The source is neither a module nor markup. -/
  | noSource
  /-- Markup is nested beyond the limit. -/
  | tooDeep
  deriving Repr, DecidableEq

namespace Diagnostic

/-- The position that a diagnostic is about. -/
def position : Diagnostic → Position
  | unexpectedEnd position | unexpectedCharacter position _ | mismatchedClosing position _
  | emptySetting position => position
  | noMarkup | noSource | tooDeep => Position.start

/-- What is wrong there. -/
def finding : Diagnostic → String
  | unexpectedEnd _ => "Unexpected end of input"
  | unexpectedCharacter _ c => "Unexpected character " ++ Text.shown [c]
  | mismatchedClosing _ opening => "Expected corresponding closing tag for <" ++ opening ++ ">"
  | emptySetting _ => "Attribute values must be non-empty expressions"
  | noMarkup => "No markup element found"
  | noSource => "Expected markup or a component definition"
  | tooDeep => "Markup nested too deeply"

/-- The message of a diagnostic. -/
def message (diagnostic : Diagnostic) : String :=
  diagnostic.position.text ++ ": " ++ diagnostic.finding

end Diagnostic

end EditableMarkup
