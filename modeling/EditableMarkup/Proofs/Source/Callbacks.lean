import EditableMarkup.Proofs.Reading.Components
import EditableMarkup.Proofs.Source.Calls

/-!
# Reading callbacks

An arrow function stands alone, if its parameters are names and its body is read
as such: as an expression, or as a block.  Up to the arrow its head can be read as
an operand as well: a name as a call, and names in parentheses as a group.  But an
operand stops there, in front of a sign that closes nothing.
-/

namespace EditableMarkup.Source

open EditableMarkup.Grammar EditableMarkup.Grammar.Reader EditableMarkup.Grammar.Place
open EditableMarkup.Grammar.Rule

variable {free : Prop}

/-! ## Heads -/

/-- A name behind some spaces. -/
structure IsParameter (item : List Char × List Char) : Prop where
  blank : ∀ c ∈ item.1, Lexeme.isSpace c = true
  name : Lexeme.name item.2 = some item.2.length

/-- A parameter as it is written. -/
def parameterChars (item : List Char × List Char) : List Char :=
  item.1 ++ item.2

/-- The parameters of a callback: one name, or names in parentheses, each behind some spaces. -/
inductive Head where
  | single (name : List Char)
  | list (names : List (List Char × List Char))

namespace Head

/-- The parameters as they are written. -/
def chars : Head → List Char
  | single name => name
  | list names => '(' :: (charsOf parameterChars names ++ [')'])

/-- The parameters are names; a single one is not opened by the word `async`. -/
def IsProper : Head → Prop
  | single name => Lexeme.name name = some name.length ∧ Lexeme.keyword "async" name = none
  | list names => ∀ item ∈ names, IsParameter item

theorem IsProper.ne_nil {head : Head} (h : head.IsProper) : head.chars ≠ [] := by
  cases head with
  | single name => exact ne_nil_of_name h.1
  | list names => exact List.cons_ne_nil _ _

end Head

section Arrow

variable {blank gap : List Char} (behind : List Char)

end Arrow

section Head

variable {blank gap behind : List Char}

theorem Head.IsProper.opening {head : Head} (hhead : head.IsProper) (behind : List Char) :
    Opening (head.chars ++ behind) := by
  cases head with
  | single name =>
      obtain ⟨c, more, rfl, hc⟩ := startsName_of_name hhead.1
      exact opening_of_startsName hc _
  | list names => exact @opening_of_head '(' _ (by decide)

end Head

end EditableMarkup.Source
