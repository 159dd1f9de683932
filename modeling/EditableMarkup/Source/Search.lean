import EditableMarkup.Grammar.Form
import EditableMarkup.Source.Diagnostic

/-!
# Searching a source

The forms of a source and the attributes in them occur in a fixed order: a
form before what it holds, and parts from left to right.  In this order the
first violation of the two rules on markup is reported, and the first function
that returns markup, or the first markup, is what the source is about.
-/

namespace EditableMarkup.Source

open EditableMarkup.Grammar

/-- What occurs in a source: a form, or an attribute that is set to empty braces. -/
inductive Occurrence where
  | form (form : Form)
  | emptySetting (slice : Slice)

mutual

/-- All that occurs in a form, the form itself first. -/
def occurrences : Form → List Occurrence
  | form@(.plain _ inside) => .form form :: occurrencesIn inside
  | form@(.string _) => [.form form]
  | form@(.number _) => [.form form]
  | form@(.boolean _) => [.form form]
  | form@(.signed _ _ operand) => .form form :: occurrences operand
  | form@(.group _ inner) => .form form :: occurrences inner
  | form@(.object _ members) => .form form :: occurrencesInMembers members
  | form@(.function _ head body) => .form form :: (occurrencesIn head ++ occurrences body)
  | form@(.block _ statements) => .form form :: occurrencesIn statements
  | form@(.returned _ value) => .form form :: occurrences value
  | form@(.returnedNothing _) => [.form form]
  | form@(.element _ _ attributes children _) =>
    .form form :: (occurrencesInAttributes attributes ++ occurrencesInChildren children)
  | form@(.selfClosed _ _ attributes) => .form form :: occurrencesInAttributes attributes
  | form@(.fragment _ children) => .form form :: occurrencesInChildren children

/-- All that occurs in several forms. -/
def occurrencesIn : List Form → List Occurrence
  | [] => []
  | form :: rest => occurrences form ++ occurrencesIn rest

/-- All that occurs in the members of an object. -/
def occurrencesInMembers : List (Member Form) → List Occurrence
  | [] => []
  | .property (.computed key) value :: rest =>
    occurrences key ++ occurrences value ++ occurrencesInMembers rest
  | .property _ value :: rest => occurrences value ++ occurrencesInMembers rest
  | .other inside :: rest => occurrencesIn inside ++ occurrencesInMembers rest

/-- All that occurs in the attributes of an element. -/
def occurrencesInAttributes : List (Attribute Form) → List Occurrence
  | [] => []
  | .bare _ :: rest => occurrencesInAttributes rest
  | .named _ (.quoted _) :: rest => occurrencesInAttributes rest
  | .named _ (.braces value) :: rest => occurrences value ++ occurrencesInAttributes rest
  | .named _ (.emptyBraces slice) :: rest => .emptySetting slice :: occurrencesInAttributes rest
  | .named _ (.markup value) :: rest => occurrences value ++ occurrencesInAttributes rest
  | .spaced inside :: rest => occurrencesIn inside ++ occurrencesInAttributes rest
  | .spread value :: rest => occurrences value ++ occurrencesInAttributes rest

/-- All that occurs in the children of an element or a fragment. -/
def occurrencesInChildren : List (Child Form) → List Occurrence
  | [] => []
  | .text _ :: rest => occurrencesInChildren rest
  | .markup value :: rest => occurrences value ++ occurrencesInChildren rest
  | .braces value :: rest => occurrences value ++ occurrencesInChildren rest
  | .emptyBraces :: rest => occurrencesInChildren rest
  | .spread value :: rest => occurrences value ++ occurrencesInChildren rest

end

/-! ## The rules on markup -/

/-- The position where a slice of a source starts. -/
def positionOf (source : List Char) (slice : Slice) : Position :=
  Position.after (source.take (source.length - slice.source.length))

/-- What is wrong with an occurrence: a closing tag with another name than its opening tag, or an
attribute that is set to empty braces. -/
def violation? (source : List Char) : Occurrence → Option Diagnostic
  | .form (.element _ name _ _ closing) =>
    if name.text = closing.text then none
    else some (.mismatchedClosing (positionOf source closing.first) name.text)
  | .emptySetting slice => some (.emptySetting (positionOf source slice))
  | _ => none

/-! ## The markup that a source is about -/

/-- The value of the first return among statements, if it has one. -/
def firstReturn : List Form → Option Form
  | [] => none
  | .returned _ value :: _ => some value
  | .returnedNothing _ :: _ => none
  | _ :: rest => firstReturn rest

/-- A form that is markup without the parentheses around it. -/
def markupOf (form : Form) : Option Form :=
  if form.unwrapped.isMarkup then some form.unwrapped else none

/-- The markup that a function with this body returns: the body itself, or the value of the first
return of its block. -/
def returnedMarkup (body : Form) : Option Form :=
  match body.unwrapped with
  | .block _ statements => (firstReturn statements).bind markupOf
  | _ => markupOf body

/-- The markup that an occurrence stands for. -/
def Occurrence.markup? : Occurrence → Option Form
  | .form (.function _ _ body) => returnedMarkup body
  | .form other => if other.isMarkup then some other else none
  | .emptySetting _ => none

/-- The markup that forms are about. -/
def findMarkup (forms : List Form) : Option Form :=
  (occurrencesIn forms).findSome? Occurrence.markup?

end EditableMarkup.Source
