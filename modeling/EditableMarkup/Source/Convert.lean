import EditableMarkup.Grammar.Form
import EditableMarkup.Literal.Numeric
import EditableMarkup.Literal.Quoted
import EditableMarkup.Source.Diagnostic
import EditableMarkup.Tree.Basic
import EditableMarkup.Tree.Supply

/-!
# From forms to trees

An element becomes a node.  Literals become values and texts; every other
expression is kept word for word.  Spread attributes and attributes in a name
space have no literal key and are left out.
-/

namespace EditableMarkup.Source

open EditableMarkup.Grammar

/-- Why a source is not turned into a tree. -/
inductive Failure where
  | diagnostic (diagnostic : Diagnostic)
  | literal (fault : LiteralFault)
  deriving DecidableEq

/-- Give up on a literal that has no value. -/
def orFail {α : Type} : Except LiteralFault α → Except Failure α :=
  Except.mapError Failure.literal

/-! ## Values -/

/-- The number that a literal stands for, with its sign; nothing where it has no plain value. -/
def numberOf? (negative : Bool) (literal : Slice) : Except Failure (Option Number) := do
  let number ← orFail (Literal.numberOf? literal.text)
  return number.map fun value => if negative then value.negate else value

mutual

/-- The value of an expression: a literal has a value of its own, an object of literals is a
mapping, and everything else is an expression word for word. -/
def valueOf : Form → Except Failure Value
  | .string slice => return .string (← orFail (Literal.unquoted slice.text))
  | .number slice => do
    match ← numberOf? false slice with
    | some number => return .number number
    | none => return .expression slice.text
  | .boolean slice => return .boolean (slice.text == "true")
  | .signed slice sign (.number literal) => do
    match ← numberOf? (sign.text == "-") literal with
    | some number => return .number number
    | none => return .expression slice.text
  | .group slice inner => do
    match ← valueOf inner with
    | .expression _ => return .expression slice.text
    | value => return value
  | .object slice members => do
    match ← entriesOf [] members with
    | some entries => return .mapping entries
    | none => return .expression slice.text
  | form => return .expression form.text

/-- The entries of an object behind some first entries, if each further member is a property with a
name or a string as its key. -/
def entriesOf (entries : Entries Value) :
    List (Member Form) → Except Failure (Option (Entries Value))
  | [] => return some entries
  | .property (.word key) value :: rest => do
    let meaning ← valueOf value
    entriesOf (entries.set key.text meaning) rest
  | .property (.quoted key) value :: rest => do
    let name ← orFail (Literal.unquoted key.text)
    let meaning ← valueOf value
    entriesOf (entries.set name meaning) rest
  | _ :: _ => return none

end

/-! ## Attributes -/

/-- A text without its first and its last character. -/
def withoutQuotes (text : List Char) : String :=
  String.ofList (text.drop 1).dropLast

/-- The value that an attribute is set to. -/
def settingOf : Setting Form → Except Failure Value
  | .quoted slice => return .string (withoutQuotes slice.chars)
  | .braces form => valueOf form
  | .emptyBraces slice => return .expression slice.text
  | .markup form => return .expression form.text

/-- The attributes of an element behind some first ones. -/
def attributesOf (entries : Entries Value) :
    List (Attribute Form) → Except Failure (Entries Value)
  | [] => return entries
  | .bare name :: rest => attributesOf (entries.set name.text (.boolean true)) rest
  | .named name setting :: rest => do
    let value ← settingOf setting
    attributesOf (entries.set name.text value) rest
  | _ :: rest => attributesOf entries rest

/-! ## Nodes -/

/-- The text or expression that a child in braces becomes. -/
def contentOf (form : Form) : Except Failure (Content Node) := do
  match ← valueOf form.unwrapped with
  | .string text => return .text text
  | .number number =>
    if number.isWritable then return .text number.literal
    else .error (.literal .tooManyDigits)
  | .boolean value => return .text (if value then "true" else "false")
  | _ => return .expression form.unwrapped.text

/-- The tag of an element: names of several parts have no single word to keep. -/
def tagOf : ElementName → Tag
  | .simple word => .named word.text
  | _ => .named "div"

/-- Make a node with a fresh identifier; blank texts are dropped. -/
def freshNode (tag : Tag) (attributes : Entries Value) (children : List (Content Node))
    (supply : Supply) : Node × Supply :=
  let (id, supply) := supply.mint
  ({ tag, attributes, children := Node.withoutBlankTexts children, id }, supply)

mutual

/-- The node of an element or a fragment, in which markup may be nested up to some levels. -/
def nodeOf (levels : Nat) (supply : Supply) : Form → Except Failure (Node × Supply)
  | .element _ name attributes children _ => do
    if levels = 0 then .error (.diagnostic .tooDeep)
    let entries ← attributesOf [] attributes
    let (contents, supply) ← contentsOf (levels - 1) supply children
    return freshNode (tagOf name) entries contents supply
  | .selfClosed _ name attributes => do
    if levels = 0 then .error (.diagnostic .tooDeep)
    let entries ← attributesOf [] attributes
    return freshNode (tagOf name) entries [] supply
  | .fragment _ children => do
    if levels = 0 then .error (.diagnostic .tooDeep)
    let (contents, supply) ← contentsOf (levels - 1) supply children
    return freshNode .fragment [] contents supply
  | _ => .error (.diagnostic .noMarkup)

/-- The contents of children: texts are trimmed and empty braces are left out. -/
def contentsOf (levels : Nat) (supply : Supply) :
    List (Child Form) → Except Failure (List (Content Node) × Supply)
  | [] => return ([], supply)
  | .text slice :: rest => do
    let (contents, supply) ← contentsOf levels supply rest
    return (.text (Text.trimmed slice.text) :: contents, supply)
  | .markup form :: rest => do
    let (node, supply) ← nodeOf levels supply form
    let (contents, supply) ← contentsOf levels supply rest
    return (.node node :: contents, supply)
  | .braces form :: rest => do
    let content ← contentOf form
    let (contents, supply) ← contentsOf levels supply rest
    return (content :: contents, supply)
  | .emptyBraces :: rest => contentsOf levels supply rest
  | .spread form :: rest => do
    let (contents, supply) ← contentsOf levels supply rest
    return (.expression ("..." ++ form.text) :: contents, supply)

end

end EditableMarkup.Source
