import EditableMarkup.Grammar.Rows
import EditableMarkup.Source.Convert
import EditableMarkup.Source.Search

/-!
# Parsing a source

A source is trimmed.  If a word in it hints at a component, it is read as a
module and searched for markup.  If there is no such word, or the module
cannot be read, a source that starts with an angle bracket is read as one
piece of markup, and then once more inside a fragment, since it may have
several roots.  The first failure is the one that is reported.
-/

namespace EditableMarkup.Source

open EditableMarkup.Grammar

/-- The words that hint at a component. -/
def hintWords : List String :=
  ["function", "const", "let", "var", "class", "export", "import"]

/-- Whether a hint starts at the front of a text: an arrow, or one of the words between word
boundaries. -/
def startsWithHint (behindWord : Bool) (text : List Char) : Bool :=
  (!behindWord && (Lexeme.keywordOf hintWords text).isSome) || (Lexeme.sign "=>" text).isSome

/-- Whether a text holds a hint; the first argument tells whether a word character stands before it.
-/
def hasHint (behindWord : Bool) : List Char → Bool
  | [] => false
  | c :: rest => startsWithHint behindWord (c :: rest) || hasHint (Text.isWord c) rest

/-- The diagnostic for the place at which reading stopped. -/
def stopDiagnostic (source : List Char) : Stop → Diagnostic
  | .atEnd => .unexpectedEnd (Position.after source)
  | .at used =>
    match source.drop used with
    | c :: _ => .unexpectedCharacter (Position.after (source.take used)) c
    | [] => .unexpectedEnd (Position.after source)

/-- The forms of a source that obeys the grammar and the rules on markup. -/
def formsOf (reader : Reader (List Form)) (source : List Char) : Except Diagnostic (List Form) :=
  match readWhole reader (Place.of source) with
  | .error stop => .error (stopDiagnostic source stop)
  | .ok forms =>
    match (occurrencesIn forms).findSome? (violation? source) with
    | some diagnostic => .error diagnostic
    | none => .ok forms

/-- The tree of the markup that forms are about, with a limit on its levels. -/
def treeOf (levels : Nat) (forms : List Form) (supply : Supply) : Except Failure (Node × Supply) :=
  match findMarkup forms with
  | some form => nodeOf levels supply form
  | none => .error (.diagnostic .noMarkup)

/-- The text inside a fragment. -/
def wrapped (source : List Char) : List Char :=
  "<>".toList ++ source ++ "</>".toList

/-- Read markup as it stands, or else inside a fragment; an earlier diagnostic has precedence. -/
def parseMarkup (levels : Nat) (source : List Char) (earlier : Option Diagnostic)
    (supply : Supply) : Except Failure (Node × Supply) :=
  if source.head? = some '<' then
    match formsOf Rule.markupSource source with
    | .ok forms => treeOf levels forms supply
    | .error diagnostic =>
      match formsOf Rule.markupSource (wrapped source) with
      | .ok forms => treeOf levels forms supply
      | .error _ => .error (.diagnostic (earlier.getD diagnostic))
  else .error (.diagnostic (earlier.getD .noSource))

/-- Parse a trimmed source. -/
def parseTrimmed (levels : Nat) (source : List Char) (supply : Supply) :
    Except Failure (Node × Supply) :=
  if hasHint false source then
    match formsOf Rule.module source with
    | .ok forms => treeOf levels forms supply
    | .error diagnostic => parseMarkup levels source (some diagnostic) supply
  else parseMarkup levels source none supply

/-- Parse a source whose markup may be nested up to some levels: the tree of its markup, with fresh
identifiers. -/
def parseWithin (levels : Nat) (text : String) (supply : Supply) :
    Except Failure (Node × Supply) :=
  parseTrimmed levels (Text.trim text.toList) supply

/-- Markup that is nested beyond these levels is refused. -/
def depthLimit : Nat := 140

/-- Parse a source under the limit on its levels. -/
def parse (text : String) (supply : Supply) : Except Failure (Node × Supply) :=
  parseWithin depthLimit text supply

end EditableMarkup.Source
