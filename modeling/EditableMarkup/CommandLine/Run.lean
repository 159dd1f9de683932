import EditableMarkup.CommandLine.File
import EditableMarkup.CommandLine.Options
import EditableMarkup.Plain.Json
import EditableMarkup.Record.Document

/-!
# The command

The command prints the tree of a source file as markup, or the record of its
document as JSON.  A file without a tree is answered by a diagnostic behind
the name of the file, and by a failing exit code.
-/

namespace EditableMarkup.CommandLine

/-- What ends the command without an exit code of its own. -/
inductive Crash where
  | missingFile
  | notText
  | literal (fault : LiteralFault)
  | unwritable
  deriving DecidableEq

/-- What the command prints, and its exit code. -/
structure Answer where
  exit : Nat
  output : String

/-- A line of output. -/
def line (text : String) : String :=
  text ++ "\n"

/-- The output for a document. -/
def render (options : Options) (document : Document) : Except Crash Answer := do
  let text ← Except.mapError (fun _ => Crash.unwritable)
    (if options.json then document.toPlain.json options.indent
      else document.tree.serialize options.indent)
  return { exit := 0, output := line text }

/-- The answer for the text of the input file. -/
def answerText (options : Options) (text : String) (resources : Document.Resources) :
    Except Crash Answer :=
  match Document.ofCode text (stemOf options.input) resources with
  | .ok (document, _) => render options document
  | .error (.diagnostic diagnostic) =>
    .ok { exit := 1, output := line (options.input ++ ":" ++ diagnostic.message) }
  | .error (.literal fault) => .error (.literal fault)

/-- The answer for given options; the bytes of the input file are missing if there is no such file.
-/
def answer (options : Options) (bytes : Option ByteArray) (resources : Document.Resources) :
    Except Crash Answer :=
  match bytes with
  | none => .error .missingFile
  | some bytes =>
    match textOf? bytes with
    | none => .error .notText
    | some text => answerText options text resources

/-- How the command is used. -/
def usage : String :=
  "usage: editable-markup [-h] [--json] [--indent INDENT] input"

/-- The answer to a command line that is not carried out. -/
def refusalAnswer : Refusal → Answer
  | .help => { exit := 0, output := line usage }
  | .usage => { exit := 2, output := "" }

end EditableMarkup.CommandLine
