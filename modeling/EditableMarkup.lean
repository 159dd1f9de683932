import EditableMarkup.Main
import EditableMarkup.Panel
import EditableMarkup.Tree.Reconcile
import EditableMarkup.Tree.Same
import EditableMarkup.Proofs.Reading.Order
import EditableMarkup.Proofs.Reading.Reads
import EditableMarkup.Proofs.Reading.Iterate
import EditableMarkup.Proofs.Reading.Place
import EditableMarkup.Proofs.Reading.Lexemes
import EditableMarkup.Proofs.Literal.Quoted
import EditableMarkup.Proofs.Number.Shortest
import EditableMarkup.Proofs.Text.Blank
import EditableMarkup.Proofs.Number.Digits
import EditableMarkup.Proofs.Number.Spelled
import EditableMarkup.Proofs.Number.Printed
import EditableMarkup.Proofs.Reading.Starts
import EditableMarkup.Proofs.Reading.Rules
import EditableMarkup.Proofs.Reading.Columns
import EditableMarkup.Proofs.Reading.Chain
import EditableMarkup.Proofs.Reading.Primary
import EditableMarkup.Proofs.Source.Meaning
import EditableMarkup.Proofs.Source.Values
import EditableMarkup.Proofs.Source.Calls
import EditableMarkup.Proofs.Reading.Members
import EditableMarkup.Proofs.Source.Mappings
import EditableMarkup.Proofs.Tree.Alike
import EditableMarkup.Proofs.Reading.Tags
import EditableMarkup.Proofs.Source.Attributes
import EditableMarkup.Proofs.Reading.Runs
import EditableMarkup.Proofs.Source.Roots
import EditableMarkup.Proofs.Reading.Keeps
import EditableMarkup.Proofs.Reading.Gaps
import EditableMarkup.Proofs.Source.Lines
import EditableMarkup.Record.Session
import EditableMarkup.Proofs.Tree.Update
import EditableMarkup.Proofs.Tree.Reconcile
import EditableMarkup.Proofs.Record.Stored
import EditableMarkup.Proofs.Source.Minting
import EditableMarkup.Proofs.Record.Session
import EditableMarkup.Proofs.Source.Reparsed
import EditableMarkup.Proofs.Number.Exact
import EditableMarkup.Proofs.Record.Clock
import EditableMarkup.Proofs.Record.History
import EditableMarkup.Proofs.Record.Operation
import EditableMarkup.Proofs.Tree.Digest
import EditableMarkup.Proofs.Source.Answers
import EditableMarkup.Proofs.Source.Components
import EditableMarkup.Proofs.Source.Texts
import EditableMarkup.Proofs.Source.Positions
import EditableMarkup.Proofs.CommandLine.Rerun
import EditableMarkup.Proofs.Panel.Editing
import EditableMarkup.Proofs.Source.Found
import EditableMarkup.Proofs.Source.Mismatched
import EditableMarkup.Proofs.Tree.Independent
import EditableMarkup.Proofs.Panel.Repeated
import EditableMarkup.Proofs.Panel.Accepted
import EditableMarkup.Proofs.Record.Loaded
import EditableMarkup.Proofs.Tree.Preorder
import EditableMarkup.Proofs.Literal.Values
import EditableMarkup.Proofs.Panel.Classes
