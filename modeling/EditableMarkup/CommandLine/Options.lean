import EditableMarkup.Number.Basic
import EditableMarkup.Text.Blank
import EditableMarkup.Text.Digit

/-!
# Options

The command line names one input file and may ask for the record of the
document and for an indent.  Options can stand anywhere, long ones can be cut
short as long as they stay unambiguous, and behind `--` everything is an
input.  A negative number is no option.
-/

namespace EditableMarkup.CommandLine

/-- What the command line asks for. -/
structure Options where
  input : String
  json : Bool := false
  indent : Int := 2

/-- Why a command line is not carried out. -/
inductive Refusal where
  /-- Only the help was asked for. -/
  | help
  /-- The arguments do not fit the usage. -/
  | usage
  deriving DecidableEq

/-! ## Whole numbers -/

/-- The value of digits between which single underscores may stand; the flag tells whether a digit
comes before. -/
def separatedDigits (behindDigit : Bool) (value : Nat) : List Char → Option Nat
  | [] => if behindDigit then some value else none
  | '_' :: rest => if behindDigit then separatedDigits false value rest else none
  | c :: rest =>
    match Text.digitValue? c with
    | some digit => separatedDigits true (10 * value + digit) rest
    | none => none

/-- The value of unsigned digits; their number is limited. -/
def unsigned? (text : List Char) : Option Nat :=
  if Number.digitLimit < (text.filter (· != '_')).length then none
  else separatedDigits false 0 text

/-- The whole number that a text denotes; blanks around it and a sign in front are allowed. -/
def wholeNumber? (text : String) : Option Int :=
  match Text.trim text.toList with
  | '-' :: digits => (unsigned? digits).map fun value => -(value : Int)
  | '+' :: digits => (unsigned? digits).map Int.ofNat
  | digits => (unsigned? digits).map Int.ofNat

/-! ## Reading arguments -/

/-- The options that can be given. -/
inductive Flag where
  | help
  | json
  | indent
  deriving DecidableEq

/-- The long spellings of the options. -/
def longSpellings : List (String × Flag) :=
  [("--help", .help), ("--json", .json), ("--indent", .indent)]

/-- An argument: an option with the value that is attached to it, an ambiguous or unknown option,
the separator `--`, or an ordinary argument. -/
inductive Argument where
  | flag (flag : Flag) (attached : Option String)
  | ambiguous
  | unknown
  | separator
  | ordinary

/-- Split a text at its first equals sign. -/
def splitEquals (text : List Char) : List Char × Option String :=
  let spelling := text.takeWhile (· != '=')
  match text.drop spelling.length with
  | _ :: value => (spelling, some (String.ofList value))
  | [] => (spelling, none)

/-- A sign and digits, with at most one point in front of the last digits. -/
def isNegativeNumber : List Char → Bool
  | '-' :: rest =>
    let whole := rest.takeWhile Text.isDigit
    match rest.drop whole.length with
    | [] => !whole.isEmpty
    | '.' :: fraction => !fraction.isEmpty && fraction.all Text.isDigit
    | _ => false
  | _ => false

/-- The option that a long spelling or its beginning stands for. -/
def longFlags (spelling : List Char) : List Flag :=
  (longSpellings.filter fun entry => spelling.isPrefixOf entry.1.toList).map (·.2)

/-- An argument that starts with a hyphen and is no exact spelling. -/
def inexactArgument (text : List Char) : Argument :=
  let (spelling, attached) := splitEquals text
  let flags := if "--".toList.isPrefixOf text then longFlags spelling else []
  match flags with
  | [flag] => .flag flag attached
  | _ :: _ :: _ => .ambiguous
  | [] =>
    if text.take 2 == ['-', 'h'] then .flag .help none
    else if isNegativeNumber text then .ordinary
    else if text.contains ' ' then .ordinary
    else .unknown

/-- The meaning of an argument on its own. -/
def argumentOf (text : String) : Argument :=
  match text.toList with
  | ['-'] => .ordinary
  | ['-', '-'] => .separator
  | '-' :: rest =>
    let (spelling, attached) := splitEquals ('-' :: rest)
    match longSpellings.find? fun entry => entry.1.toList = spelling with
    | some entry => .flag entry.2 attached
    | none => inexactArgument ('-' :: rest)
  | _ => .ordinary

/-- Whether an argument is ambiguous, which is noticed before any argument takes effect. -/
def hasAmbiguous (arguments : List String) : Bool :=
  (arguments.takeWhile (· != "--")).any fun text =>
    match argumentOf text with
    | .ambiguous => true
    | _ => false

/-- What has been read of the command line; the last flag tells whether the input was read last. -/
structure Progress where
  input : Option String := none
  json : Bool := false
  indent : Int := 2
  surplus : Bool := false
  behindInput : Bool := false

namespace Progress

/-- Take an ordinary argument: the first is the input, any other is surplus. -/
def take (progress : Progress) (argument : String) : Progress :=
  match progress.input with
  | none => { progress with input := some argument, behindInput := true }
  | some _ => { progress with surplus := true }

/-- Take the separator: it belongs to an input next to it, and is surplus behind options that follow
the input. -/
def takeSeparator (progress : Progress) : Progress :=
  if progress.input.isSome && !progress.behindInput then { progress with surplus := true }
  else progress

/-- Ask for the record of the document. -/
def setJson (progress : Progress) : Progress :=
  { progress with json := true, behindInput := false }

/-- Set the indent. -/
def setIndent (progress : Progress) (value : String) : Except Refusal Progress :=
  match wholeNumber? value with
  | some indent => .ok { progress with indent, behindInput := false }
  | none => .error .usage

/-- The options that were read: there must be an input and no surplus. -/
def finish (progress : Progress) : Except Refusal Options :=
  match progress.input, progress.surplus with
  | some input, false => .ok { input, json := progress.json, indent := progress.indent }
  | _, _ => .error .usage

end Progress

/-- Read arguments one after the other; behind `--` all of them are ordinary. -/
def readArguments (progress : Progress) : List String → Except Refusal Progress
  | [] => .ok progress
  | argument :: rest =>
    match argumentOf argument with
    | .separator => .ok (rest.foldl Progress.take progress.takeSeparator)
    | .ordinary => readArguments (progress.take argument) rest
    | .unknown => readArguments { progress with surplus := true } rest
    | .flag .help none => .error .help
    | .flag .json none => readArguments progress.setJson rest
    | .flag .indent (some value) => do readArguments (← progress.setIndent value) rest
    | .flag .indent none =>
      match rest with
      | value :: rest =>
        match argumentOf value with
        | .ordinary => do readArguments (← progress.setIndent value) rest
        | _ => .error .usage
      | [] => .error .usage
    | .flag _ (some _) | .ambiguous => .error .usage

/-- The options that arguments ask for. -/
def optionsOf (arguments : List String) : Except Refusal Options := do
  if hasAmbiguous arguments then .error .usage
  (← readArguments {} arguments).finish

end EditableMarkup.CommandLine
