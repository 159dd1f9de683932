import EditableMarkup.Text.Blank
import EditableMarkup.Text.Digit
import EditableMarkup.Text.Word

/-!
# Lexemes

A lexeme class looks at the front of a text and gives the number of characters
that its lexeme there takes, or nothing.  A class never gives a choice: it
takes the longest run that its rule allows.  Which classes are tried at a
place is up to the grammar, so the same characters may be read as a name in
one position and as markup text in another.
-/

namespace EditableMarkup.Grammar

open EditableMarkup.Text

/-- The number of characters a lexeme takes at the front of a text. -/
abbrev Lexeme := List Char → Option Nat

namespace Lexeme

/-! ## Fixed spellings -/

/-- A fixed spelling, whatever follows it. -/
def spelled : List Char → Lexeme
  | [], _ => some 0
  | _ :: _, [] => none
  | c :: rest, d :: text => if c = d then (spelled rest text).map (· + 1) else none

/-- A sign made of punctuation. -/
def sign (spelling : String) : Lexeme :=
  spelled spelling.toList

/-- A keyword, which no word character may follow. -/
def keyword (spelling : String) : Lexeme := fun text => do
  let length ← spelled spelling.toList text
  if startsWithWord (text.drop length) then none else some length

/-- The first class of a list that takes something. -/
def firstOf (classes : List Lexeme) : Lexeme := fun text =>
  classes.findSome? fun taken => taken text

/-- One of several keywords. -/
def keywordOf (spellings : List String) : Lexeme :=
  firstOf (spellings.map keyword)

/-- One of several signs, the earlier before the later. -/
def signOf (spellings : List String) : Lexeme :=
  firstOf (spellings.map sign)

/-! ## Names -/

/-- A letter of the Latin alphabet, an underscore or a dollar sign starts a name. -/
def startsName (c : Char) : Bool :=
  isLatin c || c == '_' || c == '$'

/-- A word character of any script or a dollar sign continues a name. -/
def continuesName (c : Char) : Bool :=
  isWord c || c == '$'

/-- The number of characters at the front that satisfy a test. -/
def run (test : Char → Bool) : List Char → Nat
  | [] => 0
  | c :: rest => if test c then run test rest + 1 else 0

/-- Any name, reserved or not. -/
def anyName : Lexeme
  | [] => none
  | c :: rest => if startsName c then some (run continuesName rest + 1) else none

/-- The names that cannot stand for a value. -/
def reservedWords : List String :=
  ["break", "case", "catch", "class", "const", "continue", "debugger", "default", "delete", "do",
    "else", "enum", "export", "extends", "false", "finally", "for", "function", "if", "import",
    "in", "instanceof", "let", "new", "null", "return", "super", "switch", "this", "throw", "true",
    "try", "typeof", "var", "void", "while", "with", "yield", "await"]

/-- A name that no reserved word opens. -/
def name : Lexeme := fun text =>
  match keywordOf reservedWords text with
  | some _ => none
  | none => anyName text

/-- The hyphenated parts that may follow the first part of a markup name. -/
def hyphenated : Nat → List Char → Nat
  | 0, _ => 0
  | fuel + 1, text =>
    match text with
    | '-' :: rest =>
      match run continuesName rest with
      | 0 => 0
      | length => length + 1 + hyphenated fuel (rest.drop length)
    | _ => 0

/-- A name in markup, which may hold hyphens between its parts. -/
def markupName : Lexeme := fun text => do
  let length ← anyName text
  some (length + hyphenated text.length (text.drop length))

/-! ## Literals -/

/-- A decimal digit or the separator `_`. -/
def continuesDigits (c : Char) : Bool :=
  isDigit c || c == '_'

/-- Digits in a base other than ten, behind a zero and the base's letter. -/
def radix (letters : List Char) (test : Char → Bool) : Lexeme
  | '0' :: letter :: rest =>
    if letters.contains letter then
      match run test rest with
      | 0 => none
      | length => some (length + 2)
    else none
  | _ => none

/-- A decimal fraction's digits with the point: at least one digit stands before it or behind it. -/
def decimal : Lexeme
  | '.' :: c :: rest => if isDigit c then some (run continuesDigits rest + 2) else none
  | c :: rest =>
    if isDigit c then
      let whole := run continuesDigits rest + 1
      match rest.drop (whole - 1) with
      | '.' :: fraction => some (whole + 1 + run continuesDigits fraction)
      | _ => some whole
    else none
  | [] => none

/-- The length of a decimal exponent, or zero where none stands. -/
def exponent : List Char → Nat
  | e :: rest =>
    if e == 'e' || e == 'E' then
      match rest with
      | [] => 0
      | s :: digits =>
        if s == '+' || s == '-' then
          match run isDigit digits with
          | 0 => 0
          | length => length + 2
        else
          match run isDigit rest with
          | 0 => 0
          | length => length + 1
    else 0
  | [] => 0

/-- A decimal number with its exponent. -/
def scientific : Lexeme := fun text => do
  let length ← decimal text
  some (length + exponent (text.drop length))

/-- A number in any base; a final `n` marks a big integer. -/
def number : Lexeme := fun text => do
  let length ← firstOf
    [radix ['x', 'X'] (fun c => isHexDigit c || c == '_'),
      radix ['b', 'B'] (fun c => c == '0' || c == '1' || c == '_'),
      radix ['o', 'O'] (fun c => ('0' ≤ c && c ≤ '7') || c == '_'),
      scientific] text
  match text.drop length with
  | 'n' :: _ => some (length + 1)
  | _ => some length

/-- The rest of a quoted literal behind its opening quote, the closing quote included; a backslash
takes the next character with it, and a line end closes nothing when `lines` is off. -/
def quotedRest (quote : Char) (lines : Bool) : Lexeme
  | [] => none
  | ['\\'] => none
  | '\\' :: _ :: rest => (quotedRest quote lines rest).map (· + 2)
  | c :: rest =>
    if c == quote then some 1
    else if c == '\n' && !lines then none
    else (quotedRest quote lines rest).map (· + 1)

/-- A string literal in single or double quotes. -/
def string : Lexeme
  | '"' :: rest => (quotedRest '"' false rest).map (· + 1)
  | '\'' :: rest => (quotedRest '\'' false rest).map (· + 1)
  | _ => none

/-- A template between backquotes, which may span lines. -/
def template : Lexeme
  | '\x60' :: rest => (quotedRest '\x60' true rest).map (· + 1)
  | _ => none

/-- The rest of a markup string behind its opening quote: nothing is escaped in it. -/
def rawRest (quote : Char) : Lexeme
  | [] => none
  | c :: rest => if c == quote then some 1 else (rawRest quote rest).map (· + 1)

/-- A quoted attribute value, where a backslash stands for itself. -/
def markupString : Lexeme
  | '"' :: rest => (rawRest '"' rest).map (· + 1)
  | '\'' :: rest => (rawRest '\'' rest).map (· + 1)
  | _ => none

/-- `true` or `false`. -/
def boolean : Lexeme :=
  keywordOf ["true", "false"]

/-! ## Text in markup -/

/-- Braces and angle brackets end a text in markup. -/
def endsText (c : Char) : Bool :=
  c == '<' || c == '>' || c == '{' || c == '}'

/-- A text in markup starts with a character that is not blank. -/
def markupText : Lexeme
  | [] => none
  | c :: rest =>
    if endsText c || isBlank c then none
    else some (run (fun d => !endsText d) rest + 1)

/-! ## Operators -/

/-- The operators that a compound assignment may hold in front of its equals sign. -/
def compoundOperators : List String :=
  ["**", "??", "||", "&&", ">>>", ">>", "<<", "+", "-", "*", "/", "%", "&", "|", "^"]

/-- An equals sign that opens neither a comparison nor an arrow. -/
def loneEquals : Lexeme
  | '=' :: rest =>
    match rest with
    | '=' :: _ => none
    | '>' :: _ => none
    | _ => some 1
  | _ => none

/-- An assignment operator. -/
def assignment : Lexeme :=
  firstOf (compoundOperators.map (fun operator text => do
      let length ← sign operator text
      let equals ← loneEquals (text.drop length)
      some (length + equals)) ++ [loneEquals])

/-- An operator between two operands. -/
def binary : Lexeme :=
  firstOf
    [signOf ["??", "||", "&&", "===", "!==", "==", "!=", "<=", ">=", "<<", ">>>", ">>", "**",
        "+", "-", "*", "/", "%", "&", "|", "^", "<", ">"],
      keywordOf ["instanceof", "in"]]

/-- An operator in front of its operand. -/
def unary : Lexeme :=
  firstOf
    [keywordOf ["typeof", "void", "delete"], signOf ["++", "--", "!", "~", "+", "-"]]

/-- An operator behind its operand. -/
def update : Lexeme :=
  signOf ["++", "--"]

/-! ## Keywords in groups -/

/-- The word that opens a declaration of variables. -/
def variableKind : Lexeme :=
  keywordOf ["const", "let", "var"]

/-- A modifier in front of a member. -/
def modifier : Lexeme :=
  keywordOf
    ["static", "public", "private", "protected", "readonly", "abstract", "override", "declare"]

/-- The word in front of a property that is computed on access. -/
def accessor : Lexeme :=
  keywordOf ["get", "set"]

/-! ## What lies between lexemes -/

/-- Spaces, tabs, form feeds and line ends separate lexemes. -/
def isSpace (c : Char) : Bool :=
  c == ' ' || c == '\t' || c == '\x0c' || c == '\r' || c == '\n'

/-- A run of spaces. -/
def spaces : Lexeme := fun text =>
  match run isSpace text with
  | 0 => none
  | length => some length

/-- The rest of a comment behind its opening, the closing included. -/
def commentRest : Lexeme
  | [] => none
  | '*' :: '/' :: _ => some 2
  | _ :: rest => (commentRest rest).map (· + 1)

/-- A comment up to the line end, or between its own brackets. -/
def comment : Lexeme
  | '/' :: '/' :: rest => some (run (· != '\n') rest + 2)
  | '/' :: '*' :: rest => (commentRest rest).map (· + 2)
  | _ => none

/-- A run of spaces or a comment may be skipped in front of a lexeme. -/
def skipped : Lexeme :=
  firstOf [spaces, comment]

end Lexeme

end EditableMarkup.Grammar
