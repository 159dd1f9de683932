import EditableMarkup.Grammar.Expression

/-!
# Statements

Statements need no separator between them, so a text may be cut into
statements in several ways.  Every bare expression statement counts one, and
the reading with the fewest of them is the one that is kept.
-/

namespace EditableMarkup.Grammar.Rule

open Reader

/-! ## Imports, exports and declarations -/

/-- Names in braces that are imported or exported. -/
def importNames : Reader Unit := do
  Reader.sign "\x7b"
  let _ ← optional <| commaList do
    optionalKeyword "type"
    let _ ← anyName
    let _ ← optional do
      keyword "as"
      name
  Reader.sign "\x7d"

/-- What an import binds. -/
def importClause : Reader Unit :=
  oneOf
    [do
        optionalKeyword "type"
        let _ ← name
        let _ ← optional do
          Reader.sign ","
          importNames,
      do
        optionalKeyword "type"
        importNames,
      do
        Reader.sign "*"
        keyword "as"
        let _ ← name]

/-- An import. -/
def importDeclaration : Reader (List Form) := do
  keyword "import"
  let _ ← optional do
    importClause
    keyword "from"
  let _ ← lexeme Lexeme.string
  optionalSign ";"
  return []

/-- A name that is bound, with its type and its value. -/
def declarator : Reader (List Form) := do
  let bound ← Reader.pattern
  optionalSign "!"
  let annotation ← ifPresent typeAnnotation
  let value ← initialValue
  return bound ++ annotation ++ value

/-- A declaration of variables without the semicolon. -/
def variableHead : Reader (List Form) := do
  let _ ← lexeme Lexeme.variableKind
  List.flatten <$> separatedBy (Reader.sign ",") declarator

/-- A declaration of variables. -/
def variableDeclaration : Reader (List Form) := do
  let inside ← variableHead
  optionalSign ";"
  return inside

/-- A declaration of a type. -/
def typeDeclaration : Reader (List Form) := do
  keyword "type"
  let _ ← name
  let types ← ifPresent typeParameters
  Reader.sign "="
  let meaning ← Reader.type
  optionalSign ";"
  return types ++ meaning

/-- A declaration of an interface. -/
def interfaceDeclaration : Reader (List Form) := do
  keyword "interface"
  let _ ← name
  let types ← ifPresent typeParameters
  let parents ← ifPresent do
    keyword "extends"
    List.flatten <$> separatedBy (Reader.sign ",") Reader.type
  let members ← objectType
  return types ++ parents ++ members

/-- What stands behind the word `export`. -/
def exportClause : Reader (List Form) :=
  oneOf
    [do
        keyword "default"
        oneOf
          [do return [← functionDeclaration],
            do return [← classDeclaration],
            do
              let value ← Reader.expression
              optionalSign ";"
              return [value]],
      variableDeclaration,
      do return [← functionDeclaration],
      do return [← classDeclaration],
      typeDeclaration,
      interfaceDeclaration,
      do
        optionalKeyword "type"
        importNames
        let _ ← optional do
          keyword "from"
          lexeme Lexeme.string
        optionalSign ";"
        return [],
      do
        Reader.sign "*"
        let _ ← optional do
          keyword "as"
          anyName
        keyword "from"
        let _ ← lexeme Lexeme.string
        optionalSign ";"
        return []]

/-- An export. -/
def exportDeclaration : Reader (List Form) := do
  keyword "export"
  exportClause

/-! ## Control -/

/-- A return, which has a value wherever one can be read. -/
def returnStatement : Reader Form :=
  sliced do
    keyword "return"
    let value ← optional Reader.expression
    optionalSign ";"
    return fun slice =>
      match value with
      | some form => .returned slice form
      | none => .returnedNothing slice

/-- An expression in parentheses, as a condition or a subject. -/
def condition : Reader Form := do
  Reader.sign "("
  let form ← Reader.expression
  Reader.sign ")"
  return form

/-- A choice. -/
def ifStatement : Reader (List Form) := do
  keyword "if"
  let test ← condition
  let positive ← Reader.statement
  let negative ← ifPresent do
    keyword "else"
    return [← Reader.statement]
  return test :: positive :: negative

/-- The head of a loop, with three parts or over a collection. -/
def forHead : Reader (List Form) :=
  oneOf
    [do
        let start ← ifPresent (oneOf [variableHead, do return [← Reader.expression]])
        Reader.sign ";"
        let test ← ifPresent do return [← Reader.expression]
        Reader.sign ";"
        let step ← ifPresent do return [← Reader.expression]
        return start ++ test ++ step,
      do
        let bound ← oneOf
          [do
              let _ ← lexeme Lexeme.variableKind
              Reader.pattern,
            do return [← Reader.call]]
        oneOf [keyword "of", keyword "in"]
        return bound ++ [← Reader.expression]]

/-- A loop with a head. -/
def forStatement : Reader (List Form) := do
  keyword "for"
  optionalKeyword "await"
  Reader.sign "("
  let head ← forHead
  Reader.sign ")"
  return head ++ [← Reader.statement]

/-- A loop with its condition in front or behind. -/
def whileStatement : Reader (List Form) :=
  oneOf
    [do
        keyword "while"
        let test ← condition
        return [test, ← Reader.statement],
      do
        keyword "do"
        let body ← Reader.statement
        keyword "while"
        let test ← condition
        optionalSign ";"
        return [body, test]]

/-- A block whose failures are handled. -/
def tryStatement : Reader (List Form) := do
  keyword "try"
  let body ← Reader.block
  let handler ← ifPresent do
    keyword "catch"
    let bound ← ifPresent do
      Reader.sign "("
      let bound ← Reader.pattern
      let annotation ← ifPresent typeAnnotation
      Reader.sign ")"
      return bound ++ annotation
    return bound ++ [← Reader.block]
  let final ← ifPresent do
    keyword "finally"
    return [← Reader.block]
  return body :: (handler ++ final)

/-- A case of a selection. -/
def switchCase : Reader (List Form) := do
  let label ← oneOf
    [do
        keyword "case"
        return [← Reader.expression],
      do
        keyword "default"
        return []]
  Reader.sign ":"
  return label ++ (← many Reader.statement)

/-- A selection. -/
def switchStatement : Reader (List Form) := do
  keyword "switch"
  let subject ← condition
  Reader.sign "\x7b"
  let cases ← many switchCase
  Reader.sign "\x7d"
  return subject :: cases.flatten

/-- A failure that is raised. -/
def throwStatement : Reader (List Form) := do
  keyword "throw"
  let form ← Reader.expression
  optionalSign ";"
  return [form]

/-- The end of a loop or of one of its rounds. -/
def jumpStatement : Reader (List Form) := do
  oneOf [keyword "break", keyword "continue"]
  let _ ← optional name
  optionalSign ";"
  return []

/-- Statements in braces. -/
def block : Reader Form :=
  sliced do
    Reader.sign "\x7b"
    let statements ← many Reader.statement
    Reader.sign "\x7d"
    return (.block · statements)

/-- An expression that stands as a statement. -/
def expressionStatement : Reader (List Form) :=
  counted do
    let form ← Reader.expression
    optionalSign ";"
    return [form]

/-! ## All statements -/

/-- A statement of which only the forms inside are kept. -/
def plainStatement (reader : Reader (List Form)) : Reader Form :=
  sliced do
    let inside ← reader
    return (.plain · inside)

/-- A statement. -/
def statement : Reader Form :=
  oneOf
    [plainStatement importDeclaration,
      plainStatement exportDeclaration,
      plainStatement variableDeclaration,
      functionDeclaration,
      classDeclaration,
      plainStatement typeDeclaration,
      plainStatement interfaceDeclaration,
      returnStatement,
      plainStatement ifStatement,
      plainStatement forStatement,
      plainStatement whileStatement,
      plainStatement tryStatement,
      plainStatement switchStatement,
      plainStatement throwStatement,
      plainStatement jumpStatement,
      Reader.block,
      plainStatement expressionStatement,
      plainStatement do
        Reader.sign ";"
        return []]

end EditableMarkup.Grammar.Rule
