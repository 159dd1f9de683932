import EditableMarkup.Grammar.Signature

/-!
# Expressions

Expressions from primary ones to sequences, with the functions, classes,
objects and arrays among them.  Precedence between binary operators is of no
interest here: a chain of operands is one plain form.
-/

namespace EditableMarkup.Grammar.Rule

open Reader

/-! ## Functions -/

/-- A function with its head already read. -/
def functionForm (head : List Form) (body : Form) (slice : Slice) : Form :=
  .function slice head body

/-- A function that has a name. -/
def functionDeclaration : Reader Form :=
  sliced do
    optionalKeyword "async"
    keyword "function"
    optionalSign "*"
    let _ ← name
    let head ← signature
    return functionForm head (← block)

/-- A function that need not have a name. -/
def functionExpression : Reader Form :=
  sliced do
    optionalKeyword "async"
    keyword "function"
    optionalSign "*"
    let _ ← optional name
    let head ← signature
    return functionForm head (← block)

/-- The parameters of an arrow function. -/
def arrowParameters : Reader (List Form) :=
  oneOf
    [(fun _ => []) <$> name,
      do return (← ifPresent typeParameters) ++ (← parameterList)]

/-- An arrow function, whose body is a block or an expression. -/
def arrowFunction : Reader Form :=
  sliced do
    optionalKeyword "async"
    let parameters ← arrowParameters
    let result ← ifPresent typeAnnotation
    Reader.sign "=>"
    return functionForm (parameters ++ result) (← oneOf [block, assignment])

/-- A word or sign in front of a method. -/
def methodModifier : Reader Unit :=
  oneOf
    [do let _ ← lexeme Lexeme.modifier,
      keyword "async",
      do let _ ← lexeme Lexeme.accessor,
      Reader.sign "*"]

/-- A method of a class or an object. -/
def method : Reader Form :=
  sliced do
    let _ ← many methodModifier
    let key ← propertyKey
    let head ← signature
    return functionForm (key.inside ++ head) (← block)

/-! ## Classes -/

/-- A field of a class. -/
def classField : Reader (List Form) := do
  let _ ← many (lexeme Lexeme.modifier)
  let key ← propertyKey
  let _ ← optional (oneOf [Reader.sign "?", Reader.sign "!"])
  let annotation ← ifPresent typeAnnotation
  let value ← initialValue
  optionalSign ";"
  return key.inside ++ annotation ++ value

/-- A member of a class. -/
def classMember : Reader (List Form) :=
  oneOf
    [do return [← method],
      classField,
      do
        Reader.sign ";"
        return []]

/-- The parts of a class behind its name. -/
def classTail : Reader (List Form) := do
  let types ← ifPresent typeParameters
  let parent ← ifPresent do
    keyword "extends"
    let parent ← call
    return parent :: (← ifPresent typeArguments)
  let interfaces ← ifPresent do
    keyword "implements"
    List.flatten <$> separatedBy (Reader.sign ",") Reader.type
  Reader.sign "\x7b"
  let members ← many classMember
  Reader.sign "\x7d"
  return types ++ parent ++ interfaces ++ members.flatten

/-- A class that has a name. -/
def classDeclaration : Reader Form :=
  sliced do
    keyword "class"
    let _ ← name
    let inside ← classTail
    return (.plain · inside)

/-- A class that need not have a name. -/
def classExpression : Reader Form :=
  sliced do
    keyword "class"
    let _ ← optional name
    let inside ← classTail
    return (.plain · inside)

/-! ## Objects, arrays and arguments -/

/-- An expression whose value is spread. -/
def spread : Reader Form := do
  Reader.sign "..."
  assignment

/-- A member of an object. -/
def objectMember : Reader (Member Form) :=
  oneOf
    [do
        let key ← propertyKey
        Reader.sign ":"
        return .property key (← assignment),
      (fun _ => .other []) <$> name,
      do return .other [← spread],
      do return .other [← method]]

/-- An object literal. -/
def object : Reader Form :=
  sliced do
    Reader.sign "\x7b"
    let members ← oneOf [commaList objectMember, nothing []]
    Reader.sign "\x7d"
    return (.object · members)

/-- An element of an array or an argument of a call. -/
def element : Reader Form :=
  oneOf [assignment, spread]

/-- An array literal, in which elements may be left out. -/
def array : Reader Form :=
  sliced do
    Reader.sign "["
    let inside ← separatedBy (Reader.sign ",") (ifPresent do return [← element])
    Reader.sign "]"
    return (.plain · inside.flatten)

/-- The arguments of a call. -/
def arguments : Reader (List Form) := do
  Reader.sign "("
  let inside ← oneOf [commaList element, nothing []]
  Reader.sign ")"
  return inside

/-- An expression in parentheses. -/
def group : Reader Form :=
  sliced do
    Reader.sign "("
    let inner ← expression
    Reader.sign ")"
    return (.group · inner)

/-! ## From primary expressions to sequences -/

/-- A lexeme of which only its text is kept. -/
def plainLexeme (taken : Lexeme) : Reader Form :=
  (fun slice => .plain slice []) <$> lexeme taken

/-- A primary expression. -/
def primary : Reader Form :=
  oneOf
    [plainLexeme Lexeme.name,
      .number <$> lexeme Lexeme.number,
      .string <$> lexeme Lexeme.string,
      plainLexeme Lexeme.template,
      .boolean <$> lexeme Lexeme.boolean,
      plainLexeme (Lexeme.keyword "null"),
      plainLexeme (Lexeme.keyword "this"),
      plainLexeme (Lexeme.keyword "super"),
      Reader.object,
      array,
      group,
      functionExpression,
      classExpression,
      markup]

/-- A new instance. -/
def newInstance : Reader Form :=
  sliced do
    keyword "new"
    let made ← call
    let inside ← ifPresent arguments
    return (.plain · (made :: inside))

/-- What may stand behind an expression that is called or looked into. -/
def callTail : Reader (List Form) :=
  oneOf
    [do
        oneOf [Reader.sign ".", Reader.sign "?."]
        let _ ← anyName
        return [],
      do
        optionalSign "?."
        Reader.sign "["
        let index ← expression
        Reader.sign "]"
        return [index],
      do
        optionalSign "?."
        let types ← ifPresent typeArguments
        return types ++ (← arguments),
      do
        let _ ← lexeme Lexeme.template
        return [],
      do
        Reader.sign "!"
        return []]

/-- A primary expression or a new instance, with all that is looked up in it and called. -/
def call : Reader Form :=
  iterate (oneOf [primary, newInstance]) fun form => extending form callTail

/-- An operator behind its operand. -/
def updateTail : Reader (List Form) := do
  let _ ← lexeme Lexeme.update
  return []

/-- An operator with its operand. -/
def signedUnary : Reader Form :=
  sliced do
    let sign ← lexeme Lexeme.unary
    let form ← Reader.unary
    return fun slice =>
      if sign.chars == ['-'] || sign.chars == ['+'] then .signed slice sign form
      else .plain slice [form]

/-- An expression that is waited for. -/
def awaited : Reader Form :=
  sliced do
    keyword "await"
    let form ← Reader.unary
    return (.plain · [form])

/-- An expression with an operator in front of it or behind it. -/
def unary : Reader Form :=
  oneOf [maybeMore Reader.call fun form => extending form updateTail, signedUnary, awaited]

/-- A type that an expression is given. -/
def typeTail : Reader (List Form) := do
  oneOf [keyword "as", keyword "satisfies"]
  Reader.type

/-- An operand, which may be given a type. -/
def operand : Reader Form :=
  maybeMore Reader.unary fun form => extending form typeTail

/-- An operator with the operand behind it. -/
def operandTail : Reader (List Form) := do
  let _ ← lexeme Lexeme.binary
  return [← Reader.operand]

/-- Operands with operators between them. -/
def binary : Reader Form :=
  iterate Reader.operand fun form => extending form operandTail

/-- The two expressions that a condition chooses from. -/
def choiceTail : Reader (List Form) := do
  Reader.sign "?"
  let positive ← Reader.assignment
  Reader.sign ":"
  return [positive, ← Reader.assignment]

/-- What is assigned, behind the operator. -/
def assignmentTail : Reader (List Form) := do
  let _ ← lexeme Lexeme.assignment
  return [← Reader.assignment]

/-- A value that is handed out. -/
def yielded : Reader Form :=
  sliced do
    keyword "yield"
    optionalSign "*"
    let inside ← ifPresent do return [← Reader.assignment]
    return (.plain · inside)

/-- An expression without a comma of its own. -/
def assignment : Reader Form :=
  oneOf
    [maybeMore binary fun form => extending form choiceTail,
      arrowFunction,
      do
        let form ← Reader.call
        extending form assignmentTail,
      yielded]

/-- One more expression behind a comma. -/
def commaTail : Reader (List Form) := do
  Reader.sign ","
  return [← Reader.assignment]

/-- Expressions with commas between them. -/
def expression : Reader Form :=
  iterate Reader.assignment fun form => extending form commaTail

end EditableMarkup.Grammar.Rule
