import EditableMarkup.Grammar.Reading

/-!
# Patterns, types and signatures

Patterns bind names, types annotate them, and a signature is the parameter
list of a function with its types.  Only the forms inside are kept: default
values and computed keys may hold functions and markup.
-/

namespace EditableMarkup.Grammar

namespace Key

/-- The forms inside a key. -/
def inside {α : Type} : Key α → List α
  | computed value => [value]
  | _ => []

end Key

namespace Rule

open Reader

/-! ## Common parts -/

/-- The forms inside a construct that may be missing. -/
def ifPresent (reader : Reader (List Form)) : Reader (List Form) :=
  oneOf [reader, nothing []]

/-- Constructs with commas between them; one more comma may end the list. -/
def commaList {α : Type} (reader : Reader α) : Reader (List α) := do
  let values ← separatedBy (Reader.sign ",") reader
  let _ ← optional (Reader.sign ",")
  return values

/-- A word that may be missing. -/
def optionalKeyword (spelling : String) : Reader Unit :=
  oneOf [keyword spelling, nothing ()]

/-- A sign that may be missing. -/
def optionalSign (spelling : String) : Reader Unit :=
  oneOf [Reader.sign spelling, nothing ()]

/-- A name that can be bound. -/
def name : Reader Slice :=
  lexeme Lexeme.name

/-- Any name, reserved or not. -/
def anyName : Reader Slice :=
  lexeme Lexeme.anyName

/-- The value that a name, a parameter or a field starts with. -/
def initialValue : Reader (List Form) :=
  ifPresent do
    Reader.sign "="
    return [← assignment]

/-- The key of a member: a name, a string, a number, or an expression in brackets. -/
def propertyKey : Reader (Key Form) :=
  oneOf
    [.word <$> anyName,
      .quoted <$> lexeme Lexeme.string,
      .number <$> lexeme Lexeme.number,
      do
        Reader.sign "["
        let value ← assignment
        Reader.sign "]"
        return .computed value]

/-! ## Patterns -/

/-- A member of an object pattern. -/
def patternMember : Reader (List Form) :=
  oneOf
    [do
        let _ ← anyName
        Reader.sign ":"
        return (← pattern) ++ (← initialValue),
      do
        let _ ← name
        initialValue,
      do
        Reader.sign "..."
        pattern]

/-- A pattern in braces. -/
def objectPattern : Reader (List Form) := do
  Reader.sign "\x7b"
  let inside ← ifPresent (List.flatten <$> commaList patternMember)
  Reader.sign "\x7d"
  return inside

/-- An element of an array pattern. -/
def patternElement : Reader (List Form) :=
  oneOf
    [do return (← pattern) ++ (← initialValue),
      do
        Reader.sign "..."
        pattern]

/-- A pattern in brackets, in which elements may be left out. -/
def arrayPattern : Reader (List Form) := do
  Reader.sign "["
  let inside ← separatedBy (Reader.sign ",") (ifPresent patternElement)
  Reader.sign "]"
  return inside.flatten

/-- A name, an object pattern or an array pattern. -/
def pattern : Reader (List Form) :=
  oneOf [(fun _ => []) <$> name, objectPattern, arrayPattern]

/-! ## Signatures -/

/-- A type behind a colon. -/
def typeAnnotation : Reader (List Form) := do
  Reader.sign ":"
  type

/-- A parameter of a type. -/
def typeParameter : Reader (List Form) := do
  let _ ← name
  let bound ← ifPresent do
    keyword "extends"
    type
  let standard ← ifPresent do
    Reader.sign "="
    type
  return bound ++ standard

/-- The parameters of a type, in angle brackets. -/
def typeParameters : Reader (List Form) := do
  Reader.sign "<"
  let inside ← commaList typeParameter
  Reader.sign ">"
  return inside.flatten

/-- A parameter of a function. -/
def parameter : Reader (List Form) :=
  oneOf
    [do
        let bound ← Reader.pattern
        optionalSign "?"
        let annotation ← ifPresent typeAnnotation
        let value ← initialValue
        return bound ++ annotation ++ value,
      do
        Reader.sign "..."
        let bound ← Reader.pattern
        let annotation ← ifPresent typeAnnotation
        return bound ++ annotation]

/-- The parameters of a function, in parentheses. -/
def parameterList : Reader (List Form) := do
  Reader.sign "("
  let inside ← ifPresent (List.flatten <$> commaList parameter)
  Reader.sign ")"
  return inside

/-- The parameters of a function with its type parameters and its result type. -/
def signature : Reader (List Form) := do
  let types ← ifPresent typeParameters
  let parameters ← parameterList
  let result ← ifPresent typeAnnotation
  return types ++ parameters ++ result

/-! ## Types -/

/-- The arguments of a generic type, in angle brackets. -/
def typeArguments : Reader (List Form) := do
  Reader.sign "<"
  let inside ← separatedBy (Reader.sign ",") type
  Reader.sign ">"
  return inside.flatten

/-- A member of an object type. -/
def typeMember : Reader (List Form) :=
  oneOf
    [do
        let _ ← optional (lexeme Lexeme.modifier)
        let key ← propertyKey
        optionalSign "?"
        Reader.sign ":"
        return key.inside ++ (← type),
      do
        let key ← propertyKey
        optionalSign "?"
        return key.inside ++ (← signature),
      do
        Reader.sign "["
        let _ ← name
        Reader.sign ":"
        let key ← type
        Reader.sign "]"
        Reader.sign ":"
        return key ++ (← type)]

/-- A comma or a semicolon that may stand between the members of an object type. -/
def memberSeparator : Reader Unit :=
  oneOf [Reader.sign ",", Reader.sign ";", nothing ()]

/-- A type in braces. -/
def objectType : Reader (List Form) := do
  Reader.sign "\x7b"
  let inside ← ifPresent do
    let members ← separatedBy memberSeparator typeMember
    memberSeparator
    return members.flatten
  Reader.sign "\x7d"
  return inside

/-- A type without operators. -/
def primaryType : Reader (List Form) :=
  oneOf
    [do
        let _ ← separatedBy (Reader.sign ".") anyName
        ifPresent typeArguments,
      (fun _ => []) <$> lexeme Lexeme.string,
      (fun _ => []) <$> lexeme Lexeme.number,
      (fun _ => []) <$> lexeme Lexeme.template,
      objectType,
      do
        Reader.sign "["
        let inside ← ifPresent (List.flatten <$> commaList type)
        Reader.sign "]"
        return inside,
      do
        Reader.sign "("
        let inside ← type
        Reader.sign ")"
        return inside,
      do
        let types ← ifPresent typeParameters
        let parameters ← parameterList
        Reader.sign "=>"
        return types ++ parameters ++ (← type),
      do
        keyword "typeof"
        return [← call]]

/-- A type with the brackets of arrays and indices behind it. -/
def typeTerm : Reader (List Form) := do
  optionalKeyword "keyof"
  let first ← primaryType
  let indices ← many do
    Reader.sign "["
    let index ← ifPresent type
    Reader.sign "]"
    return index
  return first ++ indices.flatten

/-- Types joined by union and intersection. -/
def type : Reader (List Form) := do
  optionalSign "|"
  let terms ← separatedBy (oneOf [Reader.sign "|", Reader.sign "&"]) typeTerm
  return terms.flatten

end Rule

end EditableMarkup.Grammar
