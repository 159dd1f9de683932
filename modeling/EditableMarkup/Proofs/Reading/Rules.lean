import EditableMarkup.Proofs.Number.Digits
import EditableMarkup.Proofs.Reading.Starts

/-!
# What the rules start with

For every rule that is tried at a place with a printed construct, the classes
of lexemes that it can start with.
-/

namespace EditableMarkup.Grammar

/-! ## Solid classes -/

namespace Lexeme

theorem solid_boolean : boolean.Solid :=
  solid_keywordOf (by decide)

theorem solid_update : update.Solid :=
  solid_signOf (by decide)

theorem solid_variableKind : variableKind.Solid :=
  solid_keywordOf (by decide)

theorem solid_modifier : modifier.Solid :=
  solid_keywordOf (by decide)

theorem solid_accessor : accessor.Solid :=
  solid_keywordOf (by decide)

theorem solid_unary : unary.Solid := by
  apply solid_firstOf
  intro taken htaken
  simp only [List.mem_cons, List.not_mem_nil, or_false] at htaken
  rcases htaken with rfl | rfl
  · exact solid_keywordOf (by decide)
  · exact solid_signOf (by decide)

theorem solid_binary : binary.Solid := by
  apply solid_firstOf
  intro taken htaken
  simp only [List.mem_cons, List.not_mem_nil, or_false] at htaken
  rcases htaken with rfl | rfl
  · exact solid_signOf (by decide)
  · exact solid_keywordOf (by decide)

theorem solid_assignment : assignment.Solid := by
  apply solid_firstOf
  intro taken htaken c rest hc
  rcases List.mem_append.mp htaken with htaken | htaken
  · obtain ⟨operator, hoperator, rfl⟩ := List.mem_map.mp htaken
    have visible : ∀ s ∈ compoundOperators, Visible s := by decide
    have hsign := solid_sign (visible operator hoperator) c rest hc
    simp [hsign]
  · rw [List.mem_singleton.mp htaken]
    have hequals : ∀ d, isSpace d = true → (d == '=') = false :=
      forall_isSpace rfl rfl rfl rfl rfl
    unfold loneEquals
    split
    · next heq =>
        have hne := hequals c hc
        rw [(List.cons.inj heq).1] at hne
        cases hne
    · rfl

end Lexeme

namespace Rule

open Reader

/-! ## Names, parameters and types -/

theorem mayStart_optionalKeyword {spelling : String} (visible : Lexeme.Visible spelling) :
    MayStart (optionalKeyword spelling) [Lexeme.keyword spelling] :=
  (starts_keyword visible).orNothing

/-- A word that may be missing is read in front of the rest, or it is missing. -/
theorem exists_of_reads_optionalKeyword {spelling : String} {place : Place} {lead : Nat}
    {text : List Char} (faces : place.Faces lead text) (visible : Lexeme.Visible spelling)
    {reading : Reading Unit} (h : Reads (optionalKeyword spelling) place reading) :
    reading.used = 0 ∨
      ∃ length, Lexeme.keyword spelling text = some length ∧ reading.used = lead + length := by
  obtain ⟨reader, hreader, hreads⟩ := exists_of_reads_oneOf h
  simp only [List.mem_cons, List.not_mem_nil, or_false] at hreader
  rcases hreader with rfl | rfl
  · exact Or.inr (exists_of_reads_keyword faces visible hreads)
  · rw [reads_nothing.mp hreads]
    exact Or.inl rfl

theorem mayStart_optionalSign {spelling : String} (visible : Lexeme.Visible spelling) :
    MayStart (optionalSign spelling) [Lexeme.sign spelling] :=
  (starts_sign visible).orNothing

theorem mayStart_ifPresent {reader : Reader (List Form)} {first : List Lexeme}
    (starts : Starts reader first) : MayStart (ifPresent reader) first :=
  starts.orNothing

theorem starts_name : Starts name [Lexeme.name] :=
  starts_lexeme Lexeme.opens_name.solid

theorem starts_anyName : Starts anyName [Lexeme.anyName] :=
  starts_lexeme Lexeme.opens_anyName.solid

theorem starts_typeAnnotation : Starts typeAnnotation [Lexeme.sign ":"] :=
  (starts_sign rfl).bind

theorem starts_typeParameters : Starts typeParameters [Lexeme.sign "<"] :=
  (starts_sign rfl).bind

theorem starts_typeArguments : Starts typeArguments [Lexeme.sign "<"] :=
  (starts_sign rfl).bind

theorem starts_parameterList : Starts parameterList [Lexeme.sign "("] :=
  (starts_sign rfl).bind

theorem starts_signature : Starts signature [Lexeme.sign "<", Lexeme.sign "("] :=
  (mayStart_ifPresent starts_typeParameters).bind fun _ => starts_parameterList.bind

/-! ## Functions and classes -/

theorem starts_functionExpression :
    Starts functionExpression [Lexeme.keyword "async", Lexeme.keyword "function"] :=
  ((mayStart_optionalKeyword rfl).bind fun _ => (starts_keyword rfl).bind).sliced

theorem starts_functionDeclaration :
    Starts functionDeclaration [Lexeme.keyword "async", Lexeme.keyword "function"] :=
  ((mayStart_optionalKeyword rfl).bind fun _ => (starts_keyword rfl).bind).sliced

theorem starts_classExpression : Starts classExpression [Lexeme.keyword "class"] :=
  (starts_keyword rfl).bind.sliced

theorem starts_classDeclaration : Starts classDeclaration [Lexeme.keyword "class"] :=
  (starts_keyword rfl).bind.sliced

theorem starts_arrowParameters :
    Starts arrowParameters [Lexeme.name, Lexeme.sign "<", Lexeme.sign "("] :=
  starts_name.map.cons
    ((mayStart_ifPresent starts_typeParameters).bind fun _ => starts_parameterList.bind).single

theorem starts_arrowFunction :
    Starts arrowFunction
      [Lexeme.keyword "async", Lexeme.name, Lexeme.sign "<", Lexeme.sign "("] :=
  ((mayStart_optionalKeyword rfl).bind fun _ => starts_arrowParameters.bind).sliced

/-! ## Parts of expressions -/

theorem starts_array : Starts array [Lexeme.sign "["] :=
  (starts_sign rfl).bind.sliced

theorem starts_object : Starts object [Lexeme.sign "\x7b"] :=
  (starts_sign rfl).bind.sliced

theorem starts_group : Starts group [Lexeme.sign "("] :=
  (starts_sign rfl).bind.sliced

theorem starts_arguments : Starts arguments [Lexeme.sign "("] :=
  (starts_sign rfl).bind

theorem starts_newInstance : Starts newInstance [Lexeme.keyword "new"] :=
  (starts_keyword rfl).bind.sliced

theorem starts_callTail :
    Starts callTail
      [Lexeme.sign ".", Lexeme.sign "?.", Lexeme.sign "?.", Lexeme.sign "[", Lexeme.sign "?.",
        Lexeme.sign "<", Lexeme.sign "(", Lexeme.template, Lexeme.sign "!"] :=
  ((starts_sign rfl).cons (starts_sign rfl).single).bind.cons <|
  ((mayStart_optionalSign rfl).bind fun _ => (starts_sign rfl).bind).cons <|
  ((mayStart_optionalSign rfl).bind fun _ =>
    (mayStart_ifPresent starts_typeArguments).bind fun _ => starts_arguments.bind).cons <|
  (starts_lexeme Lexeme.opens_template.solid).bind.cons <|
  (starts_sign rfl).bind.single

theorem starts_updateTail : Starts updateTail [Lexeme.update] :=
  (starts_lexeme Lexeme.solid_update).bind

theorem starts_signedUnary : Starts signedUnary [Lexeme.unary] :=
  (starts_lexeme Lexeme.solid_unary).bind.sliced

theorem starts_awaited : Starts awaited [Lexeme.keyword "await"] :=
  (starts_keyword rfl).bind.sliced

theorem starts_typeTail : Starts typeTail [Lexeme.keyword "as", Lexeme.keyword "satisfies"] :=
  ((starts_keyword rfl).cons (starts_keyword rfl).single).bind

theorem starts_operandTail : Starts operandTail [Lexeme.binary] :=
  (starts_lexeme Lexeme.solid_binary).bind

theorem starts_choiceTail : Starts choiceTail [Lexeme.sign "?"] :=
  (starts_sign rfl).bind

theorem starts_assignmentTail : Starts assignmentTail [Lexeme.assignment] :=
  (starts_lexeme Lexeme.solid_assignment).bind

theorem starts_yielded : Starts yielded [Lexeme.keyword "yield"] :=
  (starts_keyword rfl).bind.sliced

theorem starts_commaTail : Starts commaTail [Lexeme.sign ","] :=
  (starts_sign rfl).bind

/-! ## Markup -/

theorem starts_elementMarkup : Starts elementMarkup [Lexeme.sign "<"] :=
  (starts_sign rfl).bind.sliced

theorem starts_fragment : Starts fragment [Lexeme.sign "<"] :=
  (starts_sign rfl).bind.sliced

theorem starts_markup : Starts markup [Lexeme.sign "<", Lexeme.sign "<"] :=
  starts_elementMarkup.cons starts_fragment.single

theorem starts_markupWord : Starts markupWord [Lexeme.markupName] :=
  starts_lexeme Lexeme.opens_markupName.solid

theorem starts_elementAttribute :
    Starts elementAttribute [Lexeme.markupName, Lexeme.markupName, Lexeme.sign "\x7b"] :=
  starts_markupWord.bind.cons (starts_markupWord.bind.cons (starts_sign rfl).bind.single)

/-! ## Statements -/

theorem starts_block : Starts block [Lexeme.sign "\x7b"] :=
  (starts_sign rfl).bind.sliced

theorem starts_importDeclaration : Starts importDeclaration [Lexeme.keyword "import"] :=
  (starts_keyword rfl).bind

theorem starts_exportDeclaration : Starts exportDeclaration [Lexeme.keyword "export"] :=
  (starts_keyword rfl).bind

theorem starts_variableDeclaration : Starts variableDeclaration [Lexeme.variableKind] :=
  (starts_lexeme Lexeme.solid_variableKind).bind.bind

theorem starts_typeDeclaration : Starts typeDeclaration [Lexeme.keyword "type"] :=
  (starts_keyword rfl).bind

theorem starts_interfaceDeclaration :
    Starts interfaceDeclaration [Lexeme.keyword "interface"] :=
  (starts_keyword rfl).bind

theorem starts_returnStatement : Starts returnStatement [Lexeme.keyword "return"] :=
  (starts_keyword rfl).bind.sliced

theorem starts_ifStatement : Starts ifStatement [Lexeme.keyword "if"] :=
  (starts_keyword rfl).bind

theorem starts_forStatement : Starts forStatement [Lexeme.keyword "for"] :=
  (starts_keyword rfl).bind

theorem starts_whileStatement :
    Starts whileStatement [Lexeme.keyword "while", Lexeme.keyword "do"] :=
  (starts_keyword rfl).bind.cons (starts_keyword rfl).bind.single

theorem starts_tryStatement : Starts tryStatement [Lexeme.keyword "try"] :=
  (starts_keyword rfl).bind

theorem starts_switchStatement : Starts switchStatement [Lexeme.keyword "switch"] :=
  (starts_keyword rfl).bind

theorem starts_throwStatement : Starts throwStatement [Lexeme.keyword "throw"] :=
  (starts_keyword rfl).bind

theorem starts_jumpStatement :
    Starts jumpStatement [Lexeme.keyword "break", Lexeme.keyword "continue"] :=
  ((starts_keyword rfl).cons (starts_keyword rfl).single).bind

end Rule

end EditableMarkup.Grammar
