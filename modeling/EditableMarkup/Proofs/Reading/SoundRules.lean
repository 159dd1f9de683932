import EditableMarkup.Proofs.Reading.GivesForm
import EditableMarkup.Proofs.Reading.Runs

/-!
# Rules give sound forms

Every rule of the grammar gives sound constructs from sound rows, so the rows of
a text, which are filled by the rules, are sound from the last one to the first.
Of a pattern, a type or a statement only the forms inside are kept; the parts
without forms are skipped.
-/

namespace EditableMarkup.Grammar

open Reader Lexeme

namespace Rule

variable {window : Window}

/-! ## Common parts -/

theorem gives_ifPresent {reader : Reader (List Form)} (gives : Gives window (FormsSound window) reader) :
    Gives window (FormsSound window) (ifPresent reader) :=
  gives.either (Gives.nothing formsSound_nil)

/-- A construct that may be missing and is skipped. -/
theorem givesAny_optional {α : Type} {reader : Reader α} (gives : GivesAny window reader) :
    GivesAny window (optional reader) :=
  (Gives.optional gives).any

theorem gives_commaList {α : Type} {kind : α → Prop} {reader : Reader α}
    (gives : Gives window kind reader) :
    Gives window (fun values => ∀ value ∈ values, kind value) (commaList reader) :=
  (gives.separatedBy (.sign rfl)).bind fun _ hvalues => .skip (givesAny_optional (.sign rfl)) fun _ =>
    .pure hvalues

/-- A list that is skipped. -/
theorem givesAny_commaList {α : Type} {reader : Reader α} (gives : GivesAny window reader) :
    GivesAny window (commaList reader) :=
  (gives_commaList gives).any

theorem givesAny_optionalKeyword {spelling : String}
    (h : decide (Text.Tight spelling.toList) = true) :
    GivesAny window (optionalKeyword spelling) :=
  (Gives.keyword h).either (.nothing trivial)

theorem givesAny_optionalSign {spelling : String}
    (h : decide (Text.Tight spelling.toList) = true) : GivesAny window (optionalSign spelling) :=
  (Gives.sign h).either (.nothing trivial)

theorem givesAny_name : GivesAny window name :=
  (Gives.lexeme tight_name).any

theorem givesAny_anyName : GivesAny window anyName :=
  (Gives.lexeme tight_anyName).any

/-- Forms that are kept one by one. -/
theorem gives_single {reader : Reader Form} (gives : Gives window (Form.Sound window) reader) :
    Gives window (FormsSound window) (do return [← reader]) :=
  gives.bind fun _ hform => .pure (formsSound_cons.mpr ⟨hform, formsSound_nil⟩)

/-- Groups of forms that are joined. -/
theorem gives_flatten {reader : Reader (List (List Form))}
    (gives : Gives window (fun groups => ∀ forms ∈ groups, FormsSound window forms) reader) :
    Gives window (FormsSound window) (List.flatten <$> reader) :=
  gives.map fun _ hgroups => formsSound_flatten.mpr hgroups

/-- Two constructs of which the forms inside are joined. -/
theorem gives_append {first second : Reader (List Form)}
    (gives : Gives window (FormsSound window) first)
    (gives' : Gives window (FormsSound window) second) :
    Gives window (FormsSound window) (do return (← first) ++ (← second)) :=
  gives.bind fun _ hfirst => gives'.bind fun _ hsecond =>
    .pure (formsSound_append.mpr ⟨hfirst, hsecond⟩)

theorem gives_initialValue : Gives window (FormsSound window) initialValue :=
  gives_ifPresent (.skip (.sign rfl) fun _ => gives_single .assignment)

theorem gives_propertyKey : Gives window (Key.Sound window) propertyKey :=
  .oneOf
    ⟨(Gives.lexeme tight_anyName).map fun _ => Key.sound_word.mpr,
      (Gives.lexeme tight_string).map fun _ => Key.sound_quoted.mpr,
      (Gives.lexeme tight_number).map fun _ => Key.sound_number.mpr,
      .skip (.sign rfl) fun _ => Gives.assignment.bind fun _ hvalue => .skip (.sign rfl) fun _ =>
        .pure (Key.sound_computed.mpr hvalue)⟩

/-! ## Patterns -/

theorem gives_patternMember : Gives window (FormsSound window) patternMember :=
  .oneOf
    ⟨.skip givesAny_anyName fun _ => .skip (.sign rfl) fun _ => gives_append .pattern gives_initialValue,
      .skip givesAny_name fun _ => gives_initialValue,
      .skip (.sign rfl) fun _ => .pattern⟩

theorem gives_objectPattern : Gives window (FormsSound window) objectPattern :=
  .skip (.sign rfl) fun _ =>
    (gives_ifPresent (gives_flatten (gives_commaList gives_patternMember))).bind
      fun _ hinside => .skip (.sign rfl) fun _ => .pure hinside

theorem gives_patternElement : Gives window (FormsSound window) patternElement :=
  (gives_append .pattern gives_initialValue).either (Gives.skip (.sign rfl) fun _ => .pattern)

theorem gives_arrayPattern : Gives window (FormsSound window) arrayPattern :=
  .skip (.sign rfl) fun _ => ((gives_ifPresent gives_patternElement).separatedBy (.sign rfl)).bind
    fun _ hinside => .skip (.sign rfl) fun _ => .pure (formsSound_flatten.mpr hinside)

theorem gives_pattern : Gives window (FormsSound window) pattern :=
  .oneOf
    ⟨.skip givesAny_name fun _ => .pure formsSound_nil, gives_objectPattern, gives_arrayPattern⟩

/-! ## Signatures -/

theorem gives_typeAnnotation : Gives window (FormsSound window) typeAnnotation :=
  .skip (.sign rfl) fun _ => .type

theorem gives_typeParameter : Gives window (FormsSound window) typeParameter :=
  .skip givesAny_name fun _ => gives_append (gives_ifPresent (.skip (.keyword rfl) fun _ => .type))
    (gives_ifPresent (.skip (.sign rfl) fun _ => .type))

theorem gives_typeParameters : Gives window (FormsSound window) typeParameters :=
  .skip (.sign rfl) fun _ => (gives_commaList gives_typeParameter).bind fun _ hinside =>
    .skip (.sign rfl) fun _ => .pure (formsSound_flatten.mpr hinside)

theorem gives_parameter : Gives window (FormsSound window) parameter :=
  .oneOf
    ⟨Gives.pattern.bind fun _ hbound => .skip (givesAny_optionalSign rfl) fun _ =>
        (gives_ifPresent gives_typeAnnotation).bind fun _ hannotation =>
          gives_initialValue.bind fun _ hvalue => .pure (by simp [*]),
      .skip (.sign rfl) fun _ => gives_append .pattern (gives_ifPresent gives_typeAnnotation)⟩

theorem gives_parameterList : Gives window (FormsSound window) parameterList :=
  .skip (.sign rfl) fun _ => (gives_ifPresent (gives_flatten (gives_commaList gives_parameter))).bind
    fun _ hinside => .skip (.sign rfl) fun _ => .pure hinside

theorem gives_signature : Gives window (FormsSound window) signature :=
  (gives_ifPresent gives_typeParameters).bind fun _ htypes =>
    gives_parameterList.bind fun _ hparameters =>
      (gives_ifPresent gives_typeAnnotation).bind fun _ hresult => .pure (by simp [*])

/-! ## Types -/

theorem gives_typeArguments : Gives window (FormsSound window) typeArguments :=
  .skip (.sign rfl) fun _ => (Gives.type.separatedBy (.sign rfl)).bind fun _ hinside => .skip (.sign rfl) fun _ =>
    .pure (formsSound_flatten.mpr hinside)

theorem gives_typeMember : Gives window (FormsSound window) typeMember :=
  .oneOf
    ⟨.skip (givesAny_optional (Gives.lexeme tight_modifier).any) fun _ =>
        gives_propertyKey.bind fun _ hkey => .skip (givesAny_optionalSign rfl) fun _ =>
          .skip (.sign rfl) fun _ => Gives.type.bind fun _ htype =>
            .pure (formsSound_append.mpr ⟨hkey.2, htype⟩),
      gives_propertyKey.bind fun _ hkey => .skip (givesAny_optionalSign rfl) fun _ =>
        gives_signature.bind fun _ hhead => .pure (formsSound_append.mpr ⟨hkey.2, hhead⟩),
      .skip (.sign rfl) fun _ => .skip givesAny_name fun _ => .skip (.sign rfl) fun _ =>
        Gives.type.bind fun _ hkey => .skip (.sign rfl) fun _ => .skip (.sign rfl) fun _ =>
          Gives.type.bind fun _ htype => .pure (formsSound_append.mpr ⟨hkey, htype⟩)⟩

theorem givesAny_memberSeparator : GivesAny window memberSeparator :=
  .oneOf ⟨.sign rfl, .sign rfl, .nothing trivial⟩

theorem gives_objectType : Gives window (FormsSound window) objectType :=
  .skip (.sign rfl) fun _ =>
    (gives_ifPresent ((gives_typeMember.separatedBy givesAny_memberSeparator).bind
      fun _ hmembers => .skip givesAny_memberSeparator fun _ =>
        .pure (formsSound_flatten.mpr hmembers))).bind
    fun _ hinside => .skip (.sign rfl) fun _ => .pure hinside

theorem gives_primaryType : Gives window (FormsSound window) primaryType :=
  .oneOf
    ⟨.skip (givesAny_anyName.separatedBy (.sign rfl)).any fun _ => gives_ifPresent gives_typeArguments,
      .skip (Gives.lexeme tight_string).any fun _ => .pure formsSound_nil,
      .skip (Gives.lexeme tight_number).any fun _ => .pure formsSound_nil,
      .skip (Gives.lexeme tight_template).any fun _ => .pure formsSound_nil,
      gives_objectType,
      .skip (.sign rfl) fun _ => (gives_ifPresent (gives_flatten (gives_commaList .type))).bind
        fun _ hinside => .skip (.sign rfl) fun _ => .pure hinside,
      .skip (.sign rfl) fun _ => Gives.type.bind fun _ hinside => .skip (.sign rfl) fun _ => .pure hinside,
      (gives_ifPresent gives_typeParameters).bind fun _ htypes =>
        gives_parameterList.bind fun _ hparameters => .skip (.sign rfl) fun _ =>
          Gives.type.bind fun _ hresult => .pure (by simp [*]),
      .skip (.keyword rfl) fun _ => gives_single .call⟩

theorem gives_typeTerm : Gives window (FormsSound window) typeTerm :=
  .skip (givesAny_optionalKeyword rfl) fun _ => gives_primaryType.bind fun _ hfirst =>
    (Gives.many (.skip (.sign rfl) fun _ => (gives_ifPresent .type).bind fun _ hindex =>
      .skip (.sign rfl) fun _ => .pure hindex)).bind
    fun _ hindices => .pure (formsSound_append.mpr ⟨hfirst, formsSound_flatten.mpr hindices⟩)

theorem gives_type : Gives window (FormsSound window) type :=
  .skip (givesAny_optionalSign rfl) fun _ => (gives_typeTerm.separatedBy (.either (.sign rfl) (.sign rfl))).bind
    fun _ hterms => .pure (formsSound_flatten.mpr hterms)

/-! ## Functions -/

/-- A function is read with a head and a body. -/
theorem soundWith_functionForm {head : List Form} {body : Form} (hhead : FormsSound window head)
    (hbody : body.Sound window) (slice : Slice) :
    SoundWith window slice (functionForm head body slice) :=
  ⟨rfl, fun hcut => Form.sound_function.mpr ⟨hcut, hhead, hbody⟩⟩

/-- A plain form is read with the forms inside. -/
theorem soundWith_plain {inside : List Form} (hinside : FormsSound window inside) (slice : Slice) :
    SoundWith window slice (.plain slice inside) :=
  ⟨rfl, fun hcut => Form.sound_plain.mpr ⟨hcut, hinside⟩⟩

theorem gives_plain {reader : Reader (List Form)} (gives : Gives window (FormsSound window) reader) :
    Gives window (fun make => ∀ slice, SoundWith window slice (make slice))
      (do
        let inside ← reader
        return (Form.plain · inside)) :=
  gives.bind fun _ hinside => .pure (soundWith_plain hinside)

/-- The parameters and the body of a function. -/
theorem gives_functionTail :
    Gives window (fun make => ∀ slice, SoundWith window slice (make slice))
      (do
        let head ← signature
        return functionForm head (← Reader.block)) :=
  gives_signature.bind fun _ hhead => Gives.block.bind fun _ hbody =>
    .pure (soundWith_functionForm hhead hbody)

theorem mayLead_optionalKeyword {spelling : String} (h : opensExpression spelling = true) :
    MayLeadIn window (optionalKeyword spelling) :=
  .orNothing (.keyword h)

theorem gives_functionDeclaration : GivesForm window functionDeclaration :=
  .sliced (.behind (mayLead_optionalKeyword rfl) fun _ => .bind (.keyword rfl)) <|
    .skip (givesAny_optionalKeyword rfl) fun _ => .skip (.keyword rfl) fun _ =>
      .skip (givesAny_optionalSign rfl) fun _ => .skip givesAny_name fun _ => gives_functionTail

theorem gives_functionExpression : GivesForm window functionExpression :=
  .sliced (.behind (mayLead_optionalKeyword rfl) fun _ => .bind (.keyword rfl)) <|
    .skip (givesAny_optionalKeyword rfl) fun _ => .skip (.keyword rfl) fun _ =>
      .skip (givesAny_optionalSign rfl) fun _ => .skip (givesAny_optional givesAny_name) fun _ =>
        gives_functionTail

theorem gives_arrowParameters : Gives window (FormsSound window) arrowParameters :=
  .either (.skip givesAny_name fun _ => .pure formsSound_nil)
    (gives_append (gives_ifPresent gives_typeParameters) gives_parameterList)

theorem leads_arrowParameters : LeadsIn window arrowParameters :=
  .either (.bind (.lexeme tight_name ⟨fun _ => rfl, fun _ => rfl⟩))
    (.behind (.orNothing (.bind (.sign rfl))) fun _ => .bind (.bind (.sign rfl)))

theorem gives_arrowFunction : GivesForm window arrowFunction :=
  .sliced (.behind (mayLead_optionalKeyword rfl) fun _ => .bind leads_arrowParameters) <|
    .skip (givesAny_optionalKeyword rfl) fun _ => gives_arrowParameters.bind fun _ hparameters =>
      (gives_ifPresent gives_typeAnnotation).bind fun _ hresult => .skip (.sign rfl) fun _ =>
        (Gives.block.either Gives.assignment).bind fun _ hbody =>
          .pure (soundWith_functionForm (formsSound_append.mpr ⟨hparameters, hresult⟩) hbody)

theorem givesAny_methodModifier : GivesAny window methodModifier :=
  .oneOf
    ⟨Gives.skip (Gives.lexeme tight_modifier).any fun _ => .pure trivial, .keyword rfl,
      Gives.skip (Gives.lexeme tight_accessor).any fun _ => .pure trivial, .sign rfl⟩

theorem leads_methodModifier : LeadsIn window methodModifier :=
  .oneOf
    ⟨.bind (.lexeme tight_modifier ⟨fun _ => rfl, fun _ => rfl⟩), .keyword rfl,
      .bind (.lexeme tight_accessor ⟨fun _ => rfl, fun _ => rfl⟩), .sign rfl⟩

theorem leads_propertyKey : LeadsIn window propertyKey :=
  .oneOf
    ⟨.bind (.lexeme tight_anyName ⟨fun _ => rfl, fun _ => rfl⟩), .bind (.lexeme tight_string ⟨fun _ => rfl, fun _ => rfl⟩),
      .bind (.lexeme tight_number ⟨fun _ => rfl, fun _ => rfl⟩), .bind (.sign rfl)⟩

theorem gives_method : GivesForm window method :=
  .sliced (.behind (.many leads_methodModifier) fun _ => .bind leads_propertyKey) <|
    .skip (Gives.many givesAny_methodModifier).any fun _ => gives_propertyKey.bind fun _ hkey =>
      gives_signature.bind fun _ hhead => Gives.block.bind fun _ hbody =>
        .pure (soundWith_functionForm (formsSound_append.mpr ⟨hkey.2, hhead⟩) hbody)

/-! ## Classes -/

theorem gives_classField : Gives window (FormsSound window) classField :=
  .skip (Gives.many (Gives.lexeme tight_modifier)).any fun _ => gives_propertyKey.bind fun _ hkey =>
    .skip (givesAny_optional (.either (.sign rfl) (.sign rfl))) fun _ =>
      (gives_ifPresent gives_typeAnnotation).bind fun _ hannotation =>
        gives_initialValue.bind fun _ hvalue => .skip (givesAny_optionalSign rfl) fun _ =>
          .pure (by simp [hkey.2, hannotation, hvalue])

theorem gives_classMember : Gives window (FormsSound window) classMember :=
  .oneOf
    ⟨gives_single gives_method.gives, gives_classField,
      .skip (.sign rfl) fun _ => .pure formsSound_nil⟩

theorem gives_classTail : Gives window (FormsSound window) classTail :=
  (gives_ifPresent gives_typeParameters).bind fun _ htypes =>
    (gives_ifPresent (.skip (.keyword rfl) fun _ => Gives.call.bind fun _ hparent =>
      (gives_ifPresent gives_typeArguments).bind fun _ harguments =>
        .pure (formsSound_cons.mpr ⟨hparent, harguments⟩))).bind fun _ hparent =>
    (gives_ifPresent (.skip (.keyword rfl) fun _ => gives_flatten (Gives.type.separatedBy (.sign rfl)))).bind
      fun _ hinterfaces => .skip (.sign rfl) fun _ => (Gives.many gives_classMember).bind
        fun _ hmembers => .skip (.sign rfl) fun _ =>
          .pure (by simpa [htypes, hparent, hinterfaces] using hmembers)

theorem gives_classDeclaration : GivesForm window classDeclaration :=
  .sliced (.bind (.keyword rfl)) <|
    .skip (.keyword rfl) fun _ => .skip givesAny_name fun _ => gives_plain gives_classTail

theorem gives_classExpression : GivesForm window classExpression :=
  .sliced (.bind (.keyword rfl)) <|
    .skip (.keyword rfl) fun _ => .skip (givesAny_optional givesAny_name) fun _ =>
      gives_plain gives_classTail

/-! ## Objects, arrays and arguments -/

theorem gives_spread : Gives window (Form.Sound window) spread :=
  .skip (.sign rfl) fun _ => .assignment

/-- A member of which only the form inside is kept. -/
theorem gives_otherMember {reader : Reader Form} (gives : Gives window (Form.Sound window) reader) :
    Gives window (Member.Sound window) (do return .other [← reader]) :=
  gives.bind fun _ hform =>
    .pure (Member.sound_other.mpr (formsSound_cons.mpr ⟨hform, formsSound_nil⟩))

theorem gives_objectMember : Gives window (Member.Sound window) objectMember :=
  .oneOf
    ⟨gives_propertyKey.bind fun _ hkey => .skip (.sign rfl) fun _ => Gives.assignment.bind
        fun _ hvalue => .pure (Member.sound_property.mpr ⟨hkey, hvalue⟩),
      .skip givesAny_name fun _ => .pure (Member.sound_other.mpr formsSound_nil),
      gives_otherMember gives_spread,
      gives_otherMember gives_method.gives⟩

theorem gives_object : GivesForm window object :=
  .sliced (.bind (.sign rfl)) <| .skip (.sign rfl) fun _ =>
    ((gives_commaList gives_objectMember).either (.nothing (by simp))).bind
      fun _ hmembers => .skip (.sign rfl) fun _ =>
        .pure fun _ => ⟨rfl, fun hcut => Form.sound_object.mpr ⟨hcut, hmembers⟩⟩

theorem gives_element : Gives window (Form.Sound window) element :=
  Gives.assignment.either gives_spread

theorem gives_array : GivesForm window array :=
  .sliced (.bind (.sign rfl)) <| .skip (.sign rfl) fun _ =>
    ((gives_ifPresent (gives_single gives_element)).separatedBy (.sign rfl)).bind fun _ hinside =>
      .skip (.sign rfl) fun _ => .pure (soundWith_plain (formsSound_flatten.mpr hinside))

theorem gives_arguments : Gives window (FormsSound window) arguments :=
  .skip (.sign rfl) fun _ => ((gives_commaList gives_element).either (.nothing (by simp))).bind
    fun _ hinside => .skip (.sign rfl) fun _ => .pure (formsSound_iff.mpr hinside)

theorem gives_group : GivesForm window group :=
  .sliced (.bind (.sign rfl)) <| .skip (.sign rfl) fun _ => Gives.expression.bind fun _ hinner =>
    .skip (.sign rfl) fun _ => .pure fun _ => ⟨rfl, fun hcut => Form.sound_group.mpr ⟨hcut, hinner⟩⟩

/-! ## From primary expressions to sequences -/

theorem gives_plainLexeme {taken : Lexeme} (tight : taken.Tight) (mayLead : taken.MayLead) :
    GivesForm window (plainLexeme taken) :=
  .lexeme tight mayLead fun slice _ => soundWith_plain formsSound_nil slice

theorem gives_primary : GivesForm window primary :=
  .oneOf
    ⟨gives_plainLexeme tight_name ⟨fun _ => rfl, fun _ => rfl⟩,
      .lexeme tight_number ⟨fun _ => rfl, fun _ => rfl⟩ fun _ htakes =>
        ⟨rfl, fun hcut => Form.sound_number.mpr ⟨hcut, htakes⟩⟩,
      .lexeme tight_string ⟨fun _ => rfl, fun _ => rfl⟩ fun _ htakes =>
        ⟨rfl, fun hcut => Form.sound_string.mpr ⟨hcut, htakes⟩⟩,
      gives_plainLexeme tight_template ⟨fun _ => rfl, fun _ => rfl⟩,
      .lexeme tight_boolean ⟨fun _ => rfl, fun _ => rfl⟩ fun _ htakes =>
        ⟨rfl, fun hcut => Form.sound_boolean.mpr ⟨hcut, htakes⟩⟩,
      gives_plainLexeme (tight_keyword (by decide)) (mayLead_keyword rfl),
      gives_plainLexeme (tight_keyword (by decide)) (mayLead_keyword rfl),
      gives_plainLexeme (tight_keyword (by decide)) (mayLead_keyword rfl),
      .object, gives_array, gives_group, gives_functionExpression, gives_classExpression,
      .markup⟩

theorem gives_newInstance : GivesForm window newInstance :=
  .sliced (.bind (.keyword rfl)) <| .skip (.keyword rfl) fun _ => Gives.call.bind fun _ hmade =>
    (gives_ifPresent gives_arguments).bind fun _ hinside =>
      .pure (soundWith_plain (formsSound_cons.mpr ⟨hmade, hinside⟩))

theorem gives_callTail : Gives window (FormsSound window) callTail :=
  .oneOf
    ⟨.skip (.either (.sign rfl) (.sign rfl)) fun _ => .skip givesAny_anyName fun _ => .pure formsSound_nil,
      .skip (givesAny_optionalSign rfl) fun _ => .skip (.sign rfl) fun _ => Gives.expression.bind
        fun _ hindex => .skip (.sign rfl) fun _ => .pure (formsSound_cons.mpr ⟨hindex, formsSound_nil⟩),
      .skip (givesAny_optionalSign rfl) fun _ =>
        gives_append (gives_ifPresent gives_typeArguments) gives_arguments,
      .skip (Gives.lexeme tight_template).any fun _ => .pure formsSound_nil,
      .skip (.sign rfl) fun _ => .pure formsSound_nil⟩

theorem gives_call : GivesForm window call :=
  .iterate (.either gives_primary gives_newInstance) gives_callTail

theorem gives_updateTail : Gives window (FormsSound window) updateTail :=
  .skip (Gives.lexeme tight_update).any fun _ => .pure formsSound_nil

theorem gives_signedUnary : GivesForm window signedUnary := by
  refine .sliced (.bind (.lexeme tight_unary ⟨fun _ => rfl, fun _ => rfl⟩)) <|
    .skip (Gives.lexeme tight_unary).any fun sign => Gives.unary.bind fun form hform =>
      .pure fun slice => ?_
  split
  next hsign =>
    refine ⟨rfl, fun hcut => Form.sound_signed.mpr ⟨hcut, ?_, hform⟩⟩
    simpa using hsign
  next => exact soundWith_plain (formsSound_cons.mpr ⟨hform, formsSound_nil⟩) slice

theorem gives_awaited : GivesForm window awaited :=
  .sliced (.bind (.keyword rfl)) <| .skip (.keyword rfl) fun _ => Gives.unary.bind fun _ hform =>
    .pure (soundWith_plain (formsSound_cons.mpr ⟨hform, formsSound_nil⟩))

theorem gives_unary : GivesForm window unary :=
  .oneOf ⟨.maybeMore .call gives_updateTail, gives_signedUnary, gives_awaited⟩

theorem gives_typeTail : Gives window (FormsSound window) typeTail :=
  .skip (.either (.keyword rfl) (.keyword rfl)) fun _ => .type

theorem gives_operand : GivesForm window operand :=
  .maybeMore .unary gives_typeTail

theorem gives_operandTail : Gives window (FormsSound window) operandTail :=
  .skip (Gives.lexeme tight_binary).any fun _ => gives_single .operand

theorem gives_binary : GivesForm window binary :=
  .iterate .operand gives_operandTail

theorem gives_choiceTail : Gives window (FormsSound window) choiceTail :=
  .skip (.sign rfl) fun _ => Gives.assignment.bind fun _ hpositive => .skip (.sign rfl) fun _ =>
    Gives.assignment.bind fun _ hnegative => .pure (by simp [hpositive, hnegative])

theorem gives_assignmentTail : Gives window (FormsSound window) assignmentTail :=
  .skip (Gives.lexeme tight_assignment).any fun _ => gives_single .assignment

theorem gives_yielded : GivesForm window yielded :=
  .sliced (.bind (.keyword rfl)) <| .skip (.keyword rfl) fun _ => .skip (givesAny_optionalSign rfl) fun _ =>
    gives_plain (gives_ifPresent (gives_single .assignment))

theorem gives_assignment : GivesForm window assignment :=
  .oneOf
    ⟨gives_binary.maybeMore gives_choiceTail, gives_arrowFunction,
      .extending .call gives_assignmentTail, gives_yielded⟩

theorem gives_commaTail : Gives window (FormsSound window) commaTail :=
  .skip (.sign rfl) fun _ => gives_single .assignment

theorem gives_expression : GivesForm window expression :=
  .iterate .assignment gives_commaTail

/-! ## Imports, exports and declarations -/

theorem givesAny_importNames : GivesAny window importNames :=
  .skip (.sign rfl) fun _ =>
    .skip (givesAny_optional (givesAny_commaList (.skip (givesAny_optionalKeyword rfl) fun _ =>
      .skip givesAny_anyName fun _ =>
        .skip (givesAny_optional (.skip (.keyword rfl) fun _ => givesAny_name)) fun _ =>
          .pure trivial))) fun _ => .sign rfl

theorem givesAny_importClause : GivesAny window importClause :=
  .oneOf
    ⟨.skip (givesAny_optionalKeyword rfl) fun _ => .skip givesAny_name fun _ =>
        .skip (givesAny_optional (.skip (.sign rfl) fun _ => givesAny_importNames)) fun _ =>
          .pure trivial,
      .skip (givesAny_optionalKeyword rfl) fun _ => givesAny_importNames,
      .skip (.sign rfl) fun _ => .skip (.keyword rfl) fun _ => .skip givesAny_name fun _ => .pure trivial⟩

theorem gives_importDeclaration : Gives window (FormsSound window) importDeclaration :=
  .skip (.keyword rfl) fun _ =>
    .skip (givesAny_optional (.skip givesAny_importClause fun _ => .keyword rfl)) fun _ =>
      .skip (Gives.lexeme tight_string).any fun _ => .skip (givesAny_optionalSign rfl) fun _ =>
        .pure formsSound_nil

theorem gives_declarator : Gives window (FormsSound window) declarator :=
  Gives.pattern.bind fun _ hbound => .skip (givesAny_optionalSign rfl) fun _ =>
    (gives_ifPresent gives_typeAnnotation).bind fun _ hannotation =>
      gives_initialValue.bind fun _ hvalue => .pure (by simp [*])

theorem gives_variableHead : Gives window (FormsSound window) variableHead :=
  .skip (Gives.lexeme tight_variableKind).any fun _ =>
    gives_flatten (gives_declarator.separatedBy (.sign rfl))

theorem leads_variableDeclaration : LeadsIn window variableDeclaration :=
  .bind (.bind (.lexeme tight_variableKind ⟨fun _ => rfl, fun _ => rfl⟩))

theorem gives_variableDeclaration : Gives window (FormsSound window) variableDeclaration :=
  gives_variableHead.bind fun _ hinside => .skip (givesAny_optionalSign rfl) fun _ => .pure hinside

theorem gives_typeDeclaration : Gives window (FormsSound window) typeDeclaration :=
  .skip (.keyword rfl) fun _ => .skip givesAny_name fun _ =>
    (gives_ifPresent gives_typeParameters).bind fun _ htypes => .skip (.sign rfl) fun _ =>
      Gives.type.bind fun _ hmeaning => .skip (givesAny_optionalSign rfl) fun _ =>
        .pure (formsSound_append.mpr ⟨htypes, hmeaning⟩)

theorem gives_interfaceDeclaration : Gives window (FormsSound window) interfaceDeclaration :=
  .skip (.keyword rfl) fun _ => .skip givesAny_name fun _ =>
    (gives_ifPresent gives_typeParameters).bind fun _ htypes =>
      (gives_ifPresent (.skip (.keyword rfl) fun _ =>
        gives_flatten (Gives.type.separatedBy (.sign rfl)))).bind
      fun _ hparents => gives_objectType.bind fun _ hmembers => .pure (by simp [*])

theorem gives_exportClause : Gives window (FormsSound window) exportClause :=
  .oneOf
    ⟨.skip (.keyword rfl) fun _ => .oneOf
        ⟨gives_single gives_functionDeclaration.gives, gives_single gives_classDeclaration.gives,
          Gives.expression.bind fun _ hvalue => .skip (givesAny_optionalSign rfl) fun _ =>
            .pure (formsSound_cons.mpr ⟨hvalue, formsSound_nil⟩)⟩,
      gives_variableDeclaration,
      gives_single gives_functionDeclaration.gives,
      gives_single gives_classDeclaration.gives,
      gives_typeDeclaration,
      gives_interfaceDeclaration,
      .skip (givesAny_optionalKeyword rfl) fun _ => .skip givesAny_importNames fun _ =>
        .skip (givesAny_optional (.skip (.keyword rfl) fun _ => (Gives.lexeme tight_string).any)) fun _ =>
          .skip (givesAny_optionalSign rfl) fun _ => .pure formsSound_nil,
      .skip (.sign rfl) fun _ => .skip (givesAny_optional (.skip (.keyword rfl) fun _ => givesAny_anyName))
        fun _ => .skip (.keyword rfl) fun _ => .skip (Gives.lexeme tight_string).any fun _ =>
          .skip (givesAny_optionalSign rfl) fun _ => .pure formsSound_nil⟩

theorem gives_exportDeclaration : Gives window (FormsSound window) exportDeclaration :=
  .skip (.keyword rfl) fun _ => gives_exportClause

/-! ## Control -/

theorem gives_returnStatement : GivesForm window returnStatement := by
  refine .sliced (.bind (.keyword rfl)) <| .skip (.keyword rfl) fun _ => Gives.expression.optional.bind
    fun value hvalue => .skip (givesAny_optionalSign rfl) fun _ => .pure fun slice => ?_
  cases value with
  | none => exact ⟨rfl, Form.sound_returnedNothing.mpr⟩
  | some form => exact ⟨rfl, fun hcut => Form.sound_returned.mpr ⟨hcut, hvalue form rfl⟩⟩

theorem gives_condition : Gives window (Form.Sound window) condition :=
  .skip (.sign rfl) fun _ => Gives.expression.bind fun _ hform => .skip (.sign rfl) fun _ => .pure hform

theorem gives_ifStatement : Gives window (FormsSound window) ifStatement :=
  .skip (.keyword rfl) fun _ => gives_condition.bind fun _ htest =>
    Gives.statement.bind fun _ hpositive =>
      (gives_ifPresent (.skip (.keyword rfl) fun _ => gives_single .statement)).bind fun _ hnegative =>
        .pure (by simp [*])

theorem gives_forHead : Gives window (FormsSound window) forHead :=
  .oneOf
    ⟨(gives_ifPresent (gives_variableHead.either (gives_single .expression))).bind
        fun _ hstart => .skip (.sign rfl) fun _ =>
          (gives_ifPresent (gives_single .expression)).bind fun _ htest => .skip (.sign rfl) fun _ =>
            (gives_ifPresent (gives_single .expression)).bind fun _ hstep => .pure (by simp [*]),
      (Gives.either (.skip (Gives.lexeme tight_variableKind).any fun _ => .pattern)
        (gives_single .call)).bind fun _ hbound => .skip (.either (.keyword rfl) (.keyword rfl)) fun _ =>
          Gives.expression.bind fun _ hvalue => .pure (by simp [*])⟩

theorem gives_forStatement : Gives window (FormsSound window) forStatement :=
  .skip (.keyword rfl) fun _ => .skip (givesAny_optionalKeyword rfl) fun _ => .skip (.sign rfl) fun _ =>
    gives_forHead.bind fun _ hhead => .skip (.sign rfl) fun _ =>
      Gives.statement.bind fun _ hbody => .pure (by simp [*])

theorem gives_whileStatement : Gives window (FormsSound window) whileStatement :=
  .oneOf
    ⟨.skip (.keyword rfl) fun _ => gives_condition.bind fun _ htest => Gives.statement.bind
        fun _ hbody => .pure (by simp [*]),
      .skip (.keyword rfl) fun _ => Gives.statement.bind fun _ hbody => .skip (.keyword rfl) fun _ =>
        gives_condition.bind fun _ htest => .skip (givesAny_optionalSign rfl) fun _ =>
          .pure (by simp [*])⟩

theorem gives_tryStatement : Gives window (FormsSound window) tryStatement :=
  .skip (.keyword rfl) fun _ => Gives.block.bind fun _ hbody =>
    (gives_ifPresent (.skip (.keyword rfl) fun _ =>
      (gives_ifPresent (.skip (.sign rfl) fun _ => Gives.pattern.bind fun _ hbound =>
        (gives_ifPresent gives_typeAnnotation).bind fun _ hannotation => .skip (.sign rfl) fun _ =>
          .pure (formsSound_append.mpr ⟨hbound, hannotation⟩))).bind fun _ hbound =>
        Gives.block.bind fun _ hblock => .pure (by simp [*]))).bind fun _ hhandler =>
    (gives_ifPresent (.skip (.keyword rfl) fun _ => gives_single .block)).bind fun _ hfinal =>
      .pure (by simp [*])

theorem gives_switchCase : Gives window (FormsSound window) switchCase :=
  (Gives.either (.skip (.keyword rfl) fun _ => gives_single .expression)
    (.skip (.keyword rfl) fun _ => .pure formsSound_nil)).bind fun _ hlabel => .skip (.sign rfl) fun _ =>
      Gives.statement.many.bind fun _ hstatements =>
        .pure (formsSound_append.mpr ⟨hlabel, formsSound_iff.mpr hstatements⟩)

theorem gives_switchStatement : Gives window (FormsSound window) switchStatement :=
  .skip (.keyword rfl) fun _ => gives_condition.bind fun _ hsubject => .skip (.sign rfl) fun _ =>
    gives_switchCase.many.bind fun _ hcases => .skip (.sign rfl) fun _ =>
      .pure (formsSound_cons.mpr ⟨hsubject, formsSound_flatten.mpr hcases⟩)

theorem gives_throwStatement : Gives window (FormsSound window) throwStatement :=
  .skip (.keyword rfl) fun _ => Gives.expression.bind fun _ hform =>
    .skip (givesAny_optionalSign rfl) fun _ => .pure (formsSound_cons.mpr ⟨hform, formsSound_nil⟩)

theorem gives_jumpStatement : Gives window (FormsSound window) jumpStatement :=
  .skip (.either (.keyword rfl) (.keyword rfl)) fun _ => .skip (givesAny_optional givesAny_name) fun _ =>
    .skip (givesAny_optionalSign rfl) fun _ => .pure formsSound_nil

theorem gives_block : GivesForm window block :=
  .sliced (.bind (.sign rfl)) <| .skip (.sign rfl) fun _ => Gives.statement.many.bind fun _ hstatements =>
    .skip (.sign rfl) fun _ => .pure fun _ =>
      ⟨rfl, fun hcut => Form.sound_block.mpr ⟨hcut, formsSound_iff.mpr hstatements⟩⟩

theorem gives_expressionStatement : Gives window (FormsSound window) expressionStatement :=
  .counted <| Gives.expression.bind fun _ hform => .skip (givesAny_optionalSign rfl) fun _ =>
    .pure (formsSound_cons.mpr ⟨hform, formsSound_nil⟩)

theorem gives_plainStatement {reader : Reader (List Form)} (leads : LeadsIn window reader)
    (gives : Gives window (FormsSound window) reader) : GivesForm window (plainStatement reader) :=
  .sliced (.bind leads) (gives_plain gives)

theorem gives_statement : GivesForm window statement :=
  .oneOf
    ⟨gives_plainStatement (.bind (.keyword rfl)) gives_importDeclaration,
      gives_plainStatement (.bind (.keyword rfl)) gives_exportDeclaration,
      gives_plainStatement leads_variableDeclaration gives_variableDeclaration,
      gives_functionDeclaration,
      gives_classDeclaration,
      gives_plainStatement (.bind (.keyword rfl)) gives_typeDeclaration,
      gives_plainStatement (.bind (.keyword rfl)) gives_interfaceDeclaration,
      gives_returnStatement,
      gives_plainStatement (.bind (.keyword rfl)) gives_ifStatement,
      gives_plainStatement (.bind (.keyword rfl)) gives_forStatement,
      gives_plainStatement (.either (.bind (.keyword rfl)) (.bind (.keyword rfl))) gives_whileStatement,
      gives_plainStatement (.bind (.keyword rfl)) gives_tryStatement,
      gives_plainStatement (.bind (.keyword rfl)) gives_switchStatement,
      gives_plainStatement (.bind (.keyword rfl)) gives_throwStatement,
      gives_plainStatement (.bind (.either (.keyword rfl) (.keyword rfl))) gives_jumpStatement,
      .block,
      gives_plainStatement (.counted (.bind GivesForm.expression.leads))
        gives_expressionStatement,
      gives_plainStatement (.bind (.sign rfl)) (.skip (.sign rfl) fun _ => .pure formsSound_nil)⟩

end Rule

end EditableMarkup.Grammar
