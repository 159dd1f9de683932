import EditableMarkup.Proofs.Reading.Bodies

/-!
# Functions that return an expression

A component is a function that returns markup: it is declared, or it is an
arrow function that a variable is set to.  Both secure what they return.  The
declaration of the variable may also end at its name, but no statement goes on
with an equals sign.
-/

namespace EditableMarkup.Grammar.Reader

open Place Rule

section Component

variable {name value rest : List Char} {kind : Form → Prop} {part : Nat → Prop}

/-! ## Declared functions -/

/-- A form is a function without parameters whose body is of some kind. -/
def IsFunction (kind : Form → Prop) (form : Form) : Prop :=
  ∃ slice inner, form = .function slice [] inner ∧ kind inner

/-- A function that is declared and returns a value. -/
def functionText (name value rest : List Char) : List Char :=
  ['f', 'u', 'n', 'c', 't', 'i', 'o', 'n'] ++ ' ' :: (name ++ '(' :: ')' :: body value rest)

theorem statement_function (name value rest : List Char) : ∀ other ∈ statementTable,
    other = (functionDeclaration, [Lexeme.keyword "async", Lexeme.keyword "function"]) ∨
      Barred other.2 (functionText name value rest) := by
  intro other hother
  simp only [statementTable, List.mem_cons, List.not_mem_nil, or_false] at hother
  rcases hother with rfl | rfl | rfl | rfl | rfl | rfl | rfl | rfl | rfl | rfl | rfl | rfl | rfl |
    rfl | rfl | rfl
  case inr.inr.inr.inl => exact Or.inl rfl
  all_goals
    refine Or.inr ?_
    simp only [barred_cons, barred_nil, and_true]
    and_intros <;> rfl

theorem primary_function (name value rest : List Char) : ∀ other ∈ primaryTable,
    other = (functionExpression, [Lexeme.keyword "async", Lexeme.keyword "function"]) ∨
      Barred other.2 (functionText name value rest) := by
  intro other hother
  simp only [primaryTable, List.mem_cons, List.not_mem_nil, or_false] at hother
  rcases hother with rfl | rfl | rfl | rfl | rfl | rfl | rfl | rfl | rfl | rfl | rfl | rfl | rfl | rfl
  case inr.inr.inr.inr.inr.inr.inr.inr.inr.inr.inr.inl => exact Or.inl rfl
  all_goals
    refine Or.inr ?_
    simp only [barred_cons, barred_nil, and_true]
    rfl

theorem free_function (name value rest : List Char) :
    Barred (operatorFirst ++ arrowFirst) (functionText name value rest) := by
  simp only [operatorFirst, arrowFirst, List.cons_append, List.nil_append, barred_cons, barred_nil,
    and_true]
  and_intros <;> rfl

/-- What stands behind the word `function` is a name and not an asterisk. -/
theorem settles_functionWord {place : Place}
    (shows_ : place.Shows (functionText name value rest)) :
    Fails (Reader.keyword "async") place ∧
      Settles True (Reader.keyword "function") place (0 + 8) (fun _ => True) ∧
      place.advance (0 + 8) = of (' ' :: (name ++ '(' :: ')' :: body value rest)) := by
  have hfaces : place.Faces 0 (functionText name value rest) := .of_shows shows_ rfl
  refine ⟨starts_keyword rfl _ _ _ hfaces (barred_singleton.mpr rfl), settles_keyword hfaces rfl rfl, ?_⟩
  rw [hfaces.advance (by omega)]
  rfl

/-- A declared function secures what it returns. -/
theorem Enclosed.functionDeclaration (closing : Closing part)
    (enclosed : Enclosed value (';' :: ' ' :: '\x7d' :: rest) kind part)
    (hname : Lexeme.name name = some name.length) {place : Place}
    (shows_ : place.Shows (functionText name value rest)) :
    Secures functionDeclaration place
      (0 + (0 + 8 + (0 + (1 + name.length + (0 + 2 + bodyLength value.length)))))
      (IsFunction (Returns kind)) part := by
  obtain ⟨hasync, hword, hadvance⟩ := settles_functionWord shows_
  have hfaces := faces_name hname ('(' :: ')' :: body value rest)
  have hstar : Fails (Reader.sign "*") (of (' ' :: (name ++ '(' :: ')' :: body value rest))) :=
    starts_sign rfl _ _ _ hfaces (barred_singleton.mpr (sign_name hname rfl _))
  refine Secures.sliced ((Offers.missing hasync).bindSecures fun _ _ => ?_)
  refine hword.bindSecures fun _ _ => ?_
  rw [hadvance]
  refine (Offers.missing hstar).bindSecures fun _ _ => ?_
  refine (settles_name hname rfl hfaces).bindSecures fun _ _ => ?_
  rw [hfaces.advance (by omega), List.drop_left]
  exact enclosed.signed closing fun form hform slice => ⟨slice, form, rfl, hform⟩

/-- As an expression, the function leads into the part, too. -/
theorem Enclosed.passes_functionExpression (closing : Closing part)
    (enclosed : Enclosed value (';' :: ' ' :: '\x7d' :: rest) kind part)
    (hname : Lexeme.name name = some name.length) {place : Place}
    (shows_ : place.Shows (functionText name value rest)) :
    Passes functionExpression place part := by
  obtain ⟨hasync, hword, hadvance⟩ := settles_functionWord shows_
  have hfaces := faces_name hname ('(' :: ')' :: body value rest)
  have hstar : Fails (Reader.sign "*") (of (' ' :: (name ++ '(' :: ')' :: body value rest))) :=
    starts_sign rfl _ _ _ hfaces (barred_singleton.mpr (sign_name hname rfl _))
  refine Passes.sliced ((Offers.missing hasync).bindPasses fun _ _ => ?_)
  refine hword.bindPasses fun _ _ => ?_
  rw [hadvance]
  refine (Offers.missing hstar).bindPasses fun _ _ => passes_bind fun found hfound => ?_
  obtain ⟨reader, hreader, hreads⟩ := exists_of_reads_oneOf hfound
  simp only [List.mem_cons, List.not_mem_nil, or_false] at hreader
  rcases hreader with rfl | rfl
  · obtain ⟨word, hreadsName, hused, _⟩ := exists_of_reads_map hreads
    rw [hused, (settles_name hname rfl hfaces).used_eq hreadsName, advance_zero,
      hfaces.advance (by omega), List.drop_left]
    exact (@Enclosed.signed _ _ _ _ closing enclosed _
      (fun head form slice => functionForm head form slice) (fun _ => True)
      fun _ _ => trivial).passes
  · rw [reads_nothing.mp hreads]
    refine (fails_bind (starts_signature _ _ _ hfaces ?_)).passes
    simp only [barred_cons, barred_nil, and_true]
    exact ⟨sign_name hname rfl _, sign_name hname rfl _⟩

theorem length_body (value rest : List Char) :
    (body value rest).length = bodyLength value.length + rest.length := by
  simp only [body, returning, bodyLength, List.length_cons, List.length_append, List.length_nil]
  omega

/-- The declaration of a function is secured as a statement. -/
theorem Enclosed.functionStatement (closing : Closing part)
    (enclosed : Enclosed value (';' :: ' ' :: '\x7d' :: rest) kind part)
    (hname : Lexeme.name name = some name.length) :
    Secures Reader.statement (of (functionText name value rest))
      ((functionText name value rest).length - rest.length) (IsFunction (Returns kind)) part := by
  have hne : functionText name value rest ≠ [] := List.cons_ne_nil _ _
  have hfaces : (of (functionText name value rest)).Faces 0 (functionText name value rest) :=
    .of_firm rfl
  have hlength : (functionText name value rest).length - rest.length =
      0 + (0 + 8 + (0 + (1 + name.length + (0 + 2 + bodyLength value.length)))) := by
    simp only [functionText, List.length_append, List.length_cons, List.length_nil, length_body]
    omega
  have hdeclaration := enclosed.functionDeclaration closing hname
    (shows_atStatement (functionText name value rest))
  rw [hlength]
  refine ⟨?_, ?_⟩
  · exact Reader.keeps_statement hne hfaces
      (List.mem_of_getElem? (show statementTable[3]? = some _ from rfl))
      (statement_function name value rest) hdeclaration.keeps
  · have hexpression := passes_expression_of_primary closing hne hfaces
      (free_function name value rest) fun entry hentry => by
        rcases primary_function name value rest entry hentry with rfl | hbarred
        · exact Or.inr (enclosed.passes_functionExpression closing hname (shows_opened _))
        · exact Or.inl hbarred
    refine Reader.passes_statement hne hfaces (fun entry hentry => ?_)
      (passes_expressionStatement hne closing hexpression) rfl
    rcases statement_function name value rest entry hentry with rfl | hbarred
    · exact Or.inr hdeclaration.passes
    · exact Or.inl hbarred

/-! ## Arrow functions -/

/-- An arrow function without parameters whose body is a value. -/
def arrowText (value rest : List Char) : List Char :=
  ['(', ')', ' ', '=', '>', ' '] ++ (value ++ rest)

/-- Empty parentheses are no primary expression. -/
theorem fails_primary_parens (blank rest : List Char)
    (hblank : ∀ e ∈ blank, Lexeme.isSpace e = true) :
    Fails Rule.primary (opened (blank ++ '(' :: ')' :: rest)) := by
  have hne : blank ++ '(' :: ')' :: rest ≠ [] := by simp
  have hfaces : (of (blank ++ '(' :: ')' :: rest)).Faces blank.length ('(' :: ')' :: rest) :=
    .of_spaces hblank rfl
  have hopened := hfaces.transfer (shows_opened _)
  have hopening : Settles True (Reader.sign "(") (opened (blank ++ '(' :: ')' :: rest))
      (blank.length + 1) fun _ => True := settles_sign hopened rfl rfl
  have hgroup : Fails Rule.group (opened (blank ++ '(' :: ')' :: rest)) := by
    refine fails_sliced (fails_bind_of_fails fun opening hreading => ?_)
    rw [hopening.used_eq hreading, hopened.advance (by omega)]
    exact fails_bind (fails_expression (List.cons_ne_nil _ _) (.of_firm rfl) (expression_closing rest))
  have hnowhere : Passes Rule.primary (opened (blank ++ '(' :: ')' :: rest)) fun _ => False := by
    refine passes_primary hne hfaces fun entry hentry => ?_
    rcases primary_paren _ entry hentry with rfl | hbarred
    · exact Or.inr hgroup.passes
    · exact Or.inl hbarred
  exact hnowhere

/-- An arrow function secures its body. -/
theorem Enclosed.arrow (closing : Closing part) (enclosed : Enclosed value rest kind part) :
    Secures Reader.assignment (of (' ' :: arrowText value rest))
      (0 + (1 + 2 + (0 + (1 + 2 + (1 + value.length))))) (IsFunction kind) part := by
  have hne : ' ' :: arrowText value rest ≠ [] := List.cons_ne_nil _ _
  have hfaces : (of (' ' :: arrowText value rest)).Faces 1 (arrowText value rest) := .of_space rfl
  have harrow := hfaces.transfer (shows_atAssignment _)
  have hasync : Fails (Reader.keyword "async") (atAssignment (' ' :: arrowText value rest)) :=
    starts_keyword rfl _ _ _ harrow (barred_singleton.mpr rfl)
  have htypes : Fails typeParameters (atAssignment (' ' :: arrowText value rest)) :=
    starts_typeParameters _ _ _ harrow (barred_singleton.mpr rfl)
  have hparameters : Settles True arrowParameters (atAssignment (' ' :: arrowText value rest))
      (1 + 2)
      (· = []) := by
    have hlist : Settles True (do return (← ifPresent typeParameters) ++ (← parameterList))
        (atAssignment (' ' :: arrowText value rest)) (0 + (1 + 2)) (· = []) := by
      refine (Offers.missing htypes).andThen fun types htypes => ?_
      refine (settles_parameterList harrow).returning fun parameters hparameters => ?_
      rw [htypes, hparameters]
      rfl
    refine Offers.choose hlist (by simp) fun other hother => ?_
    simp only [List.mem_cons, List.not_mem_nil, or_false] at hother
    rcases hother with rfl | rfl
    · exact Or.inr (starts_name.map _ _ _ harrow (barred_singleton.mpr rfl))
    · exact Or.inl rfl
  have hend : (atAssignment (' ' :: arrowText value rest)).advance (1 + 2) =
      of (' ' :: '=' :: '>' :: ' ' :: (value ++ rest)) := harrow.advance (by omega)
  have hsign : (of (' ' :: '=' :: '>' :: ' ' :: (value ++ rest))).Faces 1
      ('=' :: '>' :: ' ' :: (value ++ rest)) := .of_space rfl
  have hresult : Fails typeAnnotation (of (' ' :: '=' :: '>' :: ' ' :: (value ++ rest))) :=
    starts_typeAnnotation _ _ _ hsign (barred_singleton.mpr rfl)
  have hblank : ∀ e ∈ [' '], Lexeme.isSpace e = true := by simp [Lexeme.isSpace]
  have hbody : Secures (oneOf [Reader.block, Reader.assignment]) (of ([' '] ++ (value ++ rest)))
      (1 + value.length) kind part := by
    obtain ⟨c, more, hc, _, hvalue⟩ := enclosed.faces hblank
    refine (enclosed.secures [' '] hblank).choose (by simp) fun other hother => ?_
    simp only [List.mem_cons, List.not_mem_nil, or_false] at hother
    rcases hother with rfl | rfl
    · refine Or.inr fun reading hreading => ?_
      rw [Reads, block_of (enclosed.ne_nil _)] at hreading
      refine starts_block _ _ _ (hvalue.transfer (shows_bare _)) (barred_singleton.mpr ?_) reading
        hreading
      rcases hc with rfl | rfl <;> rfl
    · exact Or.inl rfl
  refine secures_assignment_of_arrow closing hne hfaces (operatorFirst_paren _)
    (fails_primary_parens [' '] _ hblank) ?_
  refine Secures.sliced ((Offers.missing hasync).bindSecures fun _ _ => ?_)
  refine hparameters.bindSecures fun parameters hparameters => ?_
  rw [hend]
  refine (Offers.missing hresult).bindSecures fun result hresult => ?_
  refine (settles_sign hsign rfl rfl : Settles True (Reader.sign "=>") _ (1 + 2) _).bindSecures
    fun _ _ => ?_
  rw [hsign.advance (by omega)]
  refine hbody.returning closing fun form hform slice => ?_
  exact ⟨slice, form, by rw [hparameters, hresult]; rfl, hform⟩

/-! ## Variables -/

/-- What stands behind the name of a variable that is set to an arrow function. -/
def settingText (value rest : List Char) : List Char :=
  ' ' :: '=' :: ' ' :: arrowText value (';' :: rest)

/-- A variable that is set to an arrow function with a value. -/
def constantText (name value rest : List Char) : List Char :=
  ['c', 'o', 'n', 's', 't'] ++ ' ' :: (name ++ settingText value rest)

/-- The length of the name and the value behind it. -/
def settingLength (name value : List Char) : Nat :=
  1 + name.length +
    (0 + (0 + (1 + 1 + (0 + (1 + 2 + (0 + (1 + 2 + (1 + value.length))))))))

theorem statement_constant (name value rest : List Char) : ∀ other ∈ statementTable,
    other = (plainStatement variableDeclaration, [Lexeme.variableKind]) ∨
      Barred other.2 (constantText name value rest) := by
  intro other hother
  simp only [statementTable, List.mem_cons, List.not_mem_nil, or_false] at hother
  rcases hother with rfl | rfl | rfl | rfl | rfl | rfl | rfl | rfl | rfl | rfl | rfl | rfl | rfl |
    rfl | rfl | rfl
  case inr.inr.inl => exact Or.inl rfl
  all_goals
    refine Or.inr ?_
    simp only [barred_cons, barred_nil, and_true]
    and_intros <;> rfl

theorem expression_constant (name value rest : List Char) :
    Barred expressionFirst (constantText name value rest) := by
  simp only [expressionFirst, operatorFirst, arrowFirst, primaryTable, List.flatMap_cons,
    List.flatMap_nil, List.cons_append, List.nil_append, barred_cons, barred_nil, and_true]
  and_intros <;> rfl

/-- Neither another variable nor a statement stands in front of the equals sign. -/
theorem fails_at_equals (shown : List Char) :
    Fails (Reader.sign ",") (of (' ' :: '=' :: ' ' :: shown)) ∧
      Fails Reader.statement (of (' ' :: '=' :: ' ' :: shown)) := by
  have hfaces : (of (' ' :: '=' :: ' ' :: shown)).Faces 1 ('=' :: ' ' :: shown) := .of_space rfl
  have hne : ' ' :: '=' :: ' ' :: shown ≠ [] := List.cons_ne_nil _ _
  have htable : ∀ entry ∈ statementTable, Barred entry.2 ('=' :: ' ' :: shown) := by
    intro entry hentry
    simp only [statementTable, List.mem_cons, List.not_mem_nil, or_false] at hentry
    rcases hentry with rfl | rfl | rfl | rfl | rfl | rfl | rfl | rfl | rfl | rfl | rfl | rfl | rfl |
      rfl | rfl | rfl
    all_goals
      simp only [barred_cons, barred_nil, and_true]
      and_intros <;> rfl
  have hexpression : Barred expressionFirst ('=' :: ' ' :: shown) := by
    simp only [expressionFirst, operatorFirst, arrowFirst, primaryTable, List.flatMap_cons,
      List.flatMap_nil, List.cons_append, List.nil_append, barred_cons, barred_nil, and_true]
    and_intros <;> rfl
  have hnowhere : Closing fun _ => False := fun _ _ _ => id
  refine ⟨starts_sign rfl _ _ _ hfaces (barred_singleton.mpr rfl), ?_⟩
  exact passes_statement hne hfaces (fun entry hentry => Or.inl (htable entry hentry))
    (passes_expressionStatement hne hnowhere (fails_expression hne hfaces hexpression)) rfl

section Declarator

variable (closing : Closing part) (enclosed : Enclosed value (';' :: rest) kind part)
  (hname : Lexeme.name name = some name.length)

include closing enclosed

/-- The value of a variable behind its name is secured. -/
theorem Enclosed.initialized :
    Secures (do
        Reader.sign "="
        return [← Reader.assignment])
      (of (settingText value rest)) (1 + 1 + (0 + (1 + 2 + (0 + (1 + 2 + (1 + value.length))))))
      (fun forms => ∃ form, forms = [form] ∧ IsFunction kind form) part := by
  have hfaces : (of (settingText value rest)).Faces 1
      ('=' :: ' ' :: arrowText value (';' :: rest)) := .of_space rfl
  have hsign : Settles True (Reader.sign "=") (of (settingText value rest)) (1 + 1) fun _ => True :=
    settles_sign hfaces rfl rfl
  refine hsign.bindSecures fun _ _ => ?_
  rw [hfaces.advance (by omega)]
  exact (enclosed.arrow closing).returning closing fun form hform => ⟨form, rfl, hform⟩

include hname

/-- A variable keeps its value; its declaration may also end at its name. -/
theorem Enclosed.declarator :
    Keeps declarator (of (' ' :: (name ++ settingText value rest))) (settingLength name value) 0
        (fun forms => ∃ form, forms = [form] ∧ IsFunction kind form) ∧
      Passes declarator (of (' ' :: (name ++ settingText value rest)))
        (Halts (of (' ' :: (name ++ settingText value rest))).length ([0].map (1 + name.length + ·))
          part) := by
  have hfaces := faces_name hname (settingText value rest)
  have hbehind : (of (settingText value rest)).Faces 1
      ('=' :: ' ' :: arrowText value (';' :: rest)) := .of_space rfl
  have hmark : Fails (Reader.sign "!") (of (settingText value rest)) :=
    starts_sign rfl _ _ _ hbehind (barred_singleton.mpr rfl)
  have hannotation : Fails typeAnnotation (of (settingText value rest)) :=
    starts_typeAnnotation _ _ _ hbehind (barred_singleton.mpr rfl)
  have hpattern : Settles True Reader.pattern _ (1 + name.length) (· = []) :=
    settles_pattern_name hname rfl hfaces
  have hadvance : (of (' ' :: (name ++ settingText value rest))).advance (1 + name.length) =
      of (settingText value rest) := by
    rw [hfaces.advance (by omega), List.drop_left]
  refine ⟨hpattern.bindKeeps fun bound hbound => ?_, hpattern.bindHalts fun bound hbound => ?_⟩
  · rw [hadvance]
    refine (Offers.missing hmark).bindKeeps fun _ _ => ?_
    refine (Offers.missing hannotation).bindKeeps fun annotation hannotation => ?_
    refine (enclosed.initialized closing).keeps.first.returning ?_
    rintro _ ⟨form, rfl, hform⟩
    exact ⟨form, by rw [hbound, hannotation]; rfl, hform⟩
  · rw [hadvance]
    refine (Offers.missing hmark).bindPasses fun _ _ => ?_
    refine (Offers.missing hannotation).bindPasses fun annotation hannotation => ?_
    refine Passes.returning (passes_oneOf fun reader hreader => ?_)
    simp only [List.mem_cons, List.not_mem_nil, or_false] at hreader
    rcases hreader with rfl | rfl
    · exact (enclosed.initialized closing).passes.halts [0]
    · intro reading hreading
      rw [reads_nothing.mp hreading]
      exact Or.inl ⟨0, by simp, rfl⟩

end Declarator

/-- Where the declaration of the variable may end before its value. -/
def nameEnd (name : List Char) : Nat :=
  0 + 5 + (1 + name.length + 0)

theorem settles_constant {place : Place} (shows_ : place.Shows (constantText name value rest)) :
    Settles True (lexeme Lexeme.variableKind) place (0 + 5) (fun _ => True) ∧
      place.advance (0 + 5) = of (' ' :: (name ++ settingText value rest)) ∧
      place.advance (nameEnd name) = of (settingText value rest) := by
  have hfaces : place.Faces 0 (constantText name value rest) := .of_shows shows_ rfl
  have hkind : Lexeme.variableKind (constantText name value rest) = some 5 := rfl
  refine ⟨(settles_lexeme hfaces Lexeme.solid_variableKind hkind).imp fun _ _ => trivial, ?_, ?_⟩
  · rw [hfaces.advance (by omega)]
    rfl
  · have hsplit : constantText name value rest =
        (['c', 'o', 'n', 's', 't', ' '] ++ name) ++ settingText value rest := by simp [constantText]
    have hlength : nameEnd name = (['c', 'o', 'n', 's', 't', ' '] ++ name).length := by
      simp only [nameEnd, List.length_append, List.length_cons, List.length_nil]
      omega
    rw [shows_.advance (by simp only [nameEnd]; omega), hsplit, hlength, List.drop_left]

section Variable

variable (closing : Closing part) (enclosed : Enclosed value (';' :: rest) kind part)
  (hname : Lexeme.name name = some name.length)

include closing enclosed hname

theorem Enclosed.variableHead {place : Place}
    (shows_ : place.Shows (constantText name value rest)) :
    Keeps variableHead place (0 + 5 + settingLength name value) 0
        (fun forms => ∃ form, forms = [form] ∧ IsFunction kind form) ∧
      Passes variableHead place (Halts place.length [nameEnd name] part) := by
  obtain ⟨hkind, hadvance, _⟩ := settles_constant shows_
  obtain ⟨hkeeps, hpasses⟩ := enclosed.declarator closing hname
  refine ⟨hkind.bindKeeps fun _ _ => ?_, ?_⟩
  · rw [hadvance]
    have hone : Keeps (do return [← Rule.declarator]) (of (' ' :: (name ++ settingText value rest)))
        (settingLength name value) 0 (fun lists => ∃ form, lists = [[form]] ∧ IsFunction kind form) := by
      refine hkeeps.returning ?_
      rintro _ ⟨form, rfl, hform⟩
      exact ⟨form, rfl, hform⟩
    have hlist : Keeps (separatedBy (Reader.sign ",") Rule.declarator)
        (of (' ' :: (name ++ settingText value rest))) (settingLength name value) 0
        (fun lists => ∃ form, lists = [[form]] ∧ IsFunction kind form) := hone.iterate
    refine hlist.map ?_
    rintro _ ⟨form, rfl, hform⟩
    exact ⟨form, rfl, hform⟩
  · have hchain : Passes Rule.variableHead place
        (Halts place.length (([0].map (1 + name.length + ·)).map (0 + 5 + ·)) part) := by
      refine hkind.bindHalts fun _ _ => ?_
      rw [hadvance]
      have hone : Passes (do return [← Rule.declarator])
          (of (' ' :: (name ++ settingText value rest)))
          (Halts (of (' ' :: (name ++ settingText value rest))).length
            ([0].map (1 + name.length + ·)) part) := hpasses.returning
      have hlist : Passes (separatedBy (Reader.sign ",") Rule.declarator)
          (of (' ' :: (name ++ settingText value rest)))
          (Halts (of (' ' :: (name ++ settingText value rest))).length
            ([0].map (1 + name.length + ·)) part) := by
        refine hone.iterate_of_halts closing fun stop hstop value => ?_
        have hend : stop = 1 + name.length := List.mem_singleton.mp hstop
        rw [hend, (faces_name hname _).advance (by omega), List.drop_left]
        exact fails_bind (fails_at_equals _).1
      exact hlist.returning
    exact hchain

/-- The declaration keeps the value up to the semicolon. -/
theorem Enclosed.variableDeclaration {place : Place}
    (shows_ : place.Shows (constantText name value rest)) :
    Keeps variableDeclaration place (0 + 5 + settingLength name value + (0 + 1)) 0
        (fun forms => ∃ form, forms = [form] ∧ IsFunction kind form) ∧
      Passes variableDeclaration place (Halts place.length [nameEnd name] part) := by
  obtain ⟨hkeeps, hpasses⟩ := enclosed.variableHead closing hname shows_
  refine ⟨?_, ?_⟩
  · obtain ⟨before, c, rfl, hc⟩ := enclosed.closes
    have marks : Marks (['c', 'o', 'n', 's', 't'] ++ ' ' :: (name ++
        [' ', '=', ' ', '(', ')', ' ', '=', '>', ' '] ++ before)) c [] ';' :=
      ⟨hc, by simp, rfl, by decide⟩
    have hsplit : constantText name (before ++ [c]) rest =
        (['c', 'o', 'n', 's', 't'] ++ ' ' :: (name ++
          [' ', '=', ' ', '(', ')', ' ', '=', '>', ' '] ++ before)) ++
          (c :: ([] ++ [';']) ++ rest) := by
      simp [constantText, settingText, arrowText]
    rw [hsplit] at shows_
    refine hkeeps.endedBy marks shows_ rfl ?_ fun _ => id
    simp only [settingLength, List.length_append, List.length_cons, List.length_nil]
    omega
  · obtain ⟨_, _, hend⟩ := settles_constant shows_
    refine hpasses.bind_missing closing fun stop hstop inside reading hreading => ?_
    rw [List.mem_singleton.mp hstop, hend] at hreading
    obtain ⟨sign, hsign, hused, _⟩ := exists_of_reads_returning hreading
    rw [hused]
    exact mayStart_optionalSign rfl _ 1 _ (.of_space rfl) (barred_singleton.mpr rfl) sign hsign

/-- The declaration is kept as a statement. -/
theorem Enclosed.keeps_constant :
    Keeps Reader.statement (of (constantText name value rest))
      ((constantText name value rest).length - rest.length) 0
      (fun form => ∃ slice inner, form = .plain slice [inner] ∧ IsFunction kind inner) := by
  have hlength : (constantText name value rest).length - rest.length =
      0 + 5 + settingLength name value + (0 + 1) := by
    simp only [constantText, settingText, arrowText, settingLength, List.length_append,
      List.length_cons, List.length_nil]
    omega
  have hdeclaration := (enclosed.variableDeclaration closing hname
    (shows_atStatement (constantText name value rest))).1
  rw [hlength]
  refine Reader.keeps_statement (List.cons_ne_nil _ _) (.of_firm rfl)
    (List.mem_of_getElem? (show statementTable[2]? = some _ from rfl))
    (statement_constant name value rest) (hdeclaration.returning ?_).sliced
  rintro _ ⟨form, rfl, hform⟩ slice
  exact ⟨slice, form, rfl, hform⟩

/-- Statements lead past the equals sign only by the whole declaration. -/
theorem Enclosed.passes_constant :
    Passes (Reader.many Reader.statement) (of (constantText name value rest))
      (Halts (constantText name value rest).length [0, nameEnd name] part) := by
  have hne : constantText name value rest ≠ [] := List.cons_ne_nil _ _
  have hfaces : (of (constantText name value rest)).Faces 0 (constantText name value rest) :=
    .of_firm rfl
  have hnone := fails_expression hne hfaces (expression_constant name value rest)
  have hnowhere : Closing fun _ => False := fun _ _ _ => id
  have hstatement : Passes Reader.statement (of (constantText name value rest))
      (Halts (of (constantText name value rest)).length [nameEnd name] part) := by
    refine Reader.passes_statement hne hfaces (fun entry hentry => ?_)
      ((passes_expressionStatement hne hnowhere hnone).imp fun _ => False.elim) rfl
    rcases statement_constant name value rest entry hentry with rfl | hbarred
    · refine Or.inr ?_
      have hdeclaration := (enclosed.variableDeclaration closing hname
        (shows_atStatement (constantText name value rest))).2
      rw [length_under, ← length_of] at hdeclaration
      exact hdeclaration.returning.sliced
    · exact Or.inl hbarred
  have hmany := hstatement.many closing fun stop hstop => by
    obtain ⟨_, _, hend⟩ := settles_constant (shows_of (constantText name value rest))
    rw [List.mem_singleton.mp hstop, hend]
    exact (fails_at_equals _).2.passes
  rwa [length_of] at hmany

end Variable

end Component

end EditableMarkup.Grammar.Reader
