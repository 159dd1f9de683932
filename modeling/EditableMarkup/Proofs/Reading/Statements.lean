import EditableMarkup.Proofs.Reading.Levels

/-!
# Statements

All statements but expressions open with a word of their own or with a brace.
So a text at which one of these words stands is read by the statement of the
word, and otherwise by an expression statement.
-/

namespace EditableMarkup.Grammar.Reader

open Place Rule

/-- The statements that open with a sign or a word of their own, with what each of them starts
with. -/
def statementTable : List (Reader Form × List Lexeme) :=
  [(plainStatement importDeclaration, [Lexeme.keyword "import"]),
    (plainStatement exportDeclaration, [Lexeme.keyword "export"]),
    (plainStatement variableDeclaration, [Lexeme.variableKind]),
    (functionDeclaration, [Lexeme.keyword "async", Lexeme.keyword "function"]),
    (classDeclaration, [Lexeme.keyword "class"]),
    (plainStatement typeDeclaration, [Lexeme.keyword "type"]),
    (plainStatement interfaceDeclaration, [Lexeme.keyword "interface"]),
    (returnStatement, [Lexeme.keyword "return"]),
    (plainStatement ifStatement, [Lexeme.keyword "if"]),
    (plainStatement forStatement, [Lexeme.keyword "for"]),
    (plainStatement whileStatement, [Lexeme.keyword "while", Lexeme.keyword "do"]),
    (plainStatement tryStatement, [Lexeme.keyword "try"]),
    (plainStatement switchStatement, [Lexeme.keyword "switch"]),
    (plainStatement throwStatement, [Lexeme.keyword "throw"]),
    (plainStatement jumpStatement, [Lexeme.keyword "break", Lexeme.keyword "continue"]),
    (Reader.block, [Lexeme.sign "\x7b"])]

/-- A semicolon that stands alone. -/
def emptyStatement : Reader Form :=
  plainStatement do
    Reader.sign ";"
    return []

theorem statement_eq : Rule.statement =
    oneOf (statementTable.map Prod.fst ++ [plainStatement expressionStatement, emptyStatement]) :=
  rfl

theorem starts_emptyStatement : Starts emptyStatement [Lexeme.sign ";"] :=
  (starts_sign rfl).bind.bind.sliced

section Statement

variable {shown text : List Char} {lead used cost : Nat} {kind : Form → Prop} {part : Nat → Prop}

theorem block_atStatement (h : shown ≠ []) :
    Reader.block (atStatement shown) = Rule.block (bare shown) := by
  obtain ⟨c, rest, rfl⟩ := List.exists_cons_of_ne_nil h
  rfl

/-- A statement cannot be read where nothing that it starts with stands. -/
theorem fails_statementTable (hne : shown ≠ []) (faces : (of shown).Faces lead text) :
    ∀ entry ∈ statementTable, Barred entry.2 text → Fails entry.1 (atStatement shown) := by
  have hfaces := faces.transfer (shows_atStatement shown)
  have hplain {reader : Reader (List Form)} {first : List Lexeme} (starts : Starts reader first)
      (h : Barred first text) : Fails (plainStatement reader) (atStatement shown) :=
    starts.bind.sliced _ _ _ hfaces h
  intro entry hentry hbarred
  simp only [statementTable, List.mem_cons, List.not_mem_nil, or_false] at hentry
  rcases hentry with rfl | rfl | rfl | rfl | rfl | rfl | rfl | rfl | rfl | rfl | rfl | rfl | rfl |
    rfl | rfl | rfl
  · exact hplain starts_importDeclaration hbarred
  · exact hplain starts_exportDeclaration hbarred
  · exact hplain starts_variableDeclaration hbarred
  · exact starts_functionDeclaration _ _ _ hfaces hbarred
  · exact starts_classDeclaration _ _ _ hfaces hbarred
  · exact hplain starts_typeDeclaration hbarred
  · exact hplain starts_interfaceDeclaration hbarred
  · exact starts_returnStatement _ _ _ hfaces hbarred
  · exact hplain starts_ifStatement hbarred
  · exact hplain starts_forStatement hbarred
  · exact hplain starts_whileStatement hbarred
  · exact hplain starts_tryStatement hbarred
  · exact hplain starts_switchStatement hbarred
  · exact hplain starts_throwStatement hbarred
  · exact hplain starts_jumpStatement hbarred
  · intro reading hreading
    change reading ∈ (Reader.block (atStatement shown)).readings at hreading
    rw [block_atStatement hne] at hreading
    exact starts_block _ _ _ (faces.transfer (shows_bare shown)) hbarred reading hreading

/-- No statement with a word of its own starts with one of these brackets. -/
theorem statement_bracket {c : Char} (hc : c = '<' ∨ c = '(') (rest : List Char) :
    ∀ entry ∈ statementTable, Barred entry.2 (c :: rest) := by
  intro entry hentry
  simp only [statementTable, List.mem_cons, List.not_mem_nil, or_false] at hentry
  rcases hentry with rfl | rfl | rfl | rfl | rfl | rfl | rfl | rfl | rfl | rfl | rfl | rfl | rfl |
    rfl | rfl | rfl
  all_goals
    simp only [barred_cons, barred_nil, and_true]
    rcases hc with rfl | rfl
    all_goals
      and_intros <;> rfl

theorem statement_of (h : shown ≠ []) :
    Reader.statement (of shown) = Rule.statement (atStatement shown) := by
  obtain ⟨c, rest, rfl⟩ := List.exists_cons_of_ne_nil h
  rfl

theorem expression_atStatement (h : shown ≠ []) :
    Reader.expression (atStatement shown) = Reader.expression (of shown) := by
  obtain ⟨c, rest, rfl⟩ := List.exists_cons_of_ne_nil h
  rfl

/-! ## Statements with a word of their own -/

/-- Where one statement with its own word can start, what it keeps without cost is kept. -/
theorem keeps_statement (hne : shown ≠ []) (faces : (of shown).Faces lead text)
    {entry : Reader Form × List Lexeme} (hentry : entry ∈ statementTable)
    (hothers : ∀ other ∈ statementTable, other = entry ∨ Barred other.2 text)
    (keeps : Keeps entry.1 (atStatement shown) used 0 kind) :
    Keeps Reader.statement (of shown) used 0 kind := by
  obtain ⟨before, after, hsplit, hfirst⟩ :=
    List.eq_append_cons_of_mem (List.mem_map_of_mem hentry)
  have hrule : Keeps Rule.statement (atStatement shown) used 0 kind := by
    rw [statement_eq, hsplit, List.append_assoc]
    refine keeps.oneOf rfl (fun earlier hearlier other hother => ?_) fun _ _ _ _ => Nat.zero_le _
    obtain ⟨found, hfound, rfl⟩ : ∃ found ∈ statementTable, found.1 = earlier := by
      refine List.mem_map.mp ?_
      rw [hsplit]
      exact List.mem_append_left _ hearlier
    rcases hothers found hfound with rfl | hbarred
    · exact absurd hearlier hfirst
    · exact absurd hother (fails_statementTable hne faces found hfound hbarred other)
  exact hrule.transfer (statement_of hne)

/-- The statements that can start at a text decide how far statements lead. -/
theorem passes_statement (hne : shown ≠ []) (faces : (of shown).Faces lead text)
    (htable : ∀ entry ∈ statementTable,
      Barred entry.2 text ∨ Passes entry.1 (atStatement shown) part)
    (hexpression : Passes (plainStatement expressionStatement) (atStatement shown) part)
    (hempty : Lexeme.sign ";" text = none) : Passes Reader.statement (of shown) part := by
  have hrule : Passes Rule.statement (atStatement shown) part := by
    rw [statement_eq]
    refine passes_oneOf fun reader hreader => ?_
    rcases List.mem_append.mp hreader with hmapped | hrest
    · obtain ⟨entry, hentry, rfl⟩ := List.mem_map.mp hmapped
      rcases htable entry hentry with hbarred | hpasses
      · exact Fails.passes (fails_statementTable hne faces entry hentry hbarred)
      · exact hpasses
    · simp only [List.mem_cons, List.not_mem_nil, or_false] at hrest
      rcases hrest with rfl | rfl
      · exact hexpression
      · exact Fails.passes (starts_emptyStatement _ _ _ (faces.transfer (shows_atStatement shown))
          (barred_singleton.mpr hempty))
  exact hrule.transfer (statement_of hne) (by rw [length_of, length_under])

/-! ## Expression statements -/

theorem passes_expressionStatement (hne : shown ≠ []) (closing : Closing part)
    (passes : Passes Reader.expression (of shown) part) :
    Passes (plainStatement expressionStatement) (atStatement shown) part := by
  have hread : Passes Reader.expression (atStatement shown) part :=
    passes.transfer (expression_atStatement hne) (by rw [length_of, length_under])
  exact ((hread.bind closing).counted.bind closing).sliced

/-- Where neither a word opens a statement nor an expression is read, no statement is. -/
theorem fails_statement (hne : shown ≠ []) (faces : (of shown).Faces lead text)
    (hbarred : ∀ entry ∈ statementTable, Barred entry.2 text)
    (hempty : Lexeme.sign ";" text = none) (hexpression : Fails Reader.expression (of shown)) :
    Fails Reader.statement (of shown) := by
  have hnowhere : Closing fun _ => False := fun _ _ _ => id
  have hstatement : Passes (plainStatement expressionStatement) (atStatement shown) fun _ => False :=
    passes_expressionStatement hne hnowhere hexpression.passes
  exact passes_statement hne faces (fun entry hentry => Or.inl (hbarred entry hentry)) hstatement
    hempty

/-- Where no word opens a statement, all statements but expressions fail. -/
theorem statement_others (hne : shown ≠ []) (faces : (of shown).Faces lead text)
    (hbarred : ∀ entry ∈ statementTable, Barred entry.2 text)
    (hempty : Lexeme.sign ";" text = none) :
    ∀ other ∈ statementTable.map Prod.fst ++ [plainStatement expressionStatement, emptyStatement],
      other = plainStatement expressionStatement ∨ Fails other (atStatement shown) := by
  intro other hother
  rcases List.mem_append.mp hother with htable | hrest
  · obtain ⟨entry, hentry, rfl⟩ := List.mem_map.mp htable
    exact Or.inr (fails_statementTable hne faces entry hentry (hbarred entry hentry))
  · simp only [List.mem_cons, List.not_mem_nil, or_false] at hrest
    rcases hrest with rfl | rfl
    · exact Or.inl rfl
    · exact Or.inr (starts_emptyStatement _ _ _ (faces.transfer (shows_atStatement shown))
        (barred_singleton.mpr hempty))

/-- Where no word opens a statement, an expression that settles settles as a statement, if no
semicolon stands behind it. -/
theorem settles_expressionStatement {free : Prop} (hne : shown ≠ [])
    (faces : (of shown).Faces lead text) (hbarred : ∀ entry ∈ statementTable, Barred entry.2 text)
    (hempty : Lexeme.sign ";" text = none)
    (settles : Settles free Reader.expression (of shown) used kind)
    (hnext : Fails (Reader.sign ";") ((atStatement shown).advance used)) :
    Settles False Reader.statement (of shown) used
      (fun form => ∃ slice inner, form = .plain slice [inner] ∧ kind inner) := by
  have hread : Settles free Reader.expression (atStatement shown) used kind :=
    settles.transfer (expression_atStatement hne) fun _ => Iff.rfl
  have hmarked : Settles free
      (do
        let form ← Reader.expression
        optionalSign ";"
        return [form] : Reader (List Form))
      (atStatement shown) (used + 0) (fun forms => ∃ inner, forms = [inner] ∧ kind inner) :=
    hread.andThen fun form hform => (Offers.missing hnext).returning fun _ _ => ⟨form, rfl, hform⟩
  have hexpression : Settles False (plainStatement expressionStatement) (atStatement shown) used
      (fun form => ∃ slice inner, form = .plain slice [inner] ∧ kind inner) := by
    refine (hmarked.counted.returning fun forms hforms slice => ?_).slicedAny
    obtain ⟨inner, rfl, hinner⟩ := hforms
    exact ⟨slice, inner, rfl, hinner⟩
  have hrule : Settles False Rule.statement (atStatement shown) used
      (fun form => ∃ slice inner, form = .plain slice [inner] ∧ kind inner) := by
    rw [statement_eq]
    exact hexpression.choose (by simp) (statement_others hne faces hbarred hempty)
  exact hrule.transfer (statement_of hne) fun _ => Iff.rfl

/-- Where no word opens a statement, an expression that is kept is kept as a statement, if no
semicolon stands behind it or at its end. -/
theorem keeps_expressionStatement (hne : shown ≠ []) (faces : (of shown).Faces lead text)
    (hbarred : ∀ entry ∈ statementTable, Barred entry.2 text)
    (hempty : Lexeme.sign ";" text = none) (keeps : Keeps Reader.expression (of shown) used 0 kind)
    (hnext : Fails (Reader.sign ";") ((atStatement shown).advance used))
    (hlast : ∀ nearer < used, ∀ reading,
      Reads (Reader.sign ";") ((atStatement shown).advance nearer) reading →
      nearer + reading.used ≠ used) :
    Keeps Reader.statement (of shown) used 1
      (fun form => ∃ slice inner, form = .plain slice [inner] ∧ kind inner) := by
  have hread : Keeps Reader.expression (atStatement shown) used 0 kind :=
    keeps.transfer (expression_atStatement hne)
  have hmarked : Keeps
      (do
        let form ← Reader.expression
        optionalSign ";"
        return [form] : Reader (List Form))
      (atStatement shown) (used + 0) 0 (fun forms => ∃ inner, forms = [inner] ∧ kind inner) := by
    refine hread.bind (fun form hform => ?_) fun nearer _ hless other hother => ?_
    · exact (Offers.missing hnext).keeps.returning fun _ _ => ⟨form, rfl, hform⟩
    · obtain ⟨sign, hsign, hused, _⟩ := exists_of_reads_returning hother
      obtain ⟨reader, hreader, hreads⟩ := exists_of_reads_oneOf hsign
      simp only [List.mem_cons, List.not_mem_nil, or_false] at hreader
      rcases hreader with rfl | rfl
      · rw [hused]
        exact hlast nearer.used hless sign hreads
      · rw [hused, reads_nothing.mp hreads]
        exact Nat.ne_of_lt hless
  have hexpression : Keeps (plainStatement expressionStatement) (atStatement shown) used 1
      (fun form => ∃ slice inner, form = .plain slice [inner] ∧ kind inner) := by
    refine (hmarked.counted.returning fun forms hforms slice => ?_).sliced
    obtain ⟨inner, rfl, hinner⟩ := hforms
    exact ⟨slice, inner, rfl, hinner⟩
  have hrule : Keeps Rule.statement (atStatement shown) used 1
      (fun form => ∃ slice inner, form = .plain slice [inner] ∧ kind inner) := by
    rw [statement_eq]
    exact hexpression.choose (by simp) (statement_others hne faces hbarred hempty)
  exact hrule.transfer (statement_of hne)

end Statement

end EditableMarkup.Grammar.Reader
