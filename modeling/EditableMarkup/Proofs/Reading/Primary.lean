import EditableMarkup.Proofs.Reading.Columns

/-!
# Primary expressions

The alternatives of a primary expression start with different lexemes.  So a
text at which only one of them can start is read by this one, and if the text
is closed behind it, it is an assignment.
-/

namespace EditableMarkup.Grammar.Reader

open Place Rule

variable {free : Prop}

theorem barred_singleton {taken : Lexeme} {text : List Char} :
    Barred [taken] text ↔ taken text = none := by
  simp [Barred]

/-- The alternatives of a primary expression, with what each of them starts with. -/
def primaryTable : List (Reader Form × List Lexeme) :=
  [(plainLexeme Lexeme.name, [Lexeme.name]),
    (.number <$> lexeme Lexeme.number, [Lexeme.number]),
    (.string <$> lexeme Lexeme.string, [Lexeme.string]),
    (plainLexeme Lexeme.template, [Lexeme.template]),
    (.boolean <$> lexeme Lexeme.boolean, [Lexeme.boolean]),
    (plainLexeme (Lexeme.keyword "null"), [Lexeme.keyword "null"]),
    (plainLexeme (Lexeme.keyword "this"), [Lexeme.keyword "this"]),
    (plainLexeme (Lexeme.keyword "super"), [Lexeme.keyword "super"]),
    (Reader.object, [Lexeme.sign "\x7b"]),
    (array, [Lexeme.sign "["]),
    (group, [Lexeme.sign "("]),
    (functionExpression, [Lexeme.keyword "async", Lexeme.keyword "function"]),
    (classExpression, [Lexeme.keyword "class"]),
    (Reader.markup, [Lexeme.sign "<"])]

theorem primary_eq : Rule.primary = oneOf (primaryTable.map Prod.fst) := rfl

section Table

variable {shown text : List Char} {lead : Nat}

theorem object_opened (h : shown ≠ []) :
    Reader.object (opened shown) = Rule.object (bare shown) := by
  obtain ⟨c, rest, rfl⟩ := List.exists_cons_of_ne_nil h
  rfl

theorem tagged_opened (h : shown ≠ []) :
    Reader.tagged (opened shown) = Rule.markup (bare shown) := by
  obtain ⟨c, rest, rfl⟩ := List.exists_cons_of_ne_nil h
  rfl

/-- An alternative cannot be read where nothing that it starts with stands. -/
theorem fails_primaryTable (hne : shown ≠ []) (faces : (of shown).Faces lead text) :
    ∀ entry ∈ primaryTable, Barred entry.2 text → Fails entry.1 (opened shown) := by
  have hfaces := faces.transfer (shows_opened shown)
  have hbare := faces.transfer (shows_bare shown)
  have hplain {taken : Lexeme} (solid : taken.Solid) (f : Slice → Form)
      (h : Barred [taken] text) : Fails (f <$> lexeme taken) (opened shown) :=
    (starts_lexeme solid).map _ _ _ hfaces h
  intro entry hentry hbarred
  simp only [primaryTable, List.mem_cons, List.not_mem_nil, or_false] at hentry
  rcases hentry with rfl | rfl | rfl | rfl | rfl | rfl | rfl | rfl | rfl | rfl | rfl | rfl | rfl | rfl
  · exact hplain Lexeme.opens_name.solid _ hbarred
  · exact hplain Lexeme.opens_number.solid _ hbarred
  · exact hplain Lexeme.opens_string.solid _ hbarred
  · exact hplain Lexeme.opens_template.solid _ hbarred
  · exact hplain Lexeme.solid_boolean _ hbarred
  · exact hplain (Lexeme.solid_keyword rfl) _ hbarred
  · exact hplain (Lexeme.solid_keyword rfl) _ hbarred
  · exact hplain (Lexeme.solid_keyword rfl) _ hbarred
  · intro reading hreading
    change reading ∈ (Reader.object (opened shown)).readings at hreading
    rw [object_opened hne] at hreading
    exact starts_object _ _ _ hbare hbarred reading hreading
  · exact starts_array _ _ _ hfaces hbarred
  · exact starts_group _ _ _ hfaces hbarred
  · exact starts_functionExpression _ _ _ hfaces hbarred
  · exact starts_classExpression _ _ _ hfaces hbarred
  · refine fails_map fun reading hreading => ?_
    rw [Reads, tagged_opened hne] at hreading
    rw [barred_singleton] at hbarred
    have hmarkup : Barred [Lexeme.sign "<", Lexeme.sign "<"] text := by
      simp [Barred, hbarred]
    exact starts_markup _ _ _ hbare hmarkup reading hreading

/-- A text at which all alternatives but one fail is read by this one. -/
theorem offers_primary_of_fails {entry : Reader Form × List Lexeme} (hentry : entry ∈ primaryTable)
    {used : Nat} {kind : Form → Prop} {dead : Place → Prop}
    (offers : Offers free entry.1 (opened shown) used kind dead)
    (hothers : ∀ other ∈ primaryTable, other = entry ∨ Fails other.1 (opened shown)) :
    Offers free Rule.primary (opened shown) used kind dead := by
  rw [primary_eq]
  refine offers.oneOf (List.mem_map_of_mem hentry) ?_
  intro reader hreader
  obtain ⟨other, hother, rfl⟩ := List.mem_map.mp hreader
  rcases hothers other hother with rfl | hfails
  · exact Or.inl rfl
  · exact Or.inr fun reading hreading => absurd hreading (hfails reading)

/-- A text at which one alternative only can start is read by this alternative. -/
theorem offers_primary (hne : shown ≠ []) (faces : (of shown).Faces lead text)
    {entry : Reader Form × List Lexeme} (hentry : entry ∈ primaryTable) {used : Nat}
    {kind : Form → Prop} {dead : Place → Prop}
    (offers : Offers free entry.1 (opened shown) used kind dead)
    (hothers : ∀ other ∈ primaryTable, other = entry ∨ Barred other.2 text) :
    Offers free Rule.primary (opened shown) used kind dead := by
  refine offers_primary_of_fails hentry offers fun other hother => ?_
  exact (hothers other hother).imp_right (fails_primaryTable hne faces other hother)

end Table

/-! ## Calls without a tail -/

/-- The words and signs in front of an operand. -/
def operatorFirst : List Lexeme :=
  [Lexeme.keyword "new", Lexeme.unary, Lexeme.keyword "await", Lexeme.keyword "yield"]

/-- What stands in front of an operand or opens an arrow function, and so is no primary expression. -/
def prefixFirst : List Lexeme :=
  [Lexeme.keyword "new", Lexeme.unary, Lexeme.keyword "await", Lexeme.keyword "yield",
    Lexeme.keyword "async", Lexeme.name, Lexeme.sign "<", Lexeme.sign "("]

section Call

variable {front rest text : List Char} {lead : Nat} {kind : Form → Prop}

/-- A primary expression at whose end an operand stops is a call. -/
theorem offers_call (hfront : front ≠ []) (stopped : Stopped rest)
    (faces : (of (front ++ rest)).Faces lead text) (hnew : Lexeme.keyword "new" text = none)
    (settles : Settles free Rule.primary (opened (front ++ rest)) front.length kind) :
    Offers free Rule.call (opened (front ++ rest)) front.length kind Linked := by
  have hshows := shows_opened (front ++ rest)
  have hfaces := faces.transfer hshows
  have hend : (opened (front ++ rest)).advance front.length = of rest :=
    hshows.advance_append hfront
  have hfirst : Settles free (oneOf [Rule.primary, newInstance]) (opened (front ++ rest))
      front.length
      kind := by
    refine settles.oneOf (List.mem_cons_self ..) ?_
    intro other hother
    simp only [List.mem_cons, List.not_mem_nil, or_false] at hother
    rcases hother with rfl | rfl
    · exact Or.inl rfl
    · exact Or.inr fun reading hreading => absurd hreading
        (starts_newInstance _ _ _ hfaces (barred_singleton.mpr hnew) reading)
  have hcall : Settles free Rule.call (opened (front ++ rest)) front.length kind := by
    refine hfirst.iterate ?_ ?_
    · intro form _
      rw [hend]
      exact stopped.fails_of_starts starts_callTail.extending (List.subset_append_left _ _)
    · intro form place hfalse
      exact hfalse.elim
  refine hcall.weaken ?_
  rw [hend]
  exact stopped.not_linked

/-- A primary expression at whose end an operand stops is a unary expression. -/
theorem offers_unary_of_primary (hfront : front ≠ []) (stopped : Stopped rest)
    (faces : (of (front ++ rest)).Faces lead text) (hfree : Barred operatorFirst text)
    (settles : Settles free Rule.primary (opened (front ++ rest)) front.length kind) :
    Offers free Rule.unary (atUnary (front ++ rest)) front.length kind Linked := by
  simp only [operatorFirst, barred_cons] at hfree
  obtain ⟨hnew, hunary, hawait, _⟩ := hfree
  exact offers_unary hfront stopped faces (barred_singleton.mpr hunary)
    (barred_singleton.mpr hawait) (offers_call hfront stopped faces hnew settles)

/-- A primary expression at whose end an operand stops is an assignment, unless it is the head of an
arrow function. -/
theorem offers_assignment_of_arrowless (hfront : front ≠ []) (stopped : Stopped rest)
    (faces : (of (front ++ rest)).Faces lead text) (hfree : Barred operatorFirst text)
    (harrow : Fails Rule.arrowFunction (atAssignment (front ++ rest)))
    (settles : Settles free Rule.primary (opened (front ++ rest)) front.length kind) :
    Offers free Reader.assignment (of (front ++ rest)) front.length kind Linked := by
  have hunary := offers_unary_of_primary hfront stopped faces hfree settles
  simp only [operatorFirst, barred_cons] at hfree
  obtain ⟨hnew, _, _, hyield, _⟩ := hfree
  exact offers_assignment hfront stopped faces (barred_singleton.mpr hyield) harrow
    (fails_assigned hfront stopped (offers_call hfront stopped faces hnew settles))
    (offers_operand hfront stopped hunary)

/-- A primary expression at whose end an operand stops is an assignment. -/
theorem offers_assignment_of_primary (hfront : front ≠ []) (stopped : Stopped rest)
    (faces : (of (front ++ rest)).Faces lead text) (hfree : Barred prefixFirst text)
    (settles : Settles free Rule.primary (opened (front ++ rest)) front.length kind) :
    Offers free Reader.assignment (of (front ++ rest)) front.length kind Linked := by
  refine offers_assignment_of_arrowless hfront stopped faces
    (hfree.mono (by simp [operatorFirst, prefixFirst])) ?_ settles
  exact starts_arrowFunction _ _ _ (faces.transfer (shows_atAssignment _))
    (hfree.mono (by simp [prefixFirst]))

end Call

/-! ## Texts that start no call -/

section NoCall

variable {shown text : List Char} {lead : Nat}

/-- Where no alternative of a primary expression and no new instance can start, no call is read. -/
theorem fails_call (hne : shown ≠ []) (faces : (of shown).Faces lead text)
    (hnone : ∀ entry ∈ primaryTable, Barred entry.2 text)
    (hnew : Lexeme.keyword "new" text = none) : Fails Rule.call (opened shown) := by
  apply fails_iterate
  apply fails_oneOf
  intro reader hreader
  simp only [List.mem_cons, List.not_mem_nil, or_false] at hreader
  rcases hreader with rfl | rfl
  · rw [primary_eq]
    apply fails_oneOf
    intro reader hreader
    obtain ⟨entry, hentry, rfl⟩ := List.mem_map.mp hreader
    exact fails_primaryTable hne faces entry hentry (hnone entry hentry)
  · exact starts_newInstance _ _ _ (faces.transfer (shows_opened shown))
      (barred_singleton.mpr hnew)

theorem fails_call_atUnary (hne : shown ≠ []) (faces : (of shown).Faces lead text)
    (hnone : ∀ entry ∈ primaryTable, Barred entry.2 text)
    (hnew : Lexeme.keyword "new" text = none) : Fails Reader.call (atUnary shown) := by
  intro reading hreading
  rw [Reads, call_atUnary hne] at hreading
  exact fails_call hne faces hnone hnew reading hreading

theorem fails_call_atAssignment (hne : shown ≠ []) (faces : (of shown).Faces lead text)
    (hnone : ∀ entry ∈ primaryTable, Barred entry.2 text)
    (hnew : Lexeme.keyword "new" text = none) : Fails Reader.call (atAssignment shown) := by
  intro reading hreading
  rw [Reads, call_atAssignment hne] at hreading
  exact fails_call hne faces hnone hnew reading hreading

end NoCall

end EditableMarkup.Grammar.Reader
