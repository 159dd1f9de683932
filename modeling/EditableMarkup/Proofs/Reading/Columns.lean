import EditableMarkup.Proofs.Reading.Rules

/-!
# From calls to expressions

What a row holds is read by a rule from the place with the row as it was
before.  So a call whose end is followed by a closing sign is read as a unary
expression, as an operand, as an assignment and as an expression, and nothing
else is.
-/

namespace EditableMarkup.Grammar

open Place

variable {free : Prop}

/-! ## Closed ends and linked ends -/

/-- A sign that ends an expression inside a larger construct. -/
def closes (c : Char) : Bool :=
  c == '}' || c == ')' || c == ';'

/-- A text at which an assignment ends: nothing follows, or a comma or a closing sign does. -/
abbrev Closed (text : List Char) : Prop :=
  text.head?.all (fun c => c == ',' || closes c) = true

/-- A text at which an expression ends. -/
abbrev Finished (text : List Char) : Prop :=
  text.head?.all closes = true

theorem Finished.closed {text : List Char} (finished : Finished text) : Closed text := by
  cases text with
  | nil => rfl
  | cons c rest =>
      have hc : closes c = true := finished
      change (c == ',' || closes c) = true
      rw [hc, Bool.or_true]

theorem Closed.cases {text : List Char} (closed : Closed text) :
    text = [] ∨ ∃ rest, text = ',' :: rest ∨ text = '}' :: rest ∨ text = ')' :: rest ∨
      text = ';' :: rest := by
  cases text with
  | nil => exact Or.inl rfl
  | cons c rest =>
      have hc : (c == ',' || closes c) = true := closed
      simp only [closes, Bool.or_eq_true, beq_iff_eq] at hc
      refine Or.inr ⟨rest, ?_⟩
      rcases hc with rfl | (rfl | rfl) | rfl
      · simp
      · simp
      · simp
      · simp

theorem Closed.skipped_eq_none {text : List Char} (closed : Closed text) :
    Lexeme.skipped text = none := by
  rcases closed.cases with rfl | ⟨rest, rfl | rfl | rfl | rfl⟩
  · rfl
  · rfl
  · rfl
  · rfl
  · rfl

theorem Finished.cases {text : List Char} (finished : Finished text) :
    text = [] ∨ ∃ rest, text = '}' :: rest ∨ text = ')' :: rest ∨ text = ';' :: rest := by
  rcases finished.closed.cases with rfl | ⟨rest, rfl | h⟩
  · exact Or.inl rfl
  · exact absurd finished Bool.false_ne_true
  · exact Or.inr ⟨rest, h⟩

theorem Finished.barred_comma {text : List Char} (finished : Finished text) :
    Barred [Lexeme.sign ","] text := by
  rw [barred_cons]
  refine ⟨?_, barred_nil.mpr trivial⟩
  rcases finished.cases with rfl | ⟨rest, rfl | rfl | rfl⟩
  · rfl
  · rfl
  · rfl
  · rfl

/-- What holds of a place depends on the text that the place shows. -/
def Textual (dead : Place → Prop) : Prop :=
  ∀ ⦃place place' : Place⦄ ⦃text : List Char⦄, place.Shows text → place'.Shows text →
    (dead place ↔ dead place')

/-- A place where no sign closes an assignment. -/
def Unclosed (place : Place) : Prop :=
  ∀ spelling ∈ [",", "\x7d", ")", ";"], Reader.Fails (Reader.sign spelling) place

theorem textual_fails_sign (spelling : String) :
    Textual (Reader.Fails (Reader.sign spelling)) := by
  intro place place' text hshows hshows'
  simp only [Reader.Fails, Reader.Reads, Reader.sign_eq_of_shows spelling hshows hshows']

theorem textual_unclosed : Textual Unclosed := fun _ _ _ hshows hshows' =>
  forall₂_congr fun spelling _ => textual_fails_sign spelling hshows hshows'

/-- At a text that closes an assignment, a sign closes it. -/
theorem Closed.not_unclosed {text : List Char} (closed : Closed text) (hne : text ≠ []) :
    ¬ Unclosed (of text) := by
  intro unclosed
  have hsign (spelling : String) (hspelling : spelling ∈ [",", "\x7d", ")", ";"])
      (hvisible : Lexeme.Visible spelling) (htext : Lexeme.sign spelling text = some 1) : False := by
    have hsettles : Reader.Settles True (Reader.sign spelling) (of text) (0 + 1) fun _ => True :=
      Reader.settles_sign (.of_firm closed.skipped_eq_none) hvisible htext
    obtain ⟨reading, hreading, _⟩ := hsettles.reads
    exact unclosed spelling hspelling reading hreading
  rcases closed.cases with rfl | ⟨rest, rfl | rfl | rfl | rfl⟩
  · exact hne rfl
  · exact hsign "," (by simp) rfl rfl
  · exact hsign "\x7d" (by simp) rfl rfl
  · exact hsign ")" (by simp) rfl rfl
  · exact hsign ";" (by simp) rfl rfl

/-- A sign that goes on with a call: a point in front of a name, or an opening parenthesis. -/
def links (c : Char) : Bool :=
  c == '.' || c == '('

theorem links_cases {c : Char} (h : links c = true) : c = '.' ∨ c = '(' := by
  simpa [links] using h

/-- A place in front of a sign that goes on with a call. -/
def Linked (place : Place) : Prop :=
  ∃ c rest, links c = true ∧ place.Shows (c :: rest)

/-- What goes on with a primary expression. -/
def callTailFirst : List Lexeme :=
  [Lexeme.sign ".", Lexeme.sign "?.", Lexeme.sign "?.", Lexeme.sign "[", Lexeme.sign "?.",
    Lexeme.sign "<", Lexeme.sign "(", Lexeme.template, Lexeme.sign "!"]

/-- What goes on with a call, with a unary expression, with an operand and with operands. -/
def tailFirst : List Lexeme :=
  [Lexeme.update, Lexeme.keyword "as", Lexeme.keyword "satisfies", Lexeme.binary, Lexeme.sign "?",
    Lexeme.assignment]

theorem skipped_of_links {c : Char} (h : links c = true) (rest : List Char) :
    Lexeme.skipped (c :: rest) = none := by
  rcases links_cases h with rfl | rfl
  · rfl
  · rfl

theorem Linked.iff_of_shows {place : Place} {text : List Char} (h : place.Shows text) :
    Linked place ↔ ∃ c rest, links c = true ∧ text = c :: rest := by
  constructor
  · rintro ⟨c, rest, hc, hrest⟩
    exact ⟨c, rest, hc, h.unique hrest⟩
  · rintro ⟨c, rest, hc, rfl⟩
    exact ⟨c, rest, hc, h⟩

theorem barred_tail_of_links {c : Char} (h : links c = true) (rest : List Char) :
    Barred tailFirst (c :: rest) := by
  simp only [tailFirst, barred_cons, barred_nil, and_true]
  rcases links_cases h with rfl | rfl
  · and_intros <;> rfl
  · and_intros <;> rfl

theorem textual_linked : Textual Linked := by
  intro place place' text hshows hshows'
  rw [Linked.iff_of_shows hshows, Linked.iff_of_shows hshows']

theorem Linked.fails_of_starts {α : Type} {reader : Reader α} {first : List Lexeme}
    (starts : Reader.Starts reader first) {place : Place} (linked : Linked place)
    (barred : ∀ c rest, links c = true → Barred first (c :: rest)) :
    Reader.Fails reader place := by
  obtain ⟨c, rest, hc, hshows⟩ := linked
  exact starts place 0 (c :: rest) (.of_shows hshows (skipped_of_links hc rest)) (barred c rest hc)

/-- A text at which an operand stops: what follows behind any gap does not go on with it. -/
structure Stopped (text : List Char) : Prop where
  faces : ∃ lead visible, (of text).Faces lead visible ∧ Barred (callTailFirst ++ tailFirst) visible
  not_linked : ¬ Linked (of text)

theorem Stopped.fails_of_starts {α : Type} {reader : Reader α} {first : List Lexeme}
    {text : List Char} (stopped : Stopped text) (starts : Reader.Starts reader first)
    (h : first ⊆ callTailFirst ++ tailFirst) : Reader.Fails reader (of text) := by
  obtain ⟨lead, visible, faces, barred⟩ := stopped.faces
  exact starts _ _ _ faces (barred.mono h)

theorem Closed.stopped {text : List Char} (closed : Closed text) : Stopped text where
  faces := by
    refine ⟨0, text, .of_firm closed.skipped_eq_none, ?_⟩
    rcases closed.cases with rfl | ⟨rest, rfl | rfl | rfl | rfl⟩
    all_goals
      simp only [callTailFirst, tailFirst, List.cons_append, List.nil_append, barred_cons, barred_nil,
        and_true]
      and_intros <;> rfl
  not_linked := by
    rw [Linked.iff_of_shows (shows_of text)]
    rintro ⟨c, rest, hc, rfl⟩
    rcases links_cases hc with rfl | rfl
    · exact absurd closed Bool.false_ne_true
    · exact absurd closed Bool.false_ne_true

theorem Linked.unclosed {place : Place} (linked : Linked place) : Unclosed place := by
  intro spelling hspelling
  simp only [List.mem_cons, List.not_mem_nil, or_false] at hspelling
  have hfails {spelling : String} (visible : Lexeme.Visible spelling)
      (h : spelling.toList.head?.any (fun d => !links d) = true) :
      Reader.Fails (Reader.sign spelling) place :=
    linked.fails_of_starts (Reader.starts_sign visible) fun d rest hd =>
      barred_cons.mpr ⟨Lexeme.sign_eq_none_of_head h (by rw [hd, Bool.not_true]), barred_nil.mpr trivial⟩
  rcases hspelling with rfl | rfl | rfl | rfl
  · exact hfails rfl rfl
  · exact hfails rfl rfl
  · exact hfails rfl rfl
  · exact hfails rfl rfl

namespace Reader

open Rule

/-! ## From row to row -/

section Row

variable {shown : List Char}

theorem call_atUnary (h : shown ≠ []) :
    Reader.call (atUnary shown) = Rule.call (opened shown) := by
  obtain ⟨c, rest, rfl⟩ := List.exists_cons_of_ne_nil h
  rfl

theorem call_atAssignment (h : shown ≠ []) :
    Reader.call (atAssignment shown) = Rule.call (opened shown) := by
  obtain ⟨c, rest, rfl⟩ := List.exists_cons_of_ne_nil h
  rfl

theorem unary_atOperand (h : shown ≠ []) :
    Reader.unary (atOperand shown) = Rule.unary (atUnary shown) := by
  obtain ⟨c, rest, rfl⟩ := List.exists_cons_of_ne_nil h
  rfl

theorem operand_atAssignment (h : shown ≠ []) :
    Reader.operand (atAssignment shown) = Rule.operand (atOperand shown) := by
  obtain ⟨c, rest, rfl⟩ := List.exists_cons_of_ne_nil h
  rfl

theorem assignment_of (h : shown ≠ []) :
    Reader.assignment (of shown) = Rule.assignment (atAssignment shown) := by
  obtain ⟨c, rest, rfl⟩ := List.exists_cons_of_ne_nil h
  rfl

theorem assignment_atExpression (h : shown ≠ []) :
    Reader.assignment (atExpression shown) = Reader.assignment (of shown) := by
  obtain ⟨c, rest, rfl⟩ := List.exists_cons_of_ne_nil h
  rfl

theorem pattern_of (h : shown ≠ []) :
    Reader.pattern (of shown) = Rule.pattern (bare shown) := by
  obtain ⟨c, rest, rfl⟩ := List.exists_cons_of_ne_nil h
  rfl

theorem type_of (h : shown ≠ []) : Reader.type (of shown) = Rule.type (bare shown) := by
  obtain ⟨c, rest, rfl⟩ := List.exists_cons_of_ne_nil h
  rfl

theorem block_of (h : shown ≠ []) : Reader.block (of shown) = Rule.block (bare shown) := by
  obtain ⟨c, rest, rfl⟩ := List.exists_cons_of_ne_nil h
  rfl

theorem expression_of (h : shown ≠ []) :
    Reader.expression (of shown) = Rule.expression (atExpression shown) := by
  obtain ⟨c, rest, rfl⟩ := List.exists_cons_of_ne_nil h
  rfl

end Row

/-- The same readings from another place that shows the same text. -/
theorem Offers.column {α : Type} {reader reader' : Reader α} {place place' : Place} {used : Nat}
    {kind : α → Prop} {dead : Place → Prop} (offers : Offers free reader place used kind dead)
    (textual : Textual dead) {text : List Char} (hshows : place.Shows text)
    (hshows' : place'.Shows text) (h : reader' place' = reader place) :
    Offers free reader' place' used kind dead :=
  offers.transfer h fun count => textual (hshows'.advance_shows count) (hshows.advance_shows count)

section Lift

variable {front rest text : List Char} {lead : Nat} {kind : Form → Prop}

/-- Where an operand stops and in front of a sign that goes on with a call, only what starts otherwise
goes on. -/
structure Ends (tail : Reader (List Form)) (first : List Lexeme) : Prop where
  starts : Starts tail first
  subset : first ⊆ tailFirst

theorem Ends.fails_stopped {tail : Reader (List Form)} {first : List Lexeme}
    (ends : Ends tail first) (stopped : Stopped rest) (form : Form) :
    Fails (extending form tail) (of rest) :=
  stopped.fails_of_starts ends.starts.extending fun _ htaken =>
    List.mem_append_right _ (ends.subset htaken)

theorem Ends.fails_linked {tail : Reader (List Form)} {first : List Lexeme}
    (ends : Ends tail first) {place : Place} (linked : Linked place) (form : Form) :
    Fails (extending form tail) place :=
  linked.fails_of_starts ends.starts.extending fun _ behind hlinks taken htaken =>
    barred_tail_of_links hlinks behind taken (ends.subset htaken)

theorem ends_updateTail : Ends updateTail [Lexeme.update] :=
  ⟨starts_updateTail, by simp [tailFirst]⟩

theorem ends_typeTail : Ends typeTail [Lexeme.keyword "as", Lexeme.keyword "satisfies"] :=
  ⟨starts_typeTail, by simp [tailFirst]⟩

theorem ends_operandTail : Ends operandTail [Lexeme.binary] :=
  ⟨starts_operandTail, by simp [tailFirst]⟩

theorem ends_choiceTail : Ends choiceTail [Lexeme.sign "?"] :=
  ⟨starts_choiceTail, by simp [tailFirst]⟩

theorem ends_assignmentTail : Ends assignmentTail [Lexeme.assignment] :=
  ⟨starts_assignmentTail, by simp [tailFirst]⟩

/-- A reader that offers a form where an operand stops offers it where more might be read, too. -/
theorem Offers.maybeTail {reader : Reader Form} {place : Place} {tail : Reader (List Form)}
    {first : List Lexeme} (offers : Offers free reader place front.length kind Linked)
    (ends : Ends tail first) (stopped : Stopped rest) (hend : place.advance front.length = of rest) :
    Offers free (Reader.maybeMore reader fun form => Reader.extending form tail) place
      front.length kind Linked := by
  refine offers.maybeMore ?_ ?_
  · intro form _
    rw [hend]
    exact ends.fails_stopped stopped form
  · intro form place linked
    exact ends.fails_linked linked form

/-- A call at whose end an operand stops is a unary expression. -/
theorem offers_unary (hfront : front ≠ []) (stopped : Stopped rest)
    (faces : (of (front ++ rest)).Faces lead text)
    (hunary : Barred [Lexeme.unary] text) (hawait : Barred [Lexeme.keyword "await"] text)
    (offers : Offers free Rule.call (opened (front ++ rest)) front.length kind Linked) :
    Offers free Rule.unary (atUnary (front ++ rest)) front.length kind Linked := by
  have hshows := shows_atUnary (front ++ rest)
  have hfaces := faces.transfer hshows
  have hcall : Offers free Reader.call (atUnary (front ++ rest)) front.length kind Linked := by
    exact offers.column textual_linked (shows_opened _) hshows (call_atUnary (by simp [hfront]))
  have hmore := hcall.maybeTail ends_updateTail stopped (hshows.advance_append hfront)
  refine hmore.oneOf (List.mem_cons_self ..) ?_
  intro other hother
  simp only [List.mem_cons, List.not_mem_nil, or_false] at hother
  rcases hother with rfl | rfl | rfl
  · exact Or.inl rfl
  · exact Or.inr fun reading hreading =>
      absurd hreading (starts_signedUnary _ _ _ hfaces hunary reading)
  · exact Or.inr fun reading hreading =>
      absurd hreading (starts_awaited _ _ _ hfaces hawait reading)

/-- A unary expression at whose end an operand stops is an operand. -/
theorem offers_operand (hfront : front ≠ []) (stopped : Stopped rest)
    (offers : Offers free Rule.unary (atUnary (front ++ rest)) front.length kind Linked) :
    Offers free Rule.operand (atOperand (front ++ rest)) front.length kind Linked := by
  have hshows := shows_atOperand (front ++ rest)
  have hunary : Offers free Reader.unary (atOperand (front ++ rest)) front.length kind Linked := by
    exact offers.column textual_linked (shows_atUnary _) hshows (unary_atOperand (by simp [hfront]))
  exact hunary.maybeTail ends_typeTail stopped (hshows.advance_append hfront)

/-- Nothing is assigned to a call at whose end an operand stops. -/
theorem fails_assigned (hfront : front ≠ []) (stopped : Stopped rest)
    (offers : Offers free Rule.call (opened (front ++ rest)) front.length kind Linked) :
    Fails (Reader.call >>= fun form => extending form assignmentTail)
      (atAssignment (front ++ rest)) := by
  have hshows := shows_atAssignment (front ++ rest)
  have hcall : Offers free Reader.call (atAssignment (front ++ rest)) front.length kind Linked := by
    exact offers.column textual_linked (shows_opened _) hshows (call_atAssignment (by simp [hfront]))
  apply fails_bind_of_fails
  intro before hbefore
  rcases hcall.only before hbefore with ⟨hused, _, _⟩ | linked
  · rw [hused, hshows.advance_append hfront]
    exact ends_assignmentTail.fails_stopped stopped before.value
  · exact ends_assignmentTail.fails_linked linked before.value

/-- An operand that stops at its end is all that can be chosen or joined with others there. -/
theorem offers_choice (hfront : front ≠ []) (stopped : Stopped rest)
    (offers : Offers free Rule.operand (atOperand (front ++ rest)) front.length kind Linked) :
    Offers free (Reader.maybeMore Rule.binary fun form => extending form choiceTail)
      (atAssignment (front ++ rest)) front.length kind Linked := by
  have hshows := shows_atAssignment (front ++ rest)
  have hend : (atAssignment (front ++ rest)).advance front.length = of rest :=
    hshows.advance_append hfront
  have hoperand :
      Offers free Reader.operand (atAssignment (front ++ rest)) front.length kind Linked := by
    exact offers.column textual_linked (shows_atOperand _) hshows
      (operand_atAssignment (by simp [hfront]))
  have hbinary : Offers free Rule.binary (atAssignment (front ++ rest)) front.length kind
      Linked := by
    refine hoperand.iterate ?_ ?_
    · intro form _
      rw [hend]
      exact ends_operandTail.fails_stopped stopped form
    · intro form place linked
      exact ends_operandTail.fails_linked linked form
  exact hbinary.maybeTail ends_choiceTail stopped hend

/-- An operand that stops at its end is an assignment, unless it is the head of an arrow function. -/
theorem offers_assignment (hfront : front ≠ []) (stopped : Stopped rest)
    (faces : (of (front ++ rest)).Faces lead text)
    (hyield : Barred [Lexeme.keyword "yield"] text)
    (harrow : Fails Rule.arrowFunction (atAssignment (front ++ rest)))
    (hassigned : Fails (Reader.call >>= fun form => extending form assignmentTail)
      (atAssignment (front ++ rest)))
    (offers : Offers free Rule.operand (atOperand (front ++ rest)) front.length kind Linked) :
    Offers free Reader.assignment (of (front ++ rest)) front.length kind Linked := by
  have hshows := shows_atAssignment (front ++ rest)
  have hfaces := faces.transfer hshows
  have hrule : Offers free Rule.assignment (atAssignment (front ++ rest)) front.length kind
      Linked := by
    refine (offers_choice hfront stopped offers).oneOf (List.mem_cons_self ..) ?_
    intro other hother
    simp only [List.mem_cons, List.not_mem_nil, or_false] at hother
    rcases hother with rfl | rfl | rfl | rfl
    · exact Or.inl rfl
    · exact Or.inr fun reading hreading => absurd hreading (harrow reading)
    · exact Or.inr fun reading hreading => absurd hreading (hassigned reading)
    · exact Or.inr fun reading hreading =>
        absurd hreading (starts_yielded _ _ _ hfaces hyield reading)
  exact hrule.column textual_linked hshows (shows_of _) (assignment_of (by simp [hfront]))

/-- An assignment with a finished end is an expression. -/
theorem offers_expression (hfront : front ≠ []) (finished : Finished rest)
    (offers : Offers free Reader.assignment (of (front ++ rest)) front.length kind Unclosed) :
    Offers free Reader.expression (of (front ++ rest)) front.length kind Unclosed := by
  have hshows := shows_atExpression (front ++ rest)
  have hend : (atExpression (front ++ rest)).advance front.length = of rest :=
    hshows.advance_append hfront
  have hassignment :
      Offers free Reader.assignment (atExpression (front ++ rest)) front.length kind Unclosed := by
    exact offers.column textual_unclosed (shows_of _) hshows
      (assignment_atExpression (by simp [hfront]))
  have hrule : Offers free Rule.expression (atExpression (front ++ rest)) front.length kind
      Unclosed := by
    refine hassignment.iterate ?_ ?_
    · intro form _
      rw [hend]
      refine starts_commaTail.extending (of rest) 0 rest (.of_firm finished.closed.skipped_eq_none) ?_
      exact finished.barred_comma
    · intro form place unclosed
      exact fails_extending (fails_bind (unclosed "," (by simp)))
  exact hrule.column textual_unclosed hshows (shows_of _) (expression_of (by simp [hfront]))

end Lift

end Reader

end EditableMarkup.Grammar
