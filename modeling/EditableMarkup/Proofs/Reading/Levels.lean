import EditableMarkup.Proofs.Reading.Primary
import EditableMarkup.Proofs.Reading.Secures

/-!
# From primary expressions to statements

A primary expression that is kept is kept as a call, as a unary expression, and
so on up to a statement, whatever may follow it; and where every primary
expression leads far enough, everything that starts with one does.
-/

namespace EditableMarkup.Grammar.Reader

open Place Rule

section Levels

variable {shown text : List Char} {lead used : Nat} {kind : Form → Prop} {part : Nat → Prop}

/-! ## Primary expressions -/

/-- The alternatives of a primary expression that do not start at a text fail there. -/
theorem primary_others (hne : shown ≠ []) (faces : (of shown).Faces lead text)
    {entry : Reader Form × List Lexeme}
    (hothers : ∀ other ∈ primaryTable, other = entry ∨ Barred other.2 text) :
    ∀ reader ∈ primaryTable.map Prod.fst, reader = entry.1 ∨ Fails reader (opened shown) := by
  intro reader hreader
  obtain ⟨other, hother, rfl⟩ := List.mem_map.mp hreader
  rcases hothers other hother with rfl | hbarred
  · exact Or.inl rfl
  · exact Or.inr (fails_primaryTable hne faces other hother hbarred)

/-- What the only alternative of a primary expression that can start at a text secures. -/
theorem secures_primary (hne : shown ≠ []) (faces : (of shown).Faces lead text)
    {entry : Reader Form × List Lexeme} (hentry : entry ∈ primaryTable)
    (hothers : ∀ other ∈ primaryTable, other = entry ∨ Barred other.2 text)
    (secures : Secures entry.1 (opened shown) used kind part) :
    Secures Rule.primary (opened shown) used kind part := by
  rw [primary_eq]
  exact secures.choose (List.mem_map_of_mem hentry) (primary_others hne faces hothers)

/-- The alternatives that can start at a text decide how far primary expressions lead. -/
theorem passes_primary (hne : shown ≠ []) (faces : (of shown).Faces lead text)
    (h : ∀ entry ∈ primaryTable, Barred entry.2 text ∨ Passes entry.1 (opened shown) part) :
    Passes Rule.primary (opened shown) part := by
  rw [primary_eq]
  refine passes_oneOf fun reader hreader => ?_
  obtain ⟨entry, hentry, rfl⟩ := List.mem_map.mp hreader
  rcases h entry hentry with hbarred | hpasses
  · exact (fails_primaryTable hne faces entry hentry hbarred).passes
  · exact hpasses

/-! ## What is kept -/

theorem keeps_assignment_of_operand (hne : shown ≠ [])
    (keeps : Keeps Rule.operand (atOperand shown) used 0 kind) :
    Keeps Reader.assignment (of shown) used 0 kind := by
  have hoperand : Keeps Reader.operand (atAssignment shown) used 0 kind :=
    keeps.transfer (operand_atAssignment hne)
  have hrule : Keeps Rule.assignment (atAssignment shown) used 0 kind :=
    hoperand.iterate.maybeMore.first
  exact hrule.transfer (assignment_of hne)

/-- A primary expression that is kept is kept as an assignment. -/
theorem keeps_assignment (hne : shown ≠ [])
    (keeps : Keeps Rule.primary (opened shown) used 0 kind) :
    Keeps Reader.assignment (of shown) used 0 kind := by
  have hrule : Keeps Rule.call (opened shown) used 0 kind := keeps.first.iterate
  have hcall : Keeps Reader.call (atUnary shown) used 0 kind := hrule.transfer (call_atUnary hne)
  have hunaryRule : Keeps Rule.unary (atUnary shown) used 0 kind := hcall.maybeMore.first
  have hunary : Keeps Reader.unary (atOperand shown) used 0 kind :=
    hunaryRule.transfer (unary_atOperand hne)
  exact keeps_assignment_of_operand hne hunary.maybeMore

/-- An arrow function that is kept is kept as an assignment, where no operand is read. -/
theorem keeps_assignment_of_arrow (hne : shown ≠ [])
    (hoperand : Fails Reader.operand (atAssignment shown))
    (keeps : Keeps Rule.arrowFunction (atAssignment shown) used 0 kind) :
    Keeps Reader.assignment (of shown) used 0 kind := by
  have hbinary : Fails (maybeMore binary fun form => extending form choiceTail)
      (atAssignment shown) := fails_maybeMore (fails_iterate hoperand)
  have hrule : Keeps Rule.assignment (atAssignment shown) used 0 kind := by
    refine @Keeps.oneOf _ _ _ _ _ _ _ [_] _ keeps rfl ?_ fun _ _ _ _ => Nat.zero_le _
    intro earlier hearlier other hother
    rw [List.mem_singleton.mp hearlier] at hother
    exact absurd hother (hbinary other)
  exact hrule.transfer (assignment_of hne)

theorem keeps_expression (hne : shown ≠ [])
    (keeps : Keeps Reader.assignment (of shown) used 0 kind) :
    Keeps Reader.expression (of shown) used 0 kind := by
  have hassignment : Keeps Reader.assignment (atExpression shown) used 0 kind :=
    keeps.transfer (assignment_atExpression hne)
  have hrule : Keeps Rule.expression (atExpression shown) used 0 kind := hassignment.iterate
  exact hrule.transfer (expression_of hne)

/-! ## What leads far enough -/

section Closing

variable (closing : Closing part)

include closing

/-- Where a primary expression leads far enough, so does a call. -/
theorem passes_call (faces : (of shown).Faces lead text) (hfree : Barred operatorFirst text)
    (passes : Passes Rule.primary (opened shown) part) : Passes Rule.call (opened shown) part := by
  have hnew : Barred [Lexeme.keyword "new"] text := hfree.mono (by simp [operatorFirst])
  have hfirst : Passes (oneOf [Rule.primary, newInstance]) (opened shown) part := by
    refine passes_oneOf fun reader hreader => ?_
    simp only [List.mem_cons, List.not_mem_nil, or_false] at hreader
    rcases hreader with rfl | rfl
    · exact passes
    · exact Fails.passes (starts_newInstance _ _ _ (faces.transfer (shows_opened shown)) hnew)
  exact hfirst.iterate closing

theorem passes_operand (hne : shown ≠ []) (faces : (of shown).Faces lead text)
    (hfree : Barred operatorFirst text) (passes : Passes Rule.primary (opened shown) part) :
    Passes Reader.operand (atAssignment shown) part := by
  have hfaces := faces.transfer (shows_atUnary shown)
  have hcall : Passes Reader.call (atUnary shown) part :=
    (passes_call closing faces hfree passes).transfer (call_atUnary hne)
      (by rw [length_under, length_under])
  have hunary : Passes Rule.unary (atUnary shown) part := by
    refine passes_oneOf fun reader hreader => ?_
    simp only [List.mem_cons, List.not_mem_nil, or_false] at hreader
    rcases hreader with rfl | rfl | rfl
    · exact hcall.maybeMore closing
    · exact Fails.passes (starts_signedUnary _ _ _ hfaces (hfree.mono (by simp [operatorFirst])))
    · exact Fails.passes (starts_awaited _ _ _ hfaces (hfree.mono (by simp [operatorFirst])))
  have hread : Passes Reader.unary (atOperand shown) part :=
    hunary.transfer (unary_atOperand hne) (by rw [length_under, length_under])
  have hrule : Passes Rule.operand (atOperand shown) part := hread.maybeMore closing
  exact hrule.transfer (operand_atAssignment hne) (by rw [length_under, length_under])

/-- Where primary expressions and arrow functions lead far enough, so do assignments. -/
theorem passes_assignment (hne : shown ≠ []) (faces : (of shown).Faces lead text)
    (hfree : Barred operatorFirst text)
    (harrow : Passes Rule.arrowFunction (atAssignment shown) part)
    (passes : Passes Rule.primary (opened shown) part) :
    Passes Reader.assignment (of shown) part := by
  have hfaces := faces.transfer (shows_atAssignment shown)
  have hoperand := passes_operand closing hne faces hfree passes
  have hcall : Passes Reader.call (atAssignment shown) part :=
    (passes_call closing faces hfree passes).transfer (call_atAssignment hne)
      (by rw [length_under, length_under])
  have hrule : Passes Rule.assignment (atAssignment shown) part := by
    refine passes_oneOf fun reader hreader => ?_
    simp only [List.mem_cons, List.not_mem_nil, or_false] at hreader
    rcases hreader with rfl | rfl | rfl | rfl
    · exact (hoperand.iterate closing).maybeMore closing
    · exact harrow
    · exact hcall.bind closing
    · exact Fails.passes (starts_yielded _ _ _ hfaces (hfree.mono (by simp [operatorFirst])))
  exact hrule.transfer (assignment_of hne) (by rw [length_of, length_under])

theorem passes_expression (hne : shown ≠ []) (passes : Passes Reader.assignment (of shown) part) :
    Passes Reader.expression (of shown) part := by
  have hassignment : Passes Reader.assignment (atExpression shown) part :=
    passes.transfer (assignment_atExpression hne) (by rw [length_of, length_under])
  have hrule : Passes Rule.expression (atExpression shown) part := hassignment.iterate closing
  exact hrule.transfer (expression_of hne) (by rw [length_of, length_under])

/-! ## What is secured -/

/-- A primary expression that is secured is secured as an assignment. -/
theorem secures_assignment (hne : shown ≠ []) (faces : (of shown).Faces lead text)
    (hfree : Barred operatorFirst text)
    (harrow : Passes Rule.arrowFunction (atAssignment shown) part)
    (secures : Secures Rule.primary (opened shown) used kind part) :
    Secures Reader.assignment (of shown) used kind part :=
  ⟨keeps_assignment hne secures.keeps,
    passes_assignment closing hne faces hfree harrow secures.passes⟩

/-- An arrow function that is secured is secured as an assignment, where no primary expression is
read. -/
theorem secures_assignment_of_arrow (hne : shown ≠ []) (faces : (of shown).Faces lead text)
    (hfree : Barred operatorFirst text) (hprimary : Fails Rule.primary (opened shown))
    (secures : Secures Rule.arrowFunction (atAssignment shown) used kind part) :
    Secures Reader.assignment (of shown) used kind part := by
  have hnowhere : Closing fun _ => False := fun _ _ _ => id
  have hoperand : Fails Reader.operand (atAssignment shown) :=
    passes_operand hnowhere hne faces hfree hprimary.passes
  exact ⟨keeps_assignment_of_arrow hne hoperand secures.keeps,
    passes_assignment closing hne faces hfree secures.passes hprimary.passes⟩

theorem secures_expression (hne : shown ≠ [])
    (secures : Secures Reader.assignment (of shown) used kind part) :
    Secures Reader.expression (of shown) used kind part :=
  ⟨keeps_expression hne secures.keeps, passes_expression closing hne secures.passes⟩

end Closing

/-! ## Up to the end of a text -/

section Whole

variable {free : Prop} {front : List Char}

/-- Where every reading leads to the end of a text, what is offered up to there settles. -/
theorem Offers.settles_whole {reader : Reader Form}
    (offers : Offers free reader (of front) front.length kind Linked)
    (passes : Passes reader (of front) (· = 0)) :
    Settles free reader (of front) front.length kind where
  alive := id
  reaches := offers.reaches
  only reading hreading := by
    refine (offers.only reading hreading).imp_right fun linked => ?_
    have hend := passes reading hreading
    rw [length_of] at hend
    rw [advance_of, List.drop_eq_nil_of_le (by omega)] at linked
    exact (Closed.stopped rfl).not_linked linked

/-- A primary expression that is a whole text is an expression, unless it is the head of an arrow
function. -/
theorem settles_expression_whole (hne : front ≠ []) (faces : (of front).Faces lead text)
    (hfree : Barred operatorFirst text) (harrow : Fails Rule.arrowFunction (atAssignment front))
    (settles : Settles free Rule.primary (opened front) front.length kind) :
    Settles free Reader.expression (of front) front.length kind := by
  have hclosing : Closing (· = 0) := fun more fewer hfewer hmore =>
    Nat.eq_zero_of_le_zero (hmore ▸ hfewer)
  have hpasses : Passes Reader.assignment (of front) (· = 0) := by
    refine passes_assignment hclosing hne faces hfree harrow.passes (settles.passes ?_)
    rw [length_under, Nat.sub_self]
  have hoffers : Offers free Reader.assignment (of front) front.length kind Linked := by
    have hread := @offers_assignment_of_arrowless free front [] text lead kind hne
      (Closed.stopped rfl)
    rw [List.append_nil] at hread
    exact hread faces hfree harrow settles
  have hassignment : Settles free Reader.assignment (atExpression front) front.length kind :=
    (hoffers.settles_whole hpasses).transfer (assignment_atExpression hne) fun _ => Iff.rfl
  have hrule : Settles free Rule.expression (atExpression front) front.length kind := by
    refine hassignment.iterate (fun form _ => ?_) fun _ _ => False.elim
    have hend : (atExpression front).advance front.length = of [] := by
      rw [(shows_atExpression front).advance (List.length_pos_iff.mpr hne), List.drop_length]
    rw [hend]
    exact starts_commaTail.extending (of []) 0 [] (.of_firm rfl) (barred_singleton.mpr rfl)
  exact hrule.transfer (expression_of hne) fun _ => Iff.rfl

end Whole

/-! ## Texts that start no operator and no arrow function -/

/-- What arrow functions start with. -/
def arrowFirst : List Lexeme :=
  [Lexeme.keyword "async", Lexeme.name, Lexeme.sign "<", Lexeme.sign "("]

/-- The alternatives of a primary expression that can start at a text decide how far assignments
lead. -/
theorem passes_assignment_of_primary (closing : Closing part) (hne : shown ≠ [])
    (faces : (of shown).Faces lead text) (hfree : Barred (operatorFirst ++ arrowFirst) text)
    (h : ∀ entry ∈ primaryTable, Barred entry.2 text ∨ Passes entry.1 (opened shown) part) :
    Passes Reader.assignment (of shown) part := by
  obtain ⟨hoperator, harrow⟩ := barred_append.mp hfree
  have harrowFails : Fails Rule.arrowFunction (atAssignment shown) :=
    starts_arrowFunction _ _ _ (faces.transfer (shows_atAssignment shown)) harrow
  exact passes_assignment closing hne faces hoperator harrowFails.passes (passes_primary hne faces h)

/-- They decide how far expressions lead, too. -/
theorem passes_expression_of_primary (closing : Closing part) (hne : shown ≠ [])
    (faces : (of shown).Faces lead text) (hfree : Barred (operatorFirst ++ arrowFirst) text)
    (h : ∀ entry ∈ primaryTable, Barred entry.2 text ∨ Passes entry.1 (opened shown) part) :
    Passes Reader.expression (of shown) part :=
  passes_expression closing hne (passes_assignment_of_primary closing hne faces hfree h)

/-- Where neither a primary expression nor an arrow function is read, no expression is. -/
theorem fails_expression_of_primary (hne : shown ≠ []) (faces : (of shown).Faces lead text)
    (hfree : Barred operatorFirst text) (harrow : Fails Rule.arrowFunction (atAssignment shown))
    (hprimary : Fails Rule.primary (opened shown)) : Fails Reader.expression (of shown) := by
  have hnowhere : Closing fun _ => False := fun _ _ _ => id
  have hassignment : Passes Reader.assignment (of shown) fun _ => False :=
    passes_assignment hnowhere hne faces hfree harrow.passes hprimary.passes
  exact passes_expression hnowhere hne hassignment

/-- What expressions start with. -/
def expressionFirst : List Lexeme :=
  operatorFirst ++ arrowFirst ++ primaryTable.flatMap Prod.snd

theorem expression_closing (rest : List Char) : Barred expressionFirst (')' :: rest) := by
  simp only [expressionFirst, operatorFirst, arrowFirst, primaryTable, List.flatMap_cons,
    List.flatMap_nil, List.cons_append, List.nil_append, barred_cons, barred_nil, and_true]
  and_intros <;> rfl

theorem fails_assignment (hne : shown ≠ []) (faces : (of shown).Faces lead text)
    (h : Barred expressionFirst text) : Fails Reader.assignment (of shown) := by
  have hnowhere : Closing fun _ => False := fun _ _ _ => id
  obtain ⟨hfree, hprimary⟩ := barred_append.mp h
  refine passes_assignment_of_primary hnowhere hne faces hfree fun entry hentry => Or.inl ?_
  exact hprimary.mono fun taken htaken => List.mem_flatMap.mpr ⟨entry, hentry, htaken⟩

theorem fails_expression (hne : shown ≠ []) (faces : (of shown).Faces lead text)
    (h : Barred expressionFirst text) : Fails Reader.expression (of shown) := by
  have hnowhere : Closing fun _ => False := fun _ _ _ => id
  exact passes_expression hnowhere hne (fails_assignment hne faces h).passes

end Levels

end EditableMarkup.Grammar.Reader
