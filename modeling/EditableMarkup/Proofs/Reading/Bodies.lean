import EditableMarkup.Proofs.Reading.Signatures
import EditableMarkup.Proofs.Reading.Statements

/-!
# Bodies that return an expression

An expression between brackets is secured with the parentheses around it, by
the word `return` in front of it, and by a block that does nothing else.  A
return may also end at its word, but then the expression behind it is a
statement of its own.
-/

namespace EditableMarkup.Grammar.Reader

open Place Rule

/-! ## Expressions between brackets -/

/-- A text between brackets in front of another one: it is secured as an assignment of some kind
wherever spaces lead up to it. -/
structure Enclosed (value rest : List Char) (kind : Form → Prop) (part : Nat → Prop) : Prop where
  opens : ∃ c more, value = c :: more ∧ (c = '<' ∨ c = '(')
  closes : ∃ before c, value = before ++ [c] ∧ IsMark c
  secures : ∀ blank, (∀ e ∈ blank, Lexeme.isSpace e = true) →
    Secures Reader.assignment (of (blank ++ (value ++ rest))) (blank.length + value.length) kind part

section Enclosed

variable {value rest : List Char} {kind : Form → Prop} {part : Nat → Prop}

theorem Enclosed.ne_nil (enclosed : Enclosed value rest kind part) (blank : List Char) :
    blank ++ (value ++ rest) ≠ [] := by
  obtain ⟨c, more, rfl, _⟩ := enclosed.opens
  simp

theorem Enclosed.faces (enclosed : Enclosed value rest kind part) {blank : List Char}
    (hblank : ∀ e ∈ blank, Lexeme.isSpace e = true) :
    ∃ c more, (c = '<' ∨ c = '(') ∧ value ++ rest = c :: more ∧
      (of (blank ++ (value ++ rest))).Faces blank.length (c :: more) := by
  obtain ⟨c, more, rfl, hc⟩ := enclosed.opens
  refine ⟨c, more ++ rest, hc, rfl, .of_spaces hblank ?_⟩
  rcases hc with rfl | rfl <;> rfl

theorem Enclosed.expression (closing : Closing part) (enclosed : Enclosed value rest kind part)
    {blank : List Char} (hblank : ∀ e ∈ blank, Lexeme.isSpace e = true) :
    Secures Reader.expression (of (blank ++ (value ++ rest))) (blank.length + value.length) kind
      part :=
  secures_expression closing (enclosed.ne_nil blank) (enclosed.secures blank hblank)

/-- As a statement, the expression leads into the part. -/
theorem Enclosed.passes_statement (closing : Closing part) (enclosed : Enclosed value rest kind part)
    {blank : List Char} (hblank : ∀ e ∈ blank, Lexeme.isSpace e = true) :
    Passes Reader.statement (of (blank ++ (value ++ rest))) part := by
  obtain ⟨c, more, hc, _, hfaces⟩ := enclosed.faces hblank
  have hne := enclosed.ne_nil blank
  refine Reader.passes_statement hne hfaces
    (fun entry hentry => Or.inl (statement_bracket hc more entry hentry))
    (passes_expressionStatement hne closing (enclosed.expression closing hblank).passes) ?_
  rcases hc with rfl | rfl <;> rfl

/-! ## Parentheses -/

theorem primary_paren (rest : List Char) : ∀ other ∈ primaryTable,
    other = (Rule.group, [Lexeme.sign "("]) ∨ Barred other.2 ('(' :: rest) := by
  intro other hother
  simp only [primaryTable, List.mem_cons, List.not_mem_nil, or_false] at hother
  rcases hother with rfl | rfl | rfl | rfl | rfl | rfl | rfl | rfl | rfl | rfl | rfl | rfl | rfl | rfl
  case inr.inr.inr.inr.inr.inr.inr.inr.inr.inr.inl => exact Or.inl rfl
  all_goals
    refine Or.inr ?_
    simp only [barred_cons, barred_nil, and_true]
    and_intros <;> rfl

theorem operatorFirst_paren (rest : List Char) : Barred operatorFirst ('(' :: rest) := by
  simp only [operatorFirst, barred_cons, barred_nil, and_true]
  and_intros <;> rfl

/-- An arrow function at a parenthesis has parameters in parentheses. -/
theorem fails_arrowFunction_paren {place : Place} {lead : Nat}
    (faces : place.Faces lead ('(' :: rest)) (h : Fails parameterList place) :
    Fails Rule.arrowFunction place := by
  apply fails_sliced
  apply fails_bind_of_fails
  intro first hfirst
  have hzero : first.used = 0 :=
    mayStart_optionalKeyword rfl _ _ _ faces (barred_singleton.mpr rfl) first hfirst
  rw [hzero, advance_zero]
  apply fails_bind
  apply fails_oneOf
  intro reader hreader
  simp only [List.mem_cons, List.not_mem_nil, or_false] at hreader
  rcases hreader with rfl | rfl
  · exact starts_name.map _ _ _ faces (barred_singleton.mpr rfl)
  · refine fails_bind_of_fails fun types htypes => ?_
    have htypesUsed : types.used = 0 :=
      mayStart_ifPresent starts_typeParameters _ _ _ faces (barred_singleton.mpr rfl) types htypes
    rw [htypesUsed, advance_zero]
    exact fails_bind h

/-- An expression between brackets in parentheses is one again. -/
theorem Enclosed.group (closing : Closing part) (enclosed : Enclosed value (')' :: rest) kind part) :
    Enclosed ('(' :: (value ++ [')'])) rest
      (fun form => ∃ slice inner, form = .group slice inner ∧ kind inner) part where
  opens := ⟨'(', _, rfl, Or.inr rfl⟩
  closes := ⟨'(' :: value, ')', rfl, rfl, by decide⟩
  secures := by
    intro blank hblank
    have hshown : blank ++ ('(' :: (value ++ [')']) ++ rest) =
        blank ++ '(' :: (value ++ ')' :: rest) := by simp
    have hlength : blank.length + ('(' :: (value ++ [')'])).length =
        blank.length + 1 + (value.length + (0 + 1)) := by simp; omega
    rw [hshown, hlength]
    have hne : blank ++ '(' :: (value ++ ')' :: rest) ≠ [] := by simp
    have hfaces : (of (blank ++ '(' :: (value ++ ')' :: rest))).Faces blank.length
        ('(' :: (value ++ ')' :: rest)) := .of_spaces hblank rfl
    have hopened := hfaces.transfer (shows_opened _)
    have hopening : Settles True (Reader.sign "(") (opened (blank ++ '(' :: (value ++ ')' :: rest)))
        (blank.length + 1) fun _ => True := settles_sign hopened rfl rfl
    have hgroup : Secures Rule.group (opened (blank ++ '(' :: (value ++ ')' :: rest)))
        (blank.length + 1 + (value.length + (0 + 1)))
        (fun form => ∃ slice inner, form = .group slice inner ∧ kind inner) part := by
      refine Secures.sliced (hopening.bindSecures fun _ _ => ?_)
      rw [hopened.advance (by omega), List.drop_succ_cons, List.drop_zero]
      have hinner := @Enclosed.expression _ _ _ _ closing enclosed [] (by simp)
      simp only [List.nil_append, List.length_nil, Nat.zero_add] at hinner
      obtain ⟨before, c, rfl, hc⟩ := enclosed.closes
      have marks : Marks before c [] ')' := ⟨hc, by simp, rfl, by decide⟩
      have hshows : (of (before ++ [c] ++ ')' :: rest)).Shows
          (before ++ (c :: ([] ++ [')']) ++ rest)) := by
        have hsplit : before ++ [c] ++ ')' :: rest = before ++ (c :: ([] ++ [')']) ++ rest) := by simp
        rw [hsplit]
        exact shows_of _
      refine ⟨?_, hinner.passes.bind closing⟩
      refine hinner.keeps.closedBy marks hshows rfl (by simp) fun inner hinner slice => ?_
      exact ⟨slice, inner, rfl, hinner⟩
    have hprimary := secures_primary hne hfaces (by simp [primaryTable]) (primary_paren _) hgroup
    refine secures_assignment closing hne hfaces (operatorFirst_paren _) ?_ hprimary
    obtain ⟨c, more, hc, hvalue, _⟩ := @Enclosed.faces _ _ _ _ enclosed [] (by simp)
    have harrow := hfaces.transfer (shows_atAssignment _)
    refine (fails_arrowFunction_paren harrow ?_).passes
    rw [hvalue] at harrow ⊢
    exact fails_parameterList_bracket hc harrow

end Enclosed

/-! ## Returns -/

/-- A return of a value, with a semicolon behind it. -/
def returning (value rest : List Char) : List Char :=
  ['r', 'e', 't', 'u', 'r', 'n'] ++ ' ' :: (value ++ ';' :: rest)

theorem statement_returning (value rest : List Char) : ∀ other ∈ statementTable,
    other = (Rule.returnStatement, [Lexeme.keyword "return"]) ∨
      Barred other.2 (returning value rest) := by
  intro other hother
  simp only [statementTable, List.mem_cons, List.not_mem_nil, or_false] at hother
  rcases hother with rfl | rfl | rfl | rfl | rfl | rfl | rfl | rfl | rfl | rfl | rfl | rfl | rfl |
    rfl | rfl | rfl
  case inr.inr.inr.inr.inr.inr.inr.inl => exact Or.inl rfl
  all_goals
    refine Or.inr ?_
    simp only [barred_cons, barred_nil, and_true]
    and_intros <;> rfl

theorem expression_returning (value rest : List Char) :
    Barred expressionFirst (returning value rest) := by
  simp only [expressionFirst, operatorFirst, arrowFirst, primaryTable, List.flatMap_cons, List.flatMap_nil,
    List.cons_append, List.nil_append, barred_cons, barred_nil, and_true]
  and_intros <;> rfl

section Returning

variable {value rest : List Char} {kind : Form → Prop} {part : Nat → Prop}

theorem faces_returning (value rest : List Char) :
    (of (' ' :: returning value rest)).Faces 1 (returning value rest) := .of_space rfl

theorem advance_returning {place : Place} (shows_ : place.Shows (' ' :: returning value rest)) :
    place.advance (1 + 6) = of (' ' :: (value ++ ';' :: rest)) := by
  rw [shows_.advance (by omega)]
  rfl

theorem settles_return {place : Place} (shows_ : place.Shows (' ' :: returning value rest)) :
    Settles True (Reader.keyword "return") place (1 + 6) fun _ => True :=
  settles_keyword ((faces_returning value rest).transfer shows_) rfl rfl

/-- A return keeps its value up to the semicolon. -/
theorem Enclosed.keeps_returnStatement (closing : Closing part)
    (enclosed : Enclosed value (';' :: rest) kind part) :
    Keeps Rule.returnStatement (atStatement (' ' :: returning value rest))
      (1 + 6 + (1 + value.length + (0 + 1))) 0
      (fun form => ∃ slice inner, form = .returned slice inner ∧ kind inner) := by
  have hshows := shows_atStatement (' ' :: returning value rest)
  have hexpression : Keeps Reader.expression (of (' ' :: (value ++ ';' :: rest)))
      (1 + value.length) 0 kind :=
    (@Enclosed.expression _ _ _ _ closing enclosed [' '] (by simp [Lexeme.isSpace])).keeps
  have hoptional : Keeps (optional Reader.expression) (of (' ' :: (value ++ ';' :: rest)))
      (1 + value.length) 0 (fun found => ∃ form, found = some form ∧ kind form) :=
    (hexpression.map fun form hform => ⟨form, rfl, hform⟩).first
  refine ((settles_return hshows).bindKeeps fun _ _ => ?_).sliced
  rw [advance_returning hshows]
  obtain ⟨before, c, rfl, hc⟩ := enclosed.closes
  have marks : Marks (' ' :: before) c [] ';' := ⟨hc, by simp, rfl, by decide⟩
  have hbehind : (of (' ' :: (before ++ [c] ++ ';' :: rest))).Shows
      (' ' :: before ++ (c :: ([] ++ [';']) ++ rest)) := by
    have hsplit : ' ' :: (before ++ [c] ++ ';' :: rest) =
        ' ' :: before ++ (c :: ([] ++ [';']) ++ rest) := by simp
    rw [hsplit]
    exact shows_of _
  refine hoptional.endedBy marks hbehind rfl (by simp; omega) ?_
  rintro _ ⟨form, rfl, hform⟩ slice
  exact ⟨slice, form, rfl, hform⟩

/-- A return ends at its word or leads into the part. -/
theorem Enclosed.passes_returnStatement (closing : Closing part)
    (enclosed : Enclosed value (';' :: rest) kind part) :
    Passes Rule.returnStatement (atStatement (' ' :: returning value rest))
      (Halts (' ' :: returning value rest).length [1 + 6] part) := by
  have hshows := shows_atStatement (' ' :: returning value rest)
  have hblank : ∀ e ∈ [' '], Lexeme.isSpace e = true := by simp [Lexeme.isSpace]
  have hexpression := (enclosed.expression closing hblank).passes
  have hchain : Passes Rule.returnStatement (atStatement (' ' :: returning value rest))
      (Halts (atStatement (' ' :: returning value rest)).length ([0].map (1 + 6 + ·)) part) := by
    refine ((settles_return hshows).bindHalts fun _ _ => ?_).sliced
    rw [advance_returning hshows]
    refine passes_bind fun found hfound => ?_
    obtain ⟨reader, hreader, hreads⟩ := exists_of_reads_oneOf hfound
    simp only [List.mem_cons, List.not_mem_nil, or_false] at hreader
    rcases hreader with rfl | rfl
    · have hpart := hexpression.map closing found hreads
      refine (passes_of_part closing ?_).imp fun _ => Or.inr
      rwa [length_advance]
    · obtain ⟨c, more, hc, _, hfaces⟩ := enclosed.faces hblank
      have hnone : Fails (Reader.sign ";") (of ([' '] ++ (value ++ ';' :: rest))) := by
        refine starts_sign rfl _ _ _ hfaces (barred_singleton.mpr ?_)
        rcases hc with rfl | rfl <;> rfl
      rw [reads_nothing.mp hreads]
      refine (Offers.missing hnone).bindPasses fun _ _ reading hreading => ?_
      rw [reads_pure.mp hreading]
      exact Or.inl ⟨0, by simp, rfl⟩
  rwa [length_under] at hchain

/-- A statement that returns the value. -/
theorem Enclosed.keeps_statement (closing : Closing part)
    (enclosed : Enclosed value (';' :: rest) kind part) :
    Keeps Reader.statement (of (' ' :: returning value rest))
      (1 + 6 + (1 + value.length + (0 + 1))) 0
      (fun form => ∃ slice inner, form = .returned slice inner ∧ kind inner) :=
  Reader.keeps_statement (List.cons_ne_nil _ _) (faces_returning value rest)
    (List.mem_of_getElem? (show statementTable[7]? = some _ from rfl))
    (statement_returning value rest)
    (enclosed.keeps_returnStatement closing)

theorem Enclosed.passes_returning (closing : Closing part)
    (enclosed : Enclosed value (';' :: rest) kind part) :
    Passes Reader.statement (of (' ' :: returning value rest))
      (Halts (' ' :: returning value rest).length [1 + 6] part) := by
  have hne : ' ' :: returning value rest ≠ [] := List.cons_ne_nil _ _
  have hnone := fails_expression hne (faces_returning value rest) (expression_returning value rest)
  refine Reader.passes_statement hne (faces_returning value rest) (fun entry hentry => ?_) ?_ rfl
  · rcases statement_returning value rest entry hentry with rfl | hbarred
    · exact Or.inr (enclosed.passes_returnStatement closing)
    · exact Or.inl hbarred
  · have hnowhere : Closing fun _ => False := fun _ _ _ => id
    exact (passes_expressionStatement hne hnowhere hnone).imp fun _ => False.elim

end Returning

/-! ## Blocks -/

/-- A form is a block that does nothing but return a form of some kind. -/
def Returns (kind : Form → Prop) (form : Form) : Prop :=
  ∃ slice slice' inner, form = .block slice [.returned slice' inner] ∧ kind inner

/-- A block that returns a value. -/
def body (value rest : List Char) : List Char :=
  ' ' :: '\x7b' :: ' ' :: returning value (' ' :: '\x7d' :: rest)

/-- The length of a block that returns a value of some length. -/
def bodyLength (length : Nat) : Nat :=
  1 + 1 + (1 + 6 + (1 + length + (0 + 1)) + (1 + 1))

/-- A block that returns the value is secured. -/
theorem Enclosed.block {value rest : List Char} {kind : Form → Prop} {part : Nat → Prop}
    (closing : Closing part) (enclosed : Enclosed value (';' :: ' ' :: '\x7d' :: rest) kind part) :
    Secures Reader.block (of (body value rest)) (bodyLength value.length) (Returns kind) part := by
  have hne : body value rest ≠ [] := List.cons_ne_nil _ _
  have hfaces : (bare (body value rest)).Faces 1
      ('\x7b' :: ' ' :: returning value (' ' :: '\x7d' :: rest)) :=
    (Faces.of_space rfl).transfer (shows_bare _)
  have hopening : Settles True (Reader.sign "\x7b") (bare (body value rest)) (1 + 1)
      fun _ => True :=
    settles_sign hfaces rfl rfl
  have hmany := (enclosed.keeps_statement closing).many (by omega)
  have hrule : Secures Rule.block (bare (body value rest)) (bodyLength value.length)
      (Returns kind) part := by
    refine Secures.sliced (hopening.bindSecures fun _ _ => ?_)
    rw [hfaces.advance (by omega), List.drop_succ_cons, List.drop_zero]
    refine ⟨?_, ?_⟩
    · have marks : Marks (' ' :: ['r', 'e', 't', 'u', 'r', 'n'] ++ ' ' :: value) ';' [' '] '\x7d' :=
        ⟨⟨rfl, by decide⟩, by simp, rfl, by decide⟩
      have hshows : (of (' ' :: returning value (' ' :: '\x7d' :: rest))).Shows
          (' ' :: ['r', 'e', 't', 'u', 'r', 'n'] ++ ' ' :: value ++ (';' :: ([' '] ++ ['\x7d']) ++ rest)) := by
        have hsplit : ' ' :: returning value (' ' :: '\x7d' :: rest) =
            ' ' :: ['r', 'e', 't', 'u', 'r', 'n'] ++ ' ' :: value ++ (';' :: ([' '] ++ ['\x7d']) ++ rest) := by
          simp [returning]
        rw [hsplit]
        exact shows_of _
      have hend : 1 + 6 + (1 + value.length + (0 + 1)) =
          (' ' :: ['r', 'e', 't', 'u', 'r', 'n'] ++ ' ' :: value).length + 1 := by
        simp
        omega
      refine hmany.closedBy marks hshows rfl hend ?_
      rintro _ ⟨form, rfl, slice', inner, rfl, hinner⟩ slice
      exact ⟨slice, slice', inner, rfl, hinner⟩
    · have hpasses := enclosed.passes_returning closing
      rw [← length_of] at hpasses
      have hbehind : Passes Reader.statement
          ((of (' ' :: returning value (' ' :: '\x7d' :: rest))).advance (1 + 6)) part := by
        rw [advance_returning (shows_of _)]
        exact @Enclosed.passes_statement _ _ _ _ closing enclosed [' '] (by simp [Lexeme.isSpace])
      have hnext : ∀ stop ∈ [1 + 6], Passes Reader.statement
          ((of (' ' :: returning value (' ' :: '\x7d' :: rest))).advance stop) part := by
        intro stop hstop
        rw [List.mem_singleton.mp hstop]
        exact hbehind
      refine (hpasses.many closing hnext).bind_of_halts closing ?_
      intro stop hstop statements
      apply fails_bind
      simp only [List.mem_cons, List.not_mem_nil, or_false] at hstop
      rcases hstop with rfl | rfl
      · exact starts_sign rfl _ _ _ (faces_returning _ _) (barred_singleton.mpr rfl)
      · rw [advance_returning (shows_of _)]
        obtain ⟨c, more, hc, _, hvalue⟩ :=
          @Enclosed.faces _ _ _ _ enclosed [' '] (by simp [Lexeme.isSpace])
        refine starts_sign rfl _ _ _ hvalue (barred_singleton.mpr ?_)
        rcases hc with rfl | rfl <;> rfl
  exact hrule.transfer (block_of hne) (by rw [length_of, length_under])

/-- The body of a function without parameters is secured. -/
theorem Enclosed.signed {value rest : List Char} {kind : Form → Prop} {part : Nat → Prop}
    (closing : Closing part) (enclosed : Enclosed value (';' :: ' ' :: '\x7d' :: rest) kind part)
    {β : Type} {f : List Form → Form → β} {kind' : β → Prop}
    (h : ∀ form, Returns kind form → kind' (f [] form)) :
    Secures (signature >>= fun head => Reader.block >>= fun form => Pure.pure (f head form))
      (of ('(' :: ')' :: body value rest)) (0 + 2 + bodyLength value.length) kind' part := by
  have hfaces : (of ('(' :: ')' :: body value rest)).Faces 0 ('(' :: ')' :: body value rest) :=
    .of_firm rfl
  refine (settles_signature hfaces).bindSecures fun head hhead => ?_
  rw [hfaces.advance (by omega)]
  subst hhead
  exact (enclosed.block closing).returning closing h

end EditableMarkup.Grammar.Reader
