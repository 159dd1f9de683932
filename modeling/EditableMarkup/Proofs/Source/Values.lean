import EditableMarkup.Proofs.Reading.Primary
import EditableMarkup.Proofs.Source.Meaning

/-!
# Reading printed literals

A printed string, number or truth value whose end is closed is one assignment
that means the value, and there is no other way to read it.
-/

namespace EditableMarkup.Source

open EditableMarkup.Grammar EditableMarkup.Grammar.Reader EditableMarkup.Grammar.Place
open EditableMarkup.Grammar.Rule

variable {free : Prop}

/-- At a text nothing but one alternative of a primary expression can start. -/
def Sole (entry : Reader Form × List Lexeme) (text : List Char) : Prop :=
  entry ∈ primaryTable ∧ (∀ other ∈ primaryTable, other = entry ∨ Barred other.2 text) ∧
    Barred prefixFirst text

section Literal

variable {blank rest : List Char}

section Lexeme

variable {front : List Char} {taken : Lexeme} {f : Slice → Form}

/-- A text that only a lexeme of one class can start is one primary expression. -/
theorem settles_primary (hblank : ∀ c ∈ blank, Lexeme.isSpace c = true) (hne : front ≠ [])
    (hfirm : Lexeme.skipped (front ++ rest) = none) (solid : taken.Solid)
    (htaken : taken (front ++ rest) = some front.length)
    (hsole : Sole (f <$> lexeme taken, [taken]) (front ++ rest)) :
    (of (blank ++ front ++ rest)).Faces blank.length (front ++ rest) ∧
      Settles free Rule.primary (opened (blank ++ front ++ rest)) (blank ++ front).length
        (· = f ⟨front ++ rest, front.length⟩) := by
  obtain ⟨hentry, hothers, _⟩ := hsole
  have hfaces : (of (blank ++ front ++ rest)).Faces blank.length (front ++ rest) := by
    rw [List.append_assoc]
    exact .of_spaces hblank hfirm
  have hshown : blank ++ front ++ rest ≠ [] := by simp [hne]
  have hform : Settles free (f <$> lexeme taken) (opened (blank ++ front ++ rest))
      (blank ++ front).length (· = f ⟨front ++ rest, front.length⟩) := by
    rw [List.length_append]
    refine (settles_lexeme (hfaces.transfer (shows_opened _)) solid htaken).map
      fun slice hslice => ?_
    rw [hslice]
  exact ⟨hfaces, offers_primary hshown hfaces hentry hform hothers⟩

/-- A text that only a lexeme of one class can start is read as a form of it. -/
theorem offers_assignment_of_lexeme {kind : Form → Prop}
    (hblank : ∀ c ∈ blank, Lexeme.isSpace c = true) (closed : Closed rest) (hne : front ≠ [])
    (hfirm : Lexeme.skipped (front ++ rest) = none) (solid : taken.Solid)
    (htaken : taken (front ++ rest) = some front.length)
    (hsole : Sole (f <$> lexeme taken, [taken]) (front ++ rest))
    (hkind : kind (f ⟨front ++ rest, front.length⟩)) :
    Offers free Reader.assignment (of (blank ++ front ++ rest)) (blank ++ front).length kind
      Linked := by
  obtain ⟨hfaces, hprimary⟩ := settles_primary hblank hne hfirm solid htaken hsole
  have hassignment := offers_assignment_of_primary (by simp [hne]) closed.stopped hfaces hsole.2.2 hprimary
  refine hassignment.imp fun form hform => ?_
  rw [hform]
  exact hkind

end Lexeme

/-! ## Strings -/

theorem sole_string (text rest : List Char) :
    Sole (Form.string <$> lexeme Lexeme.string, [Lexeme.string])
      (Literal.quotedChars text ++ rest) := by
  refine ⟨by simp [primaryTable], ?_, ?_⟩
  · intro other hother
    simp only [primaryTable, List.mem_cons, List.not_mem_nil, or_false] at hother
    rcases hother with rfl | rfl | rfl | rfl | rfl | rfl | rfl | rfl | rfl | rfl | rfl | rfl | rfl | rfl
    all_goals
      first
      | refine Or.inr ?_
        simp only [barred_cons, barred_nil, and_true]
        and_intros <;> rfl
      | exact Or.inl rfl
  · simp only [prefixFirst, barred_cons, barred_nil, and_true]
    and_intros <;> rfl

theorem offers_string (hblank : ∀ c ∈ blank, Lexeme.isSpace c = true) (closed : Closed rest)
    (text : String) :
    Offers free Reader.assignment (of (blank ++ Literal.quotedChars text.toList ++ rest))
      (blank ++ Literal.quotedChars text.toList).length (Means · (.string text)) Linked :=
  offers_assignment_of_lexeme hblank closed (by simp [Literal.quotedChars]) rfl
    Lexeme.opens_string.solid (Literal.string_quotedChars _ _) (sole_string _ _) (means_string rfl)

/-! ## Truth values -/

theorem Closed.stops {test : Char → Bool} (closed : Closed rest) (hcomma : test ',' = false)
    (hbrace : test '}' = false) (hparen : test ')' = false) (hstop : test ';' = false) :
    Stops test rest := by
  rcases closed.cases with rfl | ⟨behind, rfl | rfl | rfl | rfl⟩
  · rfl
  · exact hcomma
  · exact hbrace
  · exact hparen
  · exact hstop

/-- The spelling of a truth value. -/
def booleanChars (value : Bool) : List Char :=
  (if value then "true" else "false").toList

theorem keyword_booleanChars (closed : Closed rest) (value : Bool) :
    Lexeme.keyword (if value then "true" else "false") (booleanChars value ++ rest) =
      some (booleanChars value).length :=
  Lexeme.keyword_append (Closed.stops closed rfl rfl rfl rfl)

theorem boolean_booleanChars (closed : Closed rest) (value : Bool) :
    Lexeme.boolean (booleanChars value ++ rest) = some (booleanChars value).length := by
  have hkeyword := keyword_booleanChars closed value
  cases value with
  | true =>
      simp only [Lexeme.boolean, Lexeme.keywordOf, Lexeme.firstOf, List.map_cons,
        List.findSome?_cons, if_true] at hkeyword ⊢
      rw [hkeyword]
  | false =>
      have hnone : Lexeme.keyword "true" (booleanChars false ++ rest) = none := rfl
      simp only [Lexeme.boolean, Lexeme.keywordOf, Lexeme.firstOf, List.map_cons,
        List.findSome?_cons, hnone, Bool.false_eq_true, if_false] at hkeyword ⊢
      rw [hkeyword]

theorem sole_boolean (closed : Closed rest) (value : Bool) :
    Sole (Form.boolean <$> lexeme Lexeme.boolean, [Lexeme.boolean])
      (booleanChars value ++ rest) := by
  have hname : Lexeme.name (booleanChars value ++ rest) = none := by
    refine Lexeme.name_eq_none_of_keyword ?_ (keyword_booleanChars closed value)
    cases value with
    | true => decide
    | false => decide
  refine ⟨by simp [primaryTable], ?_, ?_⟩
  · intro other hother
    simp only [primaryTable, List.mem_cons, List.not_mem_nil, or_false] at hother
    rcases hother with rfl | rfl | rfl | rfl | rfl | rfl | rfl | rfl | rfl | rfl | rfl | rfl | rfl | rfl
    all_goals
      first
      | refine Or.inr ?_
        simp only [barred_cons, barred_nil, and_true]
        and_intros <;> first | exact hname | (cases value <;> rfl)
      | exact Or.inl rfl
  · simp only [prefixFirst, barred_cons, barred_nil, and_true]
    and_intros <;> first | exact hname | (cases value <;> rfl)

theorem offers_boolean (hblank : ∀ c ∈ blank, Lexeme.isSpace c = true) (closed : Closed rest)
    (value : Bool) :
    Offers free Reader.assignment (of (blank ++ booleanChars value ++ rest))
      (blank ++ booleanChars value).length (Means · (.boolean value)) Linked := by
  refine offers_assignment_of_lexeme hblank closed ?_ ?_ Lexeme.solid_boolean
    (boolean_booleanChars closed value) (sole_boolean closed value) (means_boolean rfl)
  · cases value with
    | true => simp [booleanChars]
    | false => simp [booleanChars]
  · cases value with
    | true => rfl
    | false => rfl

/-! ## Numbers -/

/-- Nothing but a number starts with a digit. -/
theorem sole_number {c : Char} (h : c.isDigit = true) (rest : List Char) :
    Sole (Form.number <$> lexeme Lexeme.number, [Lexeme.number]) (c :: rest) := by
  have htest : (!c.isDigit) = false := by rw [h, Bool.not_true]
  have hkeyword (s : String) (hs : s.toList.head?.any (fun c => !c.isDigit) = true) :
      Lexeme.keyword s (c :: rest) = none := Lexeme.keyword_eq_none_of_head hs htest
  have hsign (s : String) (hs : s.toList.head?.any (fun c => !c.isDigit) = true) :
      Lexeme.sign s (c :: rest) = none := Lexeme.sign_eq_none_of_head hs htest
  have hname : Lexeme.name (c :: rest) = none :=
    Lexeme.opens_name.eq_none _
      (@forall_isDigit (fun c => Lexeme.startsName c = false) (by decide) c h)
  have hstring : Lexeme.string (c :: rest) = none :=
    Lexeme.opens_string.eq_none _
      (@forall_isDigit (fun c => (c == '"' || c == '\'') = false) (by decide) c h)
  have htemplate : Lexeme.template (c :: rest) = none :=
    Lexeme.opens_template.eq_none _
      (@forall_isDigit (fun c => (c == '\x60') = false) (by decide) c h)
  have hwords : ∀ s ∈ ["true", "false"], s.toList.head?.any (fun c => !c.isDigit) = true := by
    decide
  have hboolean : Lexeme.boolean (c :: rest) = none :=
    Lexeme.keywordOf_eq_none_of_head hwords htest
  have hunary : Lexeme.unary (c :: rest) = none := by
    apply Lexeme.firstOf_eq_none
    intro taken htaken
    simp only [List.mem_cons, List.not_mem_nil, or_false] at htaken
    rcases htaken with rfl | rfl
    · have hheads : ∀ s ∈ ["typeof", "void", "delete"],
          s.toList.head?.any (fun c => !c.isDigit) = true := by decide
      exact Lexeme.keywordOf_eq_none_of_head hheads htest
    · have hheads : ∀ s ∈ ["++", "--", "!", "~", "+", "-"],
          s.toList.head?.any (fun c => !c.isDigit) = true := by decide
      exact Lexeme.signOf_eq_none_of_head hheads htest
  refine ⟨by simp [primaryTable], ?_, ?_⟩
  · intro other hother
    simp only [primaryTable, List.mem_cons, List.not_mem_nil, or_false] at hother
    rcases hother with rfl | rfl | rfl | rfl | rfl | rfl | rfl | rfl | rfl | rfl | rfl | rfl | rfl | rfl
    all_goals
      first
      | refine Or.inr ?_
        simp only [barred_cons, barred_nil, and_true]
        and_intros <;>
          first
          | exact hkeyword _ rfl
          | exact hsign _ rfl
          | assumption
      | exact Or.inl rfl
  · simp only [prefixFirst, barred_cons, barred_nil, and_true]
    and_intros <;>
      first
      | exact hkeyword _ rfl
      | exact hsign _ rfl
      | assumption

theorem skipped_eq_none_of_isDigit {c : Char} (h : c.isDigit = true) (rest : List Char) :
    Lexeme.skipped (c :: rest) = none := by
  have hplain := @forall_isDigit (fun c => Lexeme.isSpace c = false ∧ c ≠ '/') (by decide) c h
  exact Lexeme.skipped_cons_eq_none hplain.1 hplain.2 rest

/-- An unsigned number is one assignment. -/
theorem offers_number (hblank : ∀ c ∈ blank, Lexeme.isSpace c = true) (closed : Closed rest)
    {text : List Char} {number : Number} (h : IsLiteralOf text number) :
    Offers free Reader.assignment (of (blank ++ text ++ rest)) (blank ++ text).length
      (Means · (.number number)) Linked := by
  obtain ⟨c, tail, rfl, hc⟩ := h.starts
  exact offers_assignment_of_lexeme hblank closed (by simp) (skipped_eq_none_of_isDigit hc _)
    Lexeme.opens_number.solid (h.lexeme rest (Closed.stops closed rfl rfl rfl rfl))
    (sole_number hc _) (means_number h)

/-- Nothing but a sign starts with a minus in front of a digit. -/
theorem barred_minus {c : Char} (h : c.isDigit = true) (rest : List Char) :
    (∀ entry ∈ primaryTable, Barred entry.2 ('-' :: c :: rest)) ∧
      Barred [Lexeme.keyword "new", Lexeme.keyword "await", Lexeme.keyword "yield",
        Lexeme.keyword "async", Lexeme.name, Lexeme.sign "<", Lexeme.sign "("]
        ('-' :: c :: rest) ∧
      Lexeme.unary ('-' :: c :: rest) = some 1 := by
  have hminus : '-' ≠ c := by
    rintro rfl
    exact absurd h (by decide)
  refine ⟨?_, ?_, ?_⟩
  · intro entry hentry
    simp only [primaryTable, List.mem_cons, List.not_mem_nil, or_false] at hentry
    rcases hentry with rfl | rfl | rfl | rfl | rfl | rfl | rfl | rfl | rfl | rfl | rfl | rfl | rfl | rfl
    all_goals
      simp only [barred_cons, barred_nil, and_true]
      and_intros <;> rfl
  · simp only [barred_cons, barred_nil, and_true]
    and_intros <;> rfl
  · have hwords : Lexeme.keywordOf ["typeof", "void", "delete"] ('-' :: c :: rest) = none := rfl
    have hplus : Lexeme.sign "++" ('-' :: c :: rest) = none := rfl
    have hminuses : Lexeme.sign "--" ('-' :: c :: rest) = none := by
      have hspelling : "--".toList = ['-', '-'] := rfl
      simp [Lexeme.sign, hspelling, Lexeme.spelled, hminus]
    have hbang : Lexeme.sign "!" ('-' :: c :: rest) = none := rfl
    have htilde : Lexeme.sign "~" ('-' :: c :: rest) = none := rfl
    have hone : Lexeme.sign "+" ('-' :: c :: rest) = none := rfl
    have hsign : Lexeme.sign "-" ('-' :: c :: rest) = some 1 := rfl
    simp only [Lexeme.unary, Lexeme.firstOf, List.findSome?_cons, hwords, Lexeme.signOf,
      List.map_cons, hplus, hminuses, hbang, htilde, hone, hsign]

/-- A number behind a minus is one assignment. -/
theorem offers_negative (hblank : ∀ c ∈ blank, Lexeme.isSpace c = true) (closed : Closed rest)
    {text : List Char} {number : Number} (h : IsLiteralOf text number) :
    Offers free Reader.assignment (of (blank ++ '-' :: text ++ rest)) (blank ++ '-' :: text).length
      (Means · (.number number.negate)) Linked := by
  obtain ⟨c, tail, rfl, hc⟩ := h.starts
  obtain ⟨hprimary, hfree, hunary⟩ := barred_minus hc (tail ++ rest)
  simp only [barred_cons] at hfree
  obtain ⟨hnew, hawait, hyield, hasync, hname, hangle, hparen, _⟩ := hfree
  have hfaces : (of (blank ++ '-' :: c :: tail ++ rest)).Faces blank.length
      ('-' :: c :: (tail ++ rest)) := by
    rw [List.append_assoc]
    exact .of_spaces hblank rfl
  have hfront : blank ++ '-' :: c :: tail ≠ [] := by simp
  have hshown : blank ++ '-' :: c :: tail ++ rest ≠ [] := by simp
  -- the number behind the sign is a unary expression by itself
  have hnumber : Offers free Reader.unary (of (c :: tail ++ rest)) (c :: tail).length
      (· = Form.number ⟨c :: tail ++ rest, (c :: tail).length⟩) Linked := by
    have hsole := sole_number hc (tail ++ rest)
    obtain ⟨hnumberFaces, hsettles⟩ :=
      @settles_primary free [] rest (c :: tail) _ Form.number (by simp)
      (by simp) (skipped_eq_none_of_isDigit hc _) Lexeme.opens_number.solid
      (h.lexeme rest (Closed.stops closed rfl rfl rfl rfl)) hsole
    have hrule := offers_unary_of_primary (by simp) closed.stopped hnumberFaces
      (hsole.2.2.mono (by simp [operatorFirst, prefixFirst])) hsettles
    exact hrule.column textual_linked (shows_atUnary _) (shows_of _) rfl
  have hsigned : Offers free signedUnary (atUnary (blank ++ '-' :: c :: tail ++ rest))
      (blank ++ '-' :: c :: tail).length (Means · (.number number.negate)) Linked := by
    have hshows := shows_atUnary (blank ++ '-' :: c :: tail ++ rest)
    have hlength : (blank ++ '-' :: c :: tail).length =
        blank.length + 1 + (c :: tail).length := by
      simp only [List.length_append, List.length_cons]
      omega
    rw [hlength]
    have hmade : Offers free
        (do
          let sign ← lexeme Lexeme.unary
          let form ← Reader.unary
          return fun slice =>
            if sign.chars == ['-'] || sign.chars == ['+'] then .signed slice sign form
            else .plain slice [form])
        (atUnary (blank ++ '-' :: c :: tail ++ rest)) (blank.length + 1 + (c :: tail).length)
        (fun make => ∀ slice, Means (make slice) (.number number.negate)) Linked := by
      refine (settles_lexeme (hfaces.transfer hshows) Lexeme.solid_unary hunary).andThen
        fun sign hsign => ?_
      rw [(hfaces.transfer hshows).advance (by omega)]
      refine hnumber.map fun form hform slice => ?_
      rw [hsign, hform]
      exact means_signed h
    exact hmade.sliced fun make slice hmake => hmake slice
  have hrule : Offers free Rule.unary (atUnary (blank ++ '-' :: c :: tail ++ rest))
      (blank ++ '-' :: c :: tail).length (Means · (.number number.negate)) Linked := by
    refine hsigned.oneOf (by simp) ?_
    intro other hother
    simp only [List.mem_cons, List.not_mem_nil, or_false] at hother
    rcases hother with rfl | rfl | rfl
    · refine Or.inr fun reading hreading => absurd hreading (fails_maybeMore ?_ reading)
      exact fails_call_atUnary hshown hfaces hprimary hnew
    · exact Or.inl rfl
    · exact Or.inr fun reading hreading => absurd hreading
        (starts_awaited _ _ _ (hfaces.transfer (shows_atUnary _)) (barred_singleton.mpr hawait)
          reading)
  refine offers_assignment hfront closed.stopped hfaces (barred_singleton.mpr hyield) ?_ ?_
    (offers_operand hfront closed.stopped hrule)
  · refine starts_arrowFunction _ _ _ (hfaces.transfer (shows_atAssignment _)) ?_
    simp [Barred, hasync, hname, hangle, hparen]
  · exact fails_bind (fails_call_atAssignment hshown hfaces hprimary hnew)

end Literal

end EditableMarkup.Source
