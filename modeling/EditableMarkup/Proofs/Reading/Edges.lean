import EditableMarkup.Proofs.Literal.Escapes
import EditableMarkup.Proofs.Literal.Numerals
import EditableMarkup.Proofs.Text.Tight

/-!
# Edges of lexemes

No lexeme but a text among children may start or end with a blank.  So whatever
is read lexeme by lexeme, with gaps between the lexemes, has no blank at either
end of it, wherever the gaps are.
-/

namespace EditableMarkup.Grammar.Lexeme

open EditableMarkup.Text

/-- A class of lexemes that are not empty and neither start nor end with a blank. -/
def Tight (taken : Lexeme) : Prop :=
  ∀ text length, taken text = some length → Front text length Text.Tight

/-! ## Fixed spellings -/

theorem front_of_prefix {spelling text : List Char} {shape : List Char → Prop}
    (h : spelling <+: text) (hshape : shape spelling) : Front text spelling.length shape := by
  obtain ⟨rest, rfl⟩ := h
  exact ⟨spelling, rest, rfl, rfl, hshape⟩

theorem tight_sign {spelling : String} (h : Text.Tight spelling.toList) : (sign spelling).Tight := by
  intro text length hlength
  obtain ⟨hstart, rfl⟩ := spelled_eq_some_iff.mp hlength
  exact front_of_prefix hstart h

theorem tight_keyword {spelling : String} (h : Text.Tight spelling.toList) :
    (keyword spelling).Tight := by
  intro text length hlength
  obtain ⟨hstart, rfl, _⟩ := keyword_eq_some hlength
  exact front_of_prefix hstart h

theorem tight_firstOf {classes : List Lexeme} (h : ∀ taken ∈ classes, taken.Tight) :
    (firstOf classes).Tight := by
  intro text length hlength
  obtain ⟨taken, htaken, hlength⟩ := List.exists_of_findSome?_eq_some hlength
  exact h taken htaken text length hlength

theorem tight_keywordOf {spellings : List String} (h : ∀ s ∈ spellings, Text.Tight s.toList) :
    (keywordOf spellings).Tight := by
  apply tight_firstOf
  intro taken htaken
  obtain ⟨spelling, hspelling, rfl⟩ := List.mem_map.mp htaken
  exact tight_keyword (h spelling hspelling)

theorem tight_signOf {spellings : List String} (h : ∀ s ∈ spellings, Text.Tight s.toList) :
    (signOf spellings).Tight := by
  apply tight_firstOf
  intro taken htaken
  obtain ⟨spelling, hspelling, rfl⟩ := List.mem_map.mp htaken
  exact tight_sign (h spelling hspelling)

/-- A class of lexemes that an expression may start with: its lexemes start neither with a slash, as
comments do, nor with three dots, as spreads do. -/
structure MayLead (taken : Lexeme) : Prop where
  slash : ∀ rest, taken ('/' :: rest) = none
  dots : ∀ rest, taken ('.' :: '.' :: '.' :: rest) = none

/-- Whether an expression may start with a spelling: it is tight, and neither a slash nor a dot comes
first. -/
def opensExpression (spelling : String) : Bool :=
  decide (Text.Tight spelling.toList) && spelling.toList.head?.all fun c => c != '/' && c != '.'

theorem tight_of_opensExpression {spelling : String} (h : opensExpression spelling = true) :
    Text.Tight spelling.toList :=
  of_decide_eq_true (Bool.and_eq_true_iff.mp h).1

theorem mayLead_sign {spelling : String} (h : opensExpression spelling = true) :
    (sign spelling).MayLead := by
  have hhead := (Bool.and_eq_true_iff.mp h).2
  obtain ⟨c, more, hspelling⟩ := List.exists_cons_of_ne_nil (tight_of_opensExpression h).ne_nil
  simp only [hspelling, List.head?_cons, Option.all_some, Bool.and_eq_true, bne_iff_ne] at hhead
  refine ⟨fun rest => ?_, fun rest => ?_⟩
  · rw [sign, spelled_eq_none_iff, hspelling, List.cons_prefix_cons]
    exact fun hstart => hhead.1 hstart.1
  · rw [sign, spelled_eq_none_iff, hspelling, List.cons_prefix_cons]
    exact fun hstart => hhead.2 hstart.1

theorem mayLead_keyword {spelling : String} (h : opensExpression spelling = true) :
    (keyword spelling).MayLead where
  slash rest := keyword_eq_none ((mayLead_sign h).slash rest)
  dots rest := keyword_eq_none ((mayLead_sign h).dots rest)

/-! ## Names -/

theorem not_isBlank_of_continuesName {c : Char} (h : continuesName c = true) :
    isBlank c = false := by
  simp only [continuesName, Bool.or_eq_true, beq_iff_eq] at h
  rcases h with hword | rfl
  · exact not_isBlank_of_isWord hword
  · rfl

theorem not_isBlank_of_continuesMarkupName {c : Char} (h : continuesMarkupName c = true) :
    isBlank c = false := by
  simp only [continuesMarkupName, Bool.or_eq_true, beq_iff_eq] at h
  rcases h with hname | rfl
  · exact not_isBlank_of_continuesName hname
  · rfl

theorem front_anyName {text : List Char} {length : Nat} (h : anyName text = some length) :
    Front text length fun front => front ≠ [] ∧ ∀ c ∈ front, continuesName c = true := by
  obtain ⟨c, rest, rfl, hc⟩ := exists_startsName h
  obtain ⟨part, behind, hsplit, hlength, hpart⟩ := front_run continuesName rest
  simp only [anyName, hc, if_true, Option.some.injEq] at h
  subst h
  refine ⟨c :: part, behind, by rw [hsplit]; rfl, by simp [hlength], by simp, ?_⟩
  exact List.forall_mem_cons.mpr ⟨continuesName_of_startsName hc, hpart⟩

theorem tight_anyName : anyName.Tight := by
  intro text length h
  exact (front_anyName h).imp fun _ ⟨hne, hall⟩ =>
    .of_forall hne fun c hc => not_isBlank_of_continuesName (hall c hc)

theorem tight_name : name.Tight := by
  intro text length h
  exact tight_anyName text length (name_eq_some_iff.mp h).2

theorem front_hyphenated (fuel : Nat) (text : List Char) :
    Front text (hyphenated fuel text) fun front => ∀ c ∈ front, continuesMarkupName c = true := by
  induction fuel generalizing text with
  | zero => exact ⟨[], text, rfl, rfl, by simp⟩
  | succ fuel ih =>
      unfold hyphenated
      split
      · next rest =>
          obtain ⟨part, behind, hsplit, hlength, hpart⟩ := front_run continuesName rest
          split
          · exact ⟨[], _, rfl, rfl, by simp⟩
          · obtain ⟨more, last, hmore, hcount, hall⟩ := ih behind
            have hdrop : rest.drop (run continuesName rest) = behind := by
              rw [hlength, hsplit, List.drop_left]
            refine ⟨'-' :: (part ++ more), last, ?_, ?_, ?_⟩
            · rw [hsplit, hmore, List.cons_append, List.append_assoc]
            · rw [hdrop, hcount, hlength, List.length_cons, List.length_append]
              omega
            · intro c hc
              rcases List.mem_cons.mp hc with rfl | hc
              · rfl
              · rcases List.mem_append.mp hc with hc | hc
                · simp [continuesMarkupName, hpart c hc]
                · exact hall c hc
      · exact ⟨[], _, rfl, rfl, by simp⟩

theorem tight_markupName : markupName.Tight := by
  intro text length h
  obtain ⟨count, hcount⟩ := anyName_of_markupName h
  obtain ⟨word, rest, rfl, rfl, hne, hword⟩ := front_anyName hcount
  obtain ⟨more, behind, hmore, hlength, hall⟩ := front_hyphenated (word ++ rest).length rest
  simp only [markupName, hcount, bind, Option.bind, List.drop_left, Option.some.injEq] at h
  refine ⟨word ++ more, behind, by rw [hmore, List.append_assoc], ?_, ?_⟩
  · rw [← h, hlength, List.length_append]
  · refine .of_forall (by simp [hne]) fun c hc => ?_
    rcases List.mem_append.mp hc with hc | hc
    · exact not_isBlank_of_continuesName (hword c hc)
    · exact not_isBlank_of_continuesMarkupName (hall c hc)

/-! ## Names of markup on their own -/

theorem front_anyName_self {text : List Char} {length : Nat} (h : anyName text = some length) :
    Front text length fun front => anyName front = some front.length := by
  obtain ⟨c, rest, rfl, hc⟩ := exists_startsName h
  obtain ⟨part, behind, hsplit, hlength, hpart⟩ := front_run continuesName rest
  simp only [anyName, hc, if_true, Option.some.injEq] at h
  subst h
  refine ⟨c :: part, behind, by rw [hsplit]; rfl, by simp [hlength], ?_⟩
  have hrun := @run_append_of_stops continuesName part [] hpart rfl
  rw [List.append_nil] at hrun
  simp [anyName, hc, hrun]

/-- A hyphen and a part behind it are followed by further parts. -/
theorem hyphenated_cons {part rest : List Char} (hpart : ∀ c ∈ part, continuesName c = true)
    (hne : part ≠ []) (stops : Stops continuesName rest) (fuel : Nat) :
    hyphenated (fuel + 1) ('-' :: (part ++ rest)) = part.length + 1 + hyphenated fuel rest := by
  have hrun := run_append_of_stops hpart stops
  obtain ⟨count, hcount⟩ :=
    Nat.exists_eq_add_one_of_ne_zero fun hzero => hne (List.eq_nil_of_length_eq_zero hzero)
  have hdrop : (part ++ rest).drop (count + 1) = rest := by rw [← hcount, List.drop_left]
  rw [hcount] at hrun
  simp only [hyphenated, hrun, hdrop, hcount]

/-- Hyphenated parts are taken also where nothing stands behind them. -/
theorem front_hyphenated_self (fuel : Nat) (text : List Char) :
    Front text (hyphenated fuel text) fun front => Stops continuesName front ∧
      ∀ others, front.length ≤ others → hyphenated others front = front.length := by
  induction fuel generalizing text with
  | zero => exact ⟨[], text, rfl, rfl, rfl, fun others _ => hyphenated_eq_zero others rfl⟩
  | succ fuel ih =>
      have hnone : ∀ {text}, hyphenated (fuel + 1) text = 0 → Front text (hyphenated (fuel + 1) text)
          fun front => Stops continuesName front ∧
            ∀ others, front.length ≤ others → hyphenated others front = front.length :=
        fun hzero => ⟨[], _, rfl, hzero, rfl, fun others _ => hyphenated_eq_zero others rfl⟩
      cases text with
      | nil => exact hnone rfl
      | cons c rest =>
          by_cases hhyphen : c = '-'
          · subst hhyphen
            obtain ⟨part, behind, rfl, hlength, hpart, stops⟩ := run_split continuesName rest
            by_cases hne : part = []
            · subst hne
              refine hnone ?_
              simp only [hyphenated, ← hlength, List.length_nil]
            · obtain ⟨more, last, rfl, hcount, hstops, hall⟩ := ih behind
              refine ⟨'-' :: (part ++ more), last, by simp, ?_, rfl, fun others hothers => ?_⟩
              · rw [hyphenated_cons hpart hne stops, hcount, List.length_cons, List.length_append]
                omega
              · rw [List.length_cons, List.length_append] at hothers ⊢
                obtain ⟨others, rfl⟩ : ∃ before, others = before + 1 := ⟨others - 1, by omega⟩
                rw [hyphenated_cons hpart hne hstops, hall others (by omega)]
                omega
          · exact hnone (hyphenated_eq_zero _ (beq_eq_false_iff_ne.mpr hhyphen))

/-- A name of markup is a name of markup also where nothing stands behind it. -/
theorem front_markupName {text : List Char} {length : Nat} (h : markupName text = some length) :
    Front text length fun front => markupName front = some front.length := by
  obtain ⟨count, hcount⟩ := anyName_of_markupName h
  obtain ⟨word, rest, rfl, rfl, hword⟩ := front_anyName_self hcount
  obtain ⟨more, behind, hmore, hlength, hstops, hall⟩ :=
    front_hyphenated_self (word ++ rest).length rest
  simp only [markupName, hcount, bind, Option.bind, List.drop_left, Option.some.injEq] at h
  refine ⟨word ++ more, behind, by rw [hmore, List.append_assoc], ?_, ?_⟩
  · rw [← h, hlength, List.length_append]
  · have hany : anyName (word ++ more) = some word.length := by
      rw [anyName_append_eq word hstops, hword]
    have hrest := hall (word ++ more).length (by simp)
    simp only [markupName, hany, bind, Option.bind, List.drop_left, hrest]
    rw [List.length_append]

/-! ## Literals -/

theorem not_isBlank_of_inNumeral {c : Char} (h : Literal.inNumeral c = true) :
    isBlank c = false := by
  simp only [Literal.inNumeral, Bool.or_eq_true, List.contains_iff_mem] at h
  rcases h with (hdigit | hhex) | hmark
  · exact not_isBlank_of_isDigit hdigit
  · exact @forall_isHexDigit (fun c => isBlank c = false) (by decide) c hhex
  · have hmarks : ('_' :: 'n' :: (Literal.baseLetters ++ Literal.decimalMarks)).all
        (fun c => !isBlank c) = true := by decide
    simpa using List.all_eq_true.mp hmarks c hmark

theorem tight_number : number.Tight := by
  intro text length h
  exact (front_number h).imp fun _ shape =>
    .of_forall shape.ne_nil fun c hc => not_isBlank_of_inNumeral (shape.inNumeral c hc)

/-- A lexeme from a quote to the next one that ends it. -/
theorem front_quoted {quote : Char} (hquote : isBlank quote = false) (body rest : List Char) :
    Front (quote :: (body ++ quote :: rest)) (body.length + 2) Text.Tight :=
  ⟨quote :: (body ++ [quote]), rest, by simp, by simp, .quoted hquote body⟩

theorem tight_string : string.Tight := by
  intro text length h
  obtain ⟨quote, body, rest, hquote, rfl, rfl⟩ := string_split h
  refine front_quoted ?_ body rest
  rcases hquote with rfl | rfl
  · rfl
  · rfl

theorem tight_template : template.Tight := by
  intro text length h
  unfold template at h
  split at h
  · obtain ⟨count, hcount, rfl⟩ := Option.map_eq_some_iff.mp h
    obtain ⟨body, rest, rfl, rfl⟩ := quotedRest_split hcount
    exact front_quoted rfl body rest
  · cases h

theorem rawRest_split {quote : Char} {text : List Char} {length : Nat}
    (h : rawRest quote text = some length) :
    ∃ body rest, text = body ++ quote :: rest ∧ length = body.length + 1 := by
  induction text generalizing length with
  | nil => cases h
  | cons c text ih =>
      unfold rawRest at h
      split at h
      · next hc =>
          cases h
          exact ⟨[], text, by rw [beq_iff_eq.mp hc]; rfl, rfl⟩
      · obtain ⟨count, hcount, rfl⟩ := Option.map_eq_some_iff.mp h
        obtain ⟨body, rest, rfl, rfl⟩ := ih hcount
        exact ⟨c :: body, rest, rfl, rfl⟩

theorem tight_markupString : markupString.Tight := by
  intro text length h
  unfold markupString at h
  split at h
  · obtain ⟨count, hcount, rfl⟩ := Option.map_eq_some_iff.mp h
    obtain ⟨body, rest, rfl, rfl⟩ := rawRest_split hcount
    exact front_quoted rfl body rest
  · obtain ⟨count, hcount, rfl⟩ := Option.map_eq_some_iff.mp h
    obtain ⟨body, rest, rfl, rfl⟩ := rawRest_split hcount
    exact front_quoted rfl body rest
  · cases h

theorem tight_boolean : boolean.Tight :=
  tight_keywordOf (by decide)

/-! ## Operators and keywords in groups -/

theorem tight_unary : unary.Tight :=
  tight_firstOf (List.forall_mem_cons.mpr ⟨tight_keywordOf (by decide),
    List.forall_mem_singleton.mpr (tight_signOf (by decide))⟩)

theorem tight_binary : binary.Tight :=
  tight_firstOf (List.forall_mem_cons.mpr ⟨tight_signOf (by decide),
    List.forall_mem_singleton.mpr (tight_keywordOf (by decide))⟩)

theorem tight_update : update.Tight :=
  tight_signOf (by decide)

theorem front_loneEquals {text : List Char} {length : Nat} (h : loneEquals text = some length) :
    Front text length (· = ['=']) := by
  unfold loneEquals at h
  split at h
  · next rest =>
      split at h
      · cases h
      · cases h
      · cases h
        exact ⟨['='], rest, rfl, rfl, rfl⟩
  · cases h

theorem tight_assignment : assignment.Tight := by
  apply tight_firstOf
  intro taken htaken text length h
  have hequals : Text.Tight ['='] := by decide
  rcases List.mem_append.mp htaken with htaken | htaken
  · obtain ⟨operator, hoperator, rfl⟩ := List.mem_map.mp htaken
    obtain ⟨count, hcount, h⟩ := Option.bind_eq_some_iff.mp h
    obtain ⟨more, hmore, h⟩ := Option.bind_eq_some_iff.mp h
    obtain ⟨⟨rest, rfl⟩, rfl⟩ := spelled_eq_some_iff.mp hcount
    rw [List.drop_left] at hmore
    obtain ⟨equals, behind, rfl, rfl, rfl⟩ := front_loneEquals hmore
    have hall : ∀ operator ∈ compoundOperators, Text.Tight operator.toList := by decide
    refine ⟨operator.toList ++ [] ++ ['='], behind, by simp, ?_,
      (hall operator hoperator).append [] hequals⟩
    cases h
    simp
  · rw [List.mem_singleton.mp htaken] at h
    exact (front_loneEquals h).imp fun _ heq => heq ▸ hequals

theorem tight_variableKind : variableKind.Tight :=
  tight_keywordOf (by decide)

theorem tight_modifier : modifier.Tight :=
  tight_keywordOf (by decide)

theorem tight_accessor : accessor.Tight :=
  tight_keywordOf (by decide)

end EditableMarkup.Grammar.Lexeme
