import EditableMarkup.Proofs.Reading.SoundRows
import EditableMarkup.Proofs.Source.Faults
import EditableMarkup.Source.Parse

/-!
# Answers to sources

Every source is answered by a tree or by a diagnostic, unless one literal in it
is at fault.  Up to three attempts are made to read a source, and each of them
gives sound forms; the markup that is found among them is never one of the
constructs that have no meaning of their own.  A literal of the fragment around a
source lies in the source itself, since it neither starts nor ends with a
character of a tag.
-/

namespace EditableMarkup.Source

open EditableMarkup.Grammar

/-! ## Attempts -/

/-- The attempts to read a source: as a module, as one piece of markup, and inside a fragment. -/
def attempts (source : List Char) : List (Reader (List Form) × List Char) :=
  [(Rule.module, source), (Rule.markupSource, source), (Rule.markupSource, wrapped source)]

variable {source : List Char}

/-- Forms that are accepted were read, and nothing in them violates the rules on markup. -/
theorem of_formsOf_eq_ok {reader : Reader (List Form)} {forms : List Form}
    (h : formsOf reader source = .ok forms) :
    readWhole reader (Place.of source) = .ok forms ∧
      ∀ occurrence ∈ occurrencesIn forms, violation? source occurrence = none := by
  unfold formsOf at h
  split at h
  next => cases h
  next found hfound =>
    split at h
    next => cases h
    next htidy =>
      cases h
      exact ⟨hfound, List.findSome?_eq_none_iff.mp htidy⟩

theorem formsSound_of_attempt {attempt : Reader (List Form) × List Char}
    (hattempt : attempt ∈ attempts source) {forms : List Form}
    (hread : readWhole attempt.1 (Place.of attempt.2) = .ok forms) :
    FormsSound ⟨attempt.2, 0⟩ forms := by
  simp only [attempts, List.mem_cons, List.not_mem_nil, or_false] at hattempt
  rcases hattempt with rfl | rfl | rfl
  · exact Rule.gives_module.readWhole hread
  · exact Rule.gives_markupSource.readWhole hread
  · exact Rule.gives_markupSource.readWhole hread

theorem allLexed_of_attempt {attempt : Reader (List Form) × List Char}
    (hattempt : attempt ∈ attempts source) {forms : List Form}
    (h : formsOf attempt.1 attempt.2 = .ok forms) : AllLexed attempt.2 (occurrencesIn forms) :=
  (formsSound_of_attempt hattempt (of_formsOf_eq_ok h).1).lexed

/-- What fails is a diagnostic or the tree of an attempt. -/
theorem exists_attempt_of_parseTrimmed_eq_error {levels : Nat} {supply : Supply} {failure : Failure}
    (h : parseTrimmed levels source supply = .error failure) :
    (∃ diagnostic, failure = .diagnostic diagnostic) ∨
      ∃ attempt ∈ attempts source, ∃ forms, formsOf attempt.1 attempt.2 = .ok forms ∧
        treeOf levels forms supply = .error failure := by
  have hmarkup (earlier : Option Diagnostic)
      (h : parseMarkup levels source earlier supply = .error failure) :
      (∃ diagnostic, failure = .diagnostic diagnostic) ∨
        ∃ attempt ∈ attempts source, ∃ forms, formsOf attempt.1 attempt.2 = .ok forms ∧
          treeOf levels forms supply = .error failure := by
    unfold parseMarkup at h
    split at h
    next =>
      split at h
      next forms hforms =>
        exact Or.inr ⟨(Rule.markupSource, source), by simp [attempts], forms, hforms, h⟩
      next =>
        split at h
        next forms hforms =>
          exact Or.inr ⟨(Rule.markupSource, wrapped source), by simp [attempts], forms, hforms, h⟩
        next =>
          cases h
          exact Or.inl ⟨_, rfl⟩
    next =>
      cases h
      exact Or.inl ⟨_, rfl⟩
  unfold parseTrimmed at h
  split at h
  next =>
    split at h
    next forms hforms =>
      exact Or.inr ⟨(Rule.module, source), by simp [attempts], forms, hforms, h⟩
    next diagnostic _ => exact hmarkup _ h
  next => exact hmarkup _ h

theorem explained_treeOf {text : List Char} {forms : List Form}
    (hlexed : AllLexed text (occurrencesIn forms)) {levels : Nat} {supply : Supply}
    {failure : Failure} (h : treeOf levels forms supply = .error failure) :
    Explained (occurrencesIn forms) failure := by
  unfold treeOf at h
  split at h
  next form hfound =>
    exact explained_nodeOf hlexed form levels supply
      (covered_occurrencesIn forms form (mem_of_findMarkup hfound).1) h
  next =>
    cases h
    exact explained_diagnostic _

/-! ## Markup without a missing meaning -/

/-- Every part of some markup has a meaning: it is an element or a fragment, no attribute in it is set
to empty braces, and every closing tag in it has the name of its opening tag. -/
structure Meaningful (form : Form) : Prop where
  isMarkup : form.isMarkup = true
  noEmptySetting : ∀ slice, .emptySetting slice ∉ occurrences form
  sameNames : ∀ slice name attributes children closing,
    .form (.element slice name attributes children closing) ∈ occurrences form →
    name.text = closing.text

/-- The markup that is found among accepted forms is meaningful. -/
theorem meaningful_of_findMarkup {reader : Reader (List Form)} {forms : List Form}
    (hforms : formsOf reader source = .ok forms) {form : Form}
    (hfound : findMarkup forms = some form) : Meaningful form := by
  obtain ⟨hmem, hmarkup⟩ := mem_of_findMarkup hfound
  have htidy : ∀ occurrence ∈ occurrences form, violation? source occurrence = none :=
    fun occurrence hoccurrence =>
      (of_formsOf_eq_ok hforms).2 occurrence (covered_occurrencesIn forms form hmem hoccurrence)
  refine ⟨hmarkup, fun slice hslice => ?_, fun slice name attributes children closing helement => ?_⟩
  · cases htidy _ hslice
  · have hnone := htidy _ helement
    rw [violation?] at hnone
    split at hnone
    next hsame => exact hsame
    next => cases hnone

/-! ## Literals of a fragment around a source -/

/-- The characters of the tags of a fragment. -/
def tagMarks : List Char :=
  ['<', '/', '>']

/-- A literal neither starts nor ends with a character of a tag. -/
def Framed (literal : List Char) : Prop :=
  ∃ first last, literal.head? = some first ∧ literal.getLast? = some last ∧ first ∉ tagMarks ∧
    last ∉ tagMarks

theorem framed_of_string {text : List Char} {slice : Slice}
    (takes : Takes text Lexeme.string slice) : Framed slice.chars := by
  obtain ⟨quote, body, hquote, hchars⟩ := exists_quote_of_takes takes
  have hmark : quote ∉ tagMarks := by
    rcases hquote with rfl | rfl
    · decide
    · decide
  refine ⟨quote, quote, ?_, ?_, hmark, hmark⟩
  · rw [hchars]
    rfl
  · rw [hchars, ← List.cons_append]
    exact List.getLast?_concat

theorem framed_of_number {text : List Char} {slice : Slice}
    (takes : Takes text Lexeme.number slice) : Framed slice.chars := by
  have shape := numeralShape_of_takes takes
  have hmarks : tagMarks.all (!Literal.inNumeral ·) = true := by decide
  have hall : ∀ c ∈ slice.chars, c ∉ tagMarks := by
    intro c hc hmark
    have hnot := List.all_eq_true.mp hmarks c hmark
    rw [shape.inNumeral c hc] at hnot
    cases hnot
  refine ⟨slice.chars.head shape.ne_nil, slice.chars.getLast shape.ne_nil, List.head?_eq_some_head _,
    List.getLast?_eq_some_getLast _, hall _ (List.head_mem _), hall _ (List.getLast_mem _)⟩

/-- A framed part of a source inside a fragment is a part of the source. -/
theorem infix_of_infix_wrapped {literal : List Char} (framed : Framed literal)
    (h : literal <:+: wrapped source) : literal <:+: source := by
  obtain ⟨first, last, hfirst, hlast, hfirstMark, hlastMark⟩ := framed
  obtain ⟨before, after, heq⟩ := h
  have hwrapped : wrapped source = '<' :: '>' :: (source ++ ['<', '/', '>']) := rfl
  obtain ⟨rest, rfl⟩ : ∃ rest, literal = first :: rest := by
    cases literal with
    | nil => cases hfirst
    | cons c rest =>
        cases hfirst
        exact ⟨rest, rfl⟩
  rw [hwrapped] at heq
  match before, heq with
  | [], heq => exact absurd (by rw [(List.cons.inj heq).1]; decide) hfirstMark
  | [_], heq =>
      have htail := (List.cons.inj heq).2
      exact absurd (by rw [(List.cons.inj htail).1]; decide) hfirstMark
  | _ :: _ :: before, heq =>
      have htail : before ++ (first :: rest) ++ after = source ++ ['<', '/', '>'] :=
        (List.cons.inj (List.cons.inj heq).2).2
      rcases List.append_eq_append_iff.mp htail with ⟨behind, hsource, _⟩ | ⟨mark, hliteral, hmark⟩
      · exact ⟨before, behind, hsource.symm⟩
      · rcases List.eq_nil_or_concat mark with rfl | ⟨front, c, rfl⟩
        · exact ⟨before, [], by simpa using hliteral⟩
        · -- the literal would end with a character of the closing tag
          have hlast' : (before ++ first :: rest).getLast? = some last := by
            rw [List.getLast?_append, hlast]
            rfl
          rw [List.concat_eq_append] at hliteral hmark
          rw [hliteral, ← List.append_assoc, List.getLast?_concat] at hlast'
          cases hlast'
          have hmem : last ∈ tagMarks := by
            rw [tagMarks, hmark]
            simp
          exact absurd hmem hlastMark

/-! ## Answers -/

/-- A literal of accepted forms of a source lies in the source. -/
theorem infix_of_faulty {attempt : Reader (List Form) × List Char} (hattempt : attempt ∈ attempts source)
    {found : List Occurrence} (hlexed : AllLexed attempt.2 found) {fault : LiteralFault} {slice : Slice}
    (faulty : Faulty found fault slice) : slice.chars <:+: source := by
  have hplace : slice.source <:+ attempt.2 ∧ Framed slice.chars := by
    cases faulty with
    | escape h =>
        cases h with
        | form h => exact ⟨(hlexed _ h).1, framed_of_string (hlexed _ h)⟩
        | key h hkey => exact ⟨(hlexed _ h _ hkey).1, framed_of_string (hlexed _ h _ hkey)⟩
    | noDigits h | manyDigits h | largeValue h =>
        exact ⟨(hlexed _ h).1, framed_of_number (hlexed _ h)⟩
  obtain ⟨hsuffix, hframed⟩ := hplace
  have hinfix : slice.chars <:+: attempt.2 :=
    List.IsInfix.trans (List.take_prefix ..).isInfix hsuffix.isInfix
  simp only [attempts, List.mem_cons, List.not_mem_nil, or_false] at hattempt
  rcases hattempt with rfl | rfl | rfl
  · exact hinfix
  · exact hinfix
  · exact infix_of_infix_wrapped hframed hinfix

/-- Every source is answered by a tree or by a diagnostic, or a literal of it that was read in one of
the attempts is at fault; and in each attempt whatever markup is found is meaningful. -/
theorem parseWithin_answers (levels : Nat) (text : String) (supply : Supply) :
    ((∃ tree, parseWithin levels text supply = .ok tree) ∨
      (∃ diagnostic, parseWithin levels text supply = .error (.diagnostic diagnostic)) ∨
      ∃ fault, parseWithin levels text supply = .error (.literal fault) ∧
        ∃ attempt ∈ attempts (Text.trim text.toList), ∃ forms,
          formsOf attempt.1 attempt.2 = .ok forms ∧
          ∃ slice, Faulty (occurrencesIn forms) fault slice ∧
            slice.chars <:+: Text.trim text.toList) ∧
    ∀ attempt ∈ attempts (Text.trim text.toList), ∀ forms, formsOf attempt.1 attempt.2 = .ok forms →
      ∀ form, findMarkup forms = some form → Meaningful form := by
  refine ⟨?_, fun attempt _ forms hforms form hfound => meaningful_of_findMarkup hforms hfound⟩
  cases hparse : parseWithin levels text supply with
  | ok tree => exact Or.inl ⟨tree, rfl⟩
  | error failure =>
      right
      rcases exists_attempt_of_parseTrimmed_eq_error hparse with
        ⟨diagnostic, rfl⟩ | ⟨attempt, hattempt, forms, hforms, htree⟩
      · exact Or.inl ⟨diagnostic, rfl⟩
      · have hlexed := allLexed_of_attempt hattempt hforms
        rcases explained_treeOf hlexed htree with ⟨diagnostic, rfl⟩ | ⟨fault, slice, rfl, faulty⟩
        · exact Or.inl ⟨diagnostic, rfl⟩
        · exact Or.inr ⟨fault, rfl, attempt, hattempt, forms, hforms, slice, faulty,
            infix_of_faulty hattempt hlexed faulty⟩

/-- Whether a source is answered by a failure. -/
def failsWith (text : String) (failure : Failure) : Bool :=
  match parse text ⟨0⟩ with
  | .ok _ => false
  | .error found => found = failure

theorem eq_error_of_failsWith {text : String} {failure : Failure}
    (h : failsWith text failure = true) : parse text ⟨0⟩ = .error failure := by
  unfold failsWith at h
  split at h
  next => cases h
  next found hparse => rw [hparse, of_decide_eq_true h]

/-- Whether markup is found in a source. -/
def finds (reader : Reader (List Form)) (source : List Char) : Bool :=
  match formsOf reader source with
  | .ok forms => (findMarkup forms).isSome
  | .error _ => false

theorem exists_of_finds {reader : Reader (List Form)} (h : finds reader source = true) :
    ∃ forms form, formsOf reader source = .ok forms ∧ findMarkup forms = some form := by
  unfold finds at h
  split at h
  next forms hforms =>
    obtain ⟨form, hform⟩ := Option.isSome_iff_exists.mp h
    exact ⟨forms, form, hforms, hform⟩
  next => cases h

/-- An element with an attribute that is set to a string beyond the last code point. -/
def faultySource : String := "<a b=\x7b'\\u\x7b110000\x7d'\x7d />"

theorem parse_faultySource :
    parse faultySource ⟨0⟩ = .error (.literal .beyondCodePoints) ∧
      (∃ attempt ∈ attempts (Text.trim faultySource.toList), ∃ forms,
        formsOf attempt.1 attempt.2 = .ok forms ∧
        ∃ slice, Faulty (occurrencesIn forms) .beyondCodePoints slice ∧
          slice.chars <:+: Text.trim faultySource.toList) ∧
      ∃ forms form, formsOf Rule.markupSource (Text.trim faultySource.toList) = .ok forms ∧
        findMarkup forms = some form ∧ Meaningful form := by
  obtain ⟨hanswers, hmeaningful⟩ := parseWithin_answers depthLimit faultySource ⟨0⟩
  have hparse : parse faultySource ⟨0⟩ = .error (.literal .beyondCodePoints) := by
    have hfails : failsWith faultySource (.literal .beyondCodePoints) = true := by decide +kernel
    exact eq_error_of_failsWith hfails
  refine ⟨hparse, ?_, ?_⟩
  · rcases hanswers with ⟨_, h⟩ | ⟨_, h⟩ | ⟨_, h, hblamed⟩
    · cases h.symm.trans hparse
    · cases h.symm.trans hparse
    · cases h.symm.trans hparse
      exact hblamed
  · have hfinds : finds Rule.markupSource (Text.trim faultySource.toList) = true := by
      decide +kernel
    obtain ⟨forms, form, hforms, hfound⟩ := exists_of_finds hfinds
    have hattempt : (Rule.markupSource, Text.trim faultySource.toList) ∈
        attempts (Text.trim faultySource.toList) :=
      List.mem_cons_of_mem _ (List.mem_cons_self ..)
    exact ⟨forms, form, hforms, hfound, hmeaningful _ hattempt forms hforms form hfound⟩

end EditableMarkup.Source
