import EditableMarkup.CommandLine.Run
import EditableMarkup.Proofs.Source.Answers
import EditableMarkup.Proofs.Source.Reports

/-!
# Where diagnostics point

A diagnostic of the grammar or of the rules on markup is about a place in the
source: the character that nothing goes on with, the end, or the name in a
closing tag.  The diagnostic that is reported is always one of the source as it
stands, not of the fragment around it, and the trees of accepted forms fail
without a place.  Positions count from where the source starts without the
blanks in front of it, so they are positions of the whole text unless the
blanks in front shift them.
-/

namespace EditableMarkup

/-! ## Positions -/

namespace Position

theorem line_foldl_next {text : List Char} (h : '\n' ∉ text) (position : Position) :
    (text.foldl next position).line = position.line := by
  induction text generalizing position with
  | nil => rfl
  | cons c text ih =>
      simp only [List.mem_cons, not_or] at h
      rw [List.foldl_cons, ih h.2, next, if_neg (Ne.symm h.1)]

/-- Behind a line end, the column at which a text started does not matter. -/
theorem foldl_next_eq {text : List Char} (h : '\n' ∈ text) {position other : Position}
    (hline : position.line = other.line) : text.foldl next position = text.foldl next other := by
  induction text generalizing position other with
  | nil => cases h
  | cons c text ih =>
      rw [List.foldl_cons, List.foldl_cons]
      by_cases hc : c = '\n'
      · rw [next, next, if_pos hc, if_pos hc, hline]
      · have htext : '\n' ∈ text := (List.mem_cons.mp h).resolve_left (Ne.symm hc)
        refine ih htext ?_
        rw [next, next, if_neg hc, if_neg hc]
        exact hline

/-- What stands in front of the first line of a text moves no position of its other lines. -/
theorem after_append {front text : List Char} (hfront : '\n' ∉ front)
    (htext : 1 < (after text).line) : after (front ++ text) = after text := by
  have hmem : '\n' ∈ text := by
    by_contra h
    rw [after, line_foldl_next h] at htext
    exact absurd htext (Nat.lt_irrefl 1)
  rw [after, List.foldl_append]
  exact foldl_next_eq hmem (line_foldl_next hfront start)

end Position

namespace Source

open EditableMarkup.Grammar

/-! ## Places of diagnostics -/

/-- A diagnostic points into a text: an unexpected character stands at its position, an unexpected
end lies behind the last character that is not blank, and where a closing tag is expected, the name
of one with another name starts.  Such a tag is read in the text without some blanks at its end. -/
def PointsInto (text : List Char) : Diagnostic → Prop
  | .unexpectedCharacter position c =>
    ∃ front rest, text = front ++ c :: rest ∧ position = Position.after front
  | .unexpectedEnd position =>
    ∃ front last blanks, text = front ++ [last] ++ blanks ∧ Text.isBlank last = false ∧
      (∀ c ∈ blanks, Text.isBlank c = true) ∧ position = Position.after (front ++ [last])
  | .mismatchedClosing position opening =>
    ∃ front, ∃ closing : ElementName, ∃ blanks, text = front ++ closing.first.source ++ blanks ∧
      (∀ c ∈ blanks, Text.isBlank c = true) ∧ closing.Closes (front ++ closing.first.source) ∧
      closing.text ≠ opening ∧ position = Position.after front
  | .emptySetting _ | .noMarkup | .noSource | .tooDeep => True

namespace PointsInto

variable {text : List Char} {diagnostic : Diagnostic}

/-- Blanks at the end of a text may be put back. -/
theorem append (h : PointsInto text diagnostic) {blanks : List Char}
    (hblanks : ∀ c ∈ blanks, Text.isBlank c = true) : PointsInto (text ++ blanks) diagnostic := by
  cases diagnostic with
  | unexpectedCharacter position c =>
      obtain ⟨front, rest, rfl, hposition⟩ := h
      exact ⟨front, rest ++ blanks, by rw [List.append_assoc, List.cons_append], hposition⟩
  | unexpectedEnd position =>
      obtain ⟨front, last, behind, rfl, hlast, hbehind, hposition⟩ := h
      refine ⟨front, last, behind ++ blanks, by rw [List.append_assoc (front ++ [last])], hlast, ?_,
        hposition⟩
      simpa [or_imp, forall_and] using ⟨hbehind, hblanks⟩
  | mismatchedClosing position opening =>
      obtain ⟨front, closing, behind, rfl, hbehind, hrest⟩ := h
      refine ⟨front, closing, behind ++ blanks, List.append_assoc .., ?_, hrest⟩
      simpa [or_imp, forall_and] using ⟨hbehind, hblanks⟩
  | emptySetting _ | noMarkup | noSource | tooDeep => trivial

/-- A closing tag behind more characters still closes. -/
theorem closes_append {source : List Char} {name : ElementName} (h : name.Closes source)
    (front : List Char) : name.Closes (front ++ source) := by
  obtain ⟨before, gap, skipped, reading, rfl, hread⟩ := h
  exact ⟨front ++ before, gap, skipped, reading, (List.append_assoc ..).symm, hread⟩

/-- What points behind the first line still does so when the first line starts later. -/
theorem shift (h : PointsInto text diagnostic) {front : List Char} (hfront : '\n' ∉ front)
    (hline : 1 < diagnostic.position.line) : PointsInto (front ++ text) diagnostic := by
  cases diagnostic with
  | unexpectedCharacter position c =>
      obtain ⟨before, rest, rfl, rfl⟩ := h
      exact ⟨front ++ before, rest, (List.append_assoc ..).symm,
        (Position.after_append hfront hline).symm⟩
  | unexpectedEnd position =>
      obtain ⟨before, last, behind, rfl, hlast, hbehind, rfl⟩ := h
      refine ⟨front ++ before, last, behind, by simp only [List.append_assoc], hlast, hbehind, ?_⟩
      rw [List.append_assoc, Position.after_append hfront hline]
  | mismatchedClosing position opening =>
      obtain ⟨before, closing, behind, rfl, hbehind, hcloses, hname, rfl⟩ := h
      refine ⟨front ++ before, closing, behind, by simp only [List.append_assoc], hbehind, ?_, hname,
        (Position.after_append hfront hline).symm⟩
      rw [List.append_assoc]
      exact closes_append hcloses front
  | emptySetting _ | noMarkup | noSource | tooDeep => trivial

end PointsInto

variable {source : List Char} {diagnostic : Diagnostic}

theorem pointsInto_stopDiagnostic (tight : Text.Tight source) (stop : Stop) :
    PointsInto source (stopDiagnostic source stop) := by
  have hend : PointsInto source (.unexpectedEnd (Position.after source)) := by
    have hlast := tight.last
    rw [List.getLast?_eq_some_getLast tight.ne_nil] at hlast
    have hsplit := List.dropLast_append_getLast tight.ne_nil
    refine ⟨source.dropLast, source.getLast tight.ne_nil, [], ?_, ?_, ?_, ?_⟩
    · rw [hsplit, List.append_nil]
    · simpa using hlast
    · exact fun c hc => absurd hc List.not_mem_nil
    · rw [hsplit]
  cases stop with
  | atEnd => exact hend
  | «at» used =>
      simp only [stopDiagnostic]
      split
      next c rest hdrop =>
        exact ⟨source.take used, rest, by rw [← hdrop, List.take_append_drop], rfl⟩
      next => exact hend

/-- A violation of the rules on markup points to the name of a closing tag. -/
theorem pointsInto_of_violation? {forms : List Form} (sound : FormsSound ⟨source, 0⟩ forms)
    {occurrence : Occurrence} (hmem : occurrence ∈ occurrencesIn forms)
    (h : violation? source occurrence = some diagnostic) : PointsInto source diagnostic := by
  cases occurrence with
  | emptySetting slice =>
      cases h
      trivial
  | form form =>
      cases form with
      | element slice name attributes children closing =>
          rw [violation?] at h
          split at h
          · cases h
          next hname =>
            cases h
            have hcloses : closing.Closes source := (sound _ hmem).lexed.2.2.2
            obtain ⟨before, gap, skipped, _, hsource, _⟩ := id hcloses
            have hsplit : source = before ++ '<' :: (gap ++ '/' :: skipped) ++ closing.first.source := by
              rw [hsource]
              simp only [List.append_assoc, List.cons_append]
            refine ⟨before ++ '<' :: (gap ++ '/' :: skipped), closing, [], ?_, ?_, ?_, Ne.symm hname, ?_⟩
            · rw [← hsplit, List.append_nil]
            · exact fun c hc => absurd hc List.not_mem_nil
            · rw [← hsplit]
              exact hcloses
            · rw [positionOf, hsplit, List.length_append, Nat.add_sub_cancel, List.take_left]
      | _ => cases h

/-- Why forms are not accepted is told at a place in their source. -/
theorem pointsInto_of_formsOf {attempt : Reader (List Form) × List Char}
    (hattempt : attempt ∈ attempts source) (tight : Text.Tight attempt.2)
    (h : formsOf attempt.1 attempt.2 = .error diagnostic) : PointsInto attempt.2 diagnostic := by
  unfold formsOf at h
  split at h
  next stop _ =>
    cases h
    exact pointsInto_stopDiagnostic tight stop
  next forms hread =>
    split at h
    next found hfound =>
      cases h
      obtain ⟨occurrence, hmem, hviolation⟩ := List.exists_of_findSome?_eq_some hfound
      exact pointsInto_of_violation? (formsSound_of_attempt hattempt hread) hmem hviolation
    next => cases h

theorem pointsInto_of_treeOf {levels : Nat} {forms : List Form} {supply : Supply}
    (h : treeOf levels forms supply = .error (.diagnostic diagnostic)) (text : List Char) :
    PointsInto text diagnostic := by
  rcases reports_treeOf levels forms supply diagnostic h with rfl | rfl
  · trivial
  · trivial

/-- Where reading markup fails, the diagnostic points into the source if the earlier one does. -/
theorem pointsInto_of_parseMarkup {levels : Nat} {earlier : Option Diagnostic} {supply : Supply}
    (tight : source ≠ [] → Text.Tight source)
    (hearlier : ∀ found, earlier = some found → PointsInto source found)
    (h : parseMarkup levels source earlier supply = .error (.diagnostic diagnostic)) :
    PointsInto source diagnostic := by
  unfold parseMarkup at h
  split at h
  next hhead =>
    have hne : source ≠ [] := by
      rintro rfl
      cases hhead
    split at h
    next forms _ => exact pointsInto_of_treeOf h source
    next direct hdirect =>
      split at h
      next forms _ => exact pointsInto_of_treeOf h source
      next =>
        cases h
        cases earlier with
        | none =>
            have hattempt : (Rule.markupSource, source) ∈ attempts source := by simp [attempts]
            exact pointsInto_of_formsOf hattempt (tight hne) hdirect
        | some found => exact hearlier found rfl
  next =>
    cases h
    cases earlier with
    | none => trivial
    | some found => exact hearlier found rfl

theorem pointsInto_of_parseTrimmed {levels : Nat} {supply : Supply}
    (tight : source ≠ [] → Text.Tight source)
    (h : parseTrimmed levels source supply = .error (.diagnostic diagnostic)) :
    PointsInto source diagnostic := by
  unfold parseTrimmed at h
  split at h
  next hhint =>
    have hne : source ≠ [] := by
      rintro rfl
      cases hhint
    have hattempt : (Rule.module, source) ∈ attempts source := by simp [attempts]
    split at h
    next forms _ => exact pointsInto_of_treeOf h source
    next direct hdirect =>
      refine pointsInto_of_parseMarkup tight (fun found hfound => ?_) h
      cases hfound
      exact pointsInto_of_formsOf hattempt (tight hne) hdirect
  next => exact pointsInto_of_parseMarkup tight (fun found hfound => by cases hfound) h

/-- The diagnostic of a text points into the text behind the blanks in front of it; it points into
the text itself if there are none, or if they hold no line end and the diagnostic is about a line
behind the first one.  This is the diagnostic that the command prints behind the name of its file. -/
theorem parseWithin_pointsInto {levels : Nat} {text : String} {supply : Supply}
    (h : parseWithin levels text supply = .error (.diagnostic diagnostic)) :
    PointsInto (text.toList.dropWhile Text.isBlank) diagnostic ∧
      (text.toList.takeWhile Text.isBlank = [] ∨
          '\n' ∉ text.toList.takeWhile Text.isBlank ∧ 1 < diagnostic.position.line →
        PointsInto text.toList diagnostic) ∧
      (levels = depthLimit → ∀ options clock,
        CommandLine.answerText options text ⟨supply, clock⟩ =
          .ok { exit := 1
                output := CommandLine.line (options.input ++ ":" ++ diagnostic.message) }) := by
  have htrimmed : PointsInto (Text.trim text.toList) diagnostic :=
    pointsInto_of_parseTrimmed Text.Tight.trim h
  have hbehind : PointsInto (text.toList.dropWhile Text.isBlank) diagnostic := by
    obtain ⟨blanks, hsplit, hblanks⟩ := Text.exists_dropWhile_isBlank text.toList
    rw [hsplit]
    exact htrimmed.append hblanks
  have hwhole := List.takeWhile_append_dropWhile (p := Text.isBlank) (l := text.toList)
  refine ⟨hbehind, ?_, ?_⟩
  · rintro (hnone | ⟨hfront, hline⟩)
    · rw [hnone, List.nil_append] at hwhole
      rwa [hwhole] at hbehind
    · rw [← hwhole]
      exact hbehind.shift hfront hline
  · rintro rfl options clock
    have hparse : parse text supply = .error (.diagnostic diagnostic) := h
    rw [CommandLine.answerText, Document.ofCode, hparse]
    rfl

/-- A paragraph with a brace that nothing goes on with. -/
def straySource : String := "<p>\x7d</p>"

theorem parse_straySource :
    parse straySource ⟨0⟩ = .error (.diagnostic (.unexpectedCharacter ⟨1, 4⟩ '}')) ∧
      PointsInto straySource.toList (.unexpectedCharacter ⟨1, 4⟩ '}') := by
  have hparse : parse straySource ⟨0⟩ =
      .error (.diagnostic (.unexpectedCharacter ⟨1, 4⟩ '}')) := by
    have hfails : failsWith straySource (.diagnostic (.unexpectedCharacter ⟨1, 4⟩ '}')) = true := by
      decide +kernel
    exact eq_error_of_failsWith hfails
  have hfront : straySource.toList.takeWhile Text.isBlank = [] := by decide +kernel
  exact ⟨hparse, (parseWithin_pointsInto hparse).2.1 (Or.inl hfront)⟩

/-- The same paragraph behind a line end. -/
def shiftedSource : String := "\n<p>\x7d</p>"

/-- A line end in front of a source shifts the positions of the text. -/
theorem parse_shiftedSource :
    parse shiftedSource ⟨0⟩ = .error (.diagnostic (.unexpectedCharacter ⟨1, 4⟩ '}')) ∧
      ¬ PointsInto shiftedSource.toList (.unexpectedCharacter ⟨1, 4⟩ '}') := by
  refine ⟨?_, ?_⟩
  · have hfails : failsWith shiftedSource (.diagnostic (.unexpectedCharacter ⟨1, 4⟩ '}')) = true := by
      decide +kernel
    exact eq_error_of_failsWith hfails
  · rintro ⟨front, rest, hsplit, hposition⟩
    have hplaces : ∀ n < shiftedSource.toList.length, shiftedSource.toList[n]? = some '}' →
        Position.after (shiftedSource.toList.take n) ≠ ⟨1, 4⟩ := by decide +kernel
    have hlength : front.length < shiftedSource.toList.length := by
      rw [hsplit, List.length_append, List.length_cons]
      omega
    have hfound : shiftedSource.toList[front.length]? = some '}' := by
      rw [hsplit, List.getElem?_append_right (Nat.le_refl _), Nat.sub_self]
      rfl
    have htake : shiftedSource.toList.take front.length = front := by
      rw [hsplit, List.take_left]
    exact hplaces _ hlength hfound (by rw [htake, ← hposition])

end Source

end EditableMarkup
