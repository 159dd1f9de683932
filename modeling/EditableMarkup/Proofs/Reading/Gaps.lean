import EditableMarkup.Proofs.Reading.Keeps

/-!
# Gaps

A gap in front of a lexeme is a run of spaces and comments.  A comment between
brackets ends with a slash and one up to the line end in front of the line end,
so a gap that ends behind another visible character holds a comment up to the
end of the text.
-/

namespace EditableMarkup.Grammar

namespace Lexeme

/-- A comment between brackets ends with a slash. -/
theorem commentRest_split {text : List Char} {length : Nat} (h : commentRest text = some length) :
    ∃ comment rest, text = comment ++ '/' :: rest ∧ length = comment.length + 1 := by
  induction text generalizing length with
  | nil => cases h
  | cons c text ih =>
      unfold commentRest at h
      split at h
      · cases h
      · next rest heq =>
          cases h
          exact ⟨['*'], rest, heq, rfl⟩
      · next d rest _ heq =>
          obtain ⟨rfl, rfl⟩ := List.cons.inj heq
          obtain ⟨inner, hinner, rfl⟩ := Option.map_eq_some_iff.mp h
          obtain ⟨comment, behind, hsplit, hlength⟩ := ih hinner
          exact ⟨c :: comment, behind, by rw [hsplit]; rfl, by rw [hlength]; rfl⟩

/-- What is skipped is a run of spaces, a comment up to the line end, or a comment between
brackets. -/
theorem skipped_cases {text : List Char} {length : Nat} (h : skipped text = some length) :
    (∃ blank rest, text = blank ++ rest ∧ blank.length = length ∧
        ∀ c ∈ blank, isSpace c = true) ∨
      (∃ comment rest, text = '/' :: '/' :: comment ++ rest ∧ length = comment.length + 2 ∧
        '\n' ∉ comment ∧ rest.head?.any (· != '\n') = false) ∨
      ∃ comment rest, text = comment ++ '/' :: rest ∧ length = comment.length + 1 := by
  have hsplit : spaces text = some length ∨ comment text = some length := by
    cases hspaces : spaces text with
    | none => exact Or.inr (by simpa [skipped, firstOf, hspaces] using h)
    | some other => exact Or.inl (by simpa [skipped, firstOf, hspaces] using h)
  rcases hsplit with hspaces | hcomment
  · obtain ⟨blank, rest, htext, hlength, hblank, _⟩ := run_split isSpace text
    refine Or.inl ⟨blank, rest, htext, ?_, hblank⟩
    unfold spaces at hspaces
    split at hspaces
    · cases hspaces
    · cases hspaces
      exact hlength
  · unfold comment at hcomment
    split at hcomment
    · next text =>
        cases hcomment
        obtain ⟨front, rest, rfl, hlength, hfront, hrest⟩ := run_split (· != '\n') text
        refine Or.inr (Or.inl ⟨front, rest, rfl, by rw [hlength], fun hmem => ?_, hrest⟩)
        exact absurd (hfront _ hmem) (by simp)
    · next text =>
        obtain ⟨inner, hinner, rfl⟩ := Option.map_eq_some_iff.mp hcomment
        obtain ⟨front, rest, rfl, rfl⟩ := commentRest_split hinner
        exact Or.inr (Or.inr ⟨'/' :: '*' :: front, rest, rfl, rfl⟩)
    · cases hcomment

end Lexeme

namespace Place

/-- A gap is nothing, or a skipped run and a gap behind it. -/
theorem exists_of_mem_gaps {text : List Char} {gap : Nat} (h : gap ∈ (of text).gaps) :
    gap = 0 ∨ ∃ length later, Lexeme.skipped text = some length ∧ 0 < length ∧
      later ∈ (of (text.drop length)).gaps ∧ gap = length + later := by
  cases hskipped : Lexeme.skipped text with
  | none =>
      rw [gaps_of_firm hskipped] at h
      exact Or.inl (List.mem_singleton.mp h)
  | some length =>
      cases length with
      | zero =>
          cases text with
          | nil => cases hskipped
          | cons c rest =>
              rw [gaps_of_cons, gapsOf, hskipped] at h
              exact Or.inl (List.mem_singleton.mp h)
      | succ length =>
          rw [gaps_of_skipped hskipped] at h
          rcases List.mem_cons.mp h with rfl | h
          · exact Or.inl rfl
          · obtain ⟨later, hlater, rfl⟩ := List.mem_map.mp h
            exact Or.inr ⟨length + 1, later, rfl, by omega, hlater, Nat.add_comm ..⟩

/-- A character that stands neither at the end of a gap nor for the end of a line. -/
structure IsMark (c : Char) : Prop where
  space : Lexeme.isSpace c = false
  slash : c ≠ '/'

theorem IsMark.line {c : Char} (mark : IsMark c) : c ≠ '\n' := by
  rintro rfl
  exact Bool.noConfusion mark.space

section Middle

variable {front middle rest : List Char}

theorem getElem?_middle {index : Nat} (hfront : front.length ≤ index)
    (hmiddle : index < front.length + middle.length) :
    ∃ e ∈ middle, (front ++ (middle ++ rest))[index]? = some e := by
  have hindex : index - front.length < middle.length := by omega
  refine ⟨middle[index - front.length], List.getElem_mem hindex, ?_⟩
  rw [List.getElem?_append_right hfront, List.getElem?_append_left hindex,
    List.getElem?_eq_getElem hindex]

/-- What is skipped ends in front of characters that hold no slash and no line end, if it does not
skip all of them. -/
theorem length_le_of_skipped {c : Char} {more : List Char} (hc : Lexeme.isSpace c = false)
    (hopens : middle = c :: more) (hmiddle : ∀ e ∈ middle, e ≠ '/' ∧ e ≠ '\n') {length : Nat}
    (h : Lexeme.skipped (front ++ (middle ++ rest)) = some length)
    (hless : length < front.length + middle.length) : length ≤ front.length := by
  refine Nat.le_of_not_lt fun hinside => ?_
  rcases Lexeme.skipped_cases h with ⟨blank, behind, hsplit, hlength, hblank⟩ |
    ⟨comment, behind, hsplit, hlength, _, hbehind⟩ | ⟨comment, behind, hsplit, hlength⟩
  · have hget : (blank ++ behind)[front.length]? = some c := by
      rw [← hsplit, List.getElem?_append_right (Nat.le_refl _), Nat.sub_self, hopens]
      rfl
    rw [List.getElem?_append_left (by omega)] at hget
    rw [hblank c (List.mem_of_getElem? hget)] at hc
    cases hc
  · obtain ⟨e, he, hget⟩ := @getElem?_middle front middle rest length (by omega) hless
    rw [hsplit, List.getElem?_append_right (by simp; omega)] at hget
    have hzero : length - ('/' :: '/' :: comment).length = 0 := by simp; omega
    rw [hzero] at hget
    cases behind with
    | nil => cases hget
    | cons d behind =>
        cases hget
        have hline : (e != '\n') = false := hbehind
        exact (hmiddle e he).2 (by simpa using hline)
  · obtain ⟨e, he, hget⟩ := @getElem?_middle front middle rest (length - 1) (by omega) (by omega)
    rw [hsplit, List.getElem?_append_right (by omega)] at hget
    have hzero : length - 1 - comment.length = 0 := by omega
    rw [hzero] at hget
    cases hget
    exact (hmiddle '/' he).1 rfl

end Middle

/-- No gap leads over a mark to another one in the same line. -/
theorem not_mem_gaps {blank : List Char} {c d : Char} (hc : IsMark c)
    (hblank : ∀ e ∈ blank, e = ' ') (hd : IsMark d) (front rest : List Char) :
    front.length + 1 + blank.length ∉ (of (front ++ (c :: (blank ++ [d]) ++ rest))).gaps := by
  have hmiddle : ∀ e ∈ c :: (blank ++ [d]), e ≠ '/' ∧ e ≠ '\n' := by
    intro e he
    simp only [List.mem_cons, List.mem_append, List.not_mem_nil, or_false] at he
    rcases he with rfl | he | rfl
    · exact ⟨hc.slash, hc.line⟩
    · rw [hblank e he]
      decide
    · exact ⟨hd.slash, hd.line⟩
  have hsize : (c :: (blank ++ [d])).length = blank.length + 2 := by simp
  induction hfront : front.length using Nat.strongRecOn generalizing front with
  | _ size ih =>
      subst hfront
      intro h
      rcases exists_of_mem_gaps h with hzero | ⟨length, later, hskipped, hpositive, hlater, hsum⟩
      · omega
      · have hle := length_le_of_skipped hc.space rfl hmiddle hskipped (by omega)
        rw [List.drop_append_of_le_length hle] at hlater
        have hshorter : (front.drop length).length < front.length := by
          rw [List.length_drop]
          omega
        refine ih _ hshorter (front.drop length) rfl ?_
        have hrest : (front.drop length).length + 1 + blank.length = later := by
          rw [List.length_drop]
          omega
        rwa [hrest]

/-- A gap from a place to the end of a text behind a mark holds a comment that starts in the last
line. -/
theorem exists_comment {c : Char} (hc : IsMark c) (front : List Char)
    (h : front.length + 1 ∈ (of (front ++ [c])).gaps) :
    ∃ before comment, front ++ [c] = before ++ '/' :: '/' :: comment ∧ '\n' ∉ comment := by
  induction hfront : front.length using Nat.strongRecOn generalizing front with
  | _ size ih =>
      subst hfront
      rcases exists_of_mem_gaps h with hzero | ⟨length, later, hskipped, hpositive, hlater, hsum⟩
      · omega
      · by_cases hle : length ≤ front.length
        · rw [List.drop_append_of_le_length hle] at hlater
          have hshorter : (front.drop length).length < front.length := by
            rw [List.length_drop]
            omega
          have hrest : (front.drop length).length + 1 = later := by
            rw [List.length_drop]
            omega
          rw [← hrest] at hlater
          obtain ⟨before, comment, hsplit, hline⟩ := ih _ hshorter (front.drop length) hlater rfl
          refine ⟨front.take length ++ before, comment, ?_, hline⟩
          rw [List.append_assoc, ← hsplit, ← List.append_assoc, List.take_append_drop]
        · have hend : length = front.length + 1 := by omega
          rcases Lexeme.skipped_cases hskipped with ⟨blank, rest, hsplit, hlength, hblank⟩ |
            ⟨comment, rest, hsplit, hlength, hline, _⟩ | ⟨comment, rest, hsplit, hlength⟩
          · have hget : (blank ++ rest)[front.length]? = some c := by
              rw [← hsplit, List.getElem?_append_right (Nat.le_refl _), Nat.sub_self]
              rfl
            rw [List.getElem?_append_left (by omega)] at hget
            have hspace := hblank c (List.mem_of_getElem? hget)
            rw [hc.space] at hspace
            cases hspace
          · have hrest : rest.length = 0 := by
              have hsize := congrArg List.length hsplit
              simp only [List.length_append, List.length_cons, List.length_nil] at hsize
              omega
            rw [List.length_eq_zero_iff.mp hrest, List.append_nil] at hsplit
            exact ⟨[], comment, hsplit, hline⟩
          · have hcomment : comment.length = front.length := by omega
            have hlast := (List.append_inj hsplit hcomment.symm).2
            exact absurd (List.cons.inj hlast).1 hc.slash

end Place

namespace Reader

open Place

/-! ## Signs behind a gap -/

section Sign

variable {place : Place} {spelling : String} {reading : Reading Unit}

theorem exists_of_reads_sign (h : Reads (sign spelling) place reading) :
    ∃ gap ∈ place.gaps, ∃ length, Lexeme.sign spelling (place.advance gap).text = some length ∧
      reading.used = gap + length := by
  obtain ⟨before, hbefore, after, hafter, rfl⟩ := exists_of_reads_bind h
  obtain ⟨gap, hgap, length, hlength, rfl⟩ := exists_of_reads_lexeme hbefore
  rw [reads_pure.mp hafter]
  exact ⟨gap, hgap, length, hlength, rfl⟩

/-- A sign ends behind its spelling. -/
theorem exists_of_reads_sign_shows {text : List Char} (shows_ : place.Shows text)
    (h : Reads (sign spelling) place reading) :
    ∃ gap ∈ (of text).gaps, reading.used = gap + spelling.toList.length ∧
      ∃ rest, text.drop gap = spelling.toList ++ rest := by
  obtain ⟨gap, hgap, length, hlength, hused⟩ := exists_of_reads_sign h
  rw [shows_.advance_text] at hlength
  obtain ⟨⟨rest, hrest⟩, hsize⟩ := Lexeme.spelled_eq_some_iff.mp hlength
  rw [shows_.gaps_eq] at hgap
  exact ⟨gap, hgap, by rw [hused, hsize], rest, hrest.symm⟩

/-- From a place in front of a mark no way leads to the next mark in the line, if it is to be read
as a sign. -/
theorem used_ne_of_mark {before blank rest : List Char} {c d : Char} (hc : IsMark c)
    (hblank : ∀ e ∈ blank, e = ' ') (hd : IsMark d)
    (shows_ : place.Shows (before ++ (c :: (blank ++ [d]) ++ rest)))
    (hspelling : spelling.toList.length = 1) {nearer : Nat} (hnearer : nearer ≤ before.length)
    (h : Reads (sign spelling) (place.advance nearer) reading) :
    nearer + reading.used ≠ before.length + 1 + (blank.length + 1) := by
  obtain ⟨gap, hgap, hused, _⟩ := exists_of_reads_sign_shows (shows_.advance_shows nearer) h
  rw [List.drop_append_of_le_length hnearer] at hgap
  intro hend
  refine not_mem_gaps hc hblank hd (before.drop nearer) rest ?_
  have hlength : (before.drop nearer).length + 1 + blank.length = gap := by
    rw [List.length_drop]
    omega
  rwa [hlength]

end Sign

end Reader

end EditableMarkup.Grammar
