import EditableMarkup.Proofs.Reading.Arrows
import EditableMarkup.Proofs.Source.Whole

/-!
# Markup that no arrow function takes over

Inside a module, a text that opens with an angle bracket may also be read as an
arrow function with type parameters.  If such a function can end in front of the
last line's comment, the rest of the text counts as this comment.  Markup is
guarded against that, if no arrow function opens with it at all, and otherwise
it is sheltered at least, if no arrow with two slashes behind it stands in it.
Guarded markup may be read at any cost, since nothing else can be read.
-/

namespace EditableMarkup.Source

open EditableMarkup.Grammar EditableMarkup.Grammar.Reader EditableMarkup.Grammar.Place

/-- Behind an arrow in a text, a comment starts that may take the rest of the last line. -/
def TrailsOff (text : List Char) : Prop :=
  ∃ before between comment,
    text = before ++ '=' :: '>' :: (between ++ '/' :: '/' :: comment) ∧ '\n' ∉ comment

/-- No arrow function opens with the markup, whatever stands behind it. -/
def Guarded (front : List Char) : Prop :=
  ∀ blank behind, (∀ c ∈ blank, Lexeme.isSpace c = true) →
    Fails Rule.arrowFunction (atAssignment (blank ++ (front ++ behind)))

/-- No arrow function opens with the markup, or none ends in front of a comment in it. -/
def Sheltered (front : List Char) : Prop :=
  Guarded front ∨ ¬ TrailsOff front

/-- Nothing rivals a markup: no arrow function opens with it, or it is read without cost and none
ends in front of a comment in it. -/
def Unrivalled (free : Prop) (front : List Char) : Prop :=
  Guarded front ∨ free ∧ ¬ TrailsOff front

/-- Sheltered markup that is read without cost has no rival. -/
theorem Sheltered.unrivalled {free : Prop} {front : List Char} (sheltered : Sheltered front)
    (hfree : free) : Unrivalled free front :=
  sheltered.imp_right fun htrails => ⟨hfree, htrails⟩

/-- A part of a source that all ways behind a marked text lead into, and from which no comment leads
to the end of the source. -/
structure Shelter (front behind : List Char) (part : Nat → Prop) : Prop where
  closing : Closing part
  atEnd : part behind.length
  inside : ∀ left, part left → left ≤ (front ++ behind).length
  arrow : ∀ blank, (∀ c ∈ blank, Lexeme.isSpace c = true) →
    Passes Rule.arrowFunction (atAssignment (blank ++ (front ++ behind))) part
  comment : ∀ shown, shown <:+ front ++ behind → part shown.length →
    ∀ before comment, shown = before ++ '/' :: '/' :: comment → '\n' ∈ comment

section Shelter

variable {front behind : List Char} {part : Nat → Prop}

/-- No comment starts in a text without a slash. -/
theorem not_comment_of_suffix {shown before comment : List Char} (hbehind : '/' ∉ behind)
    (hshown : shown <:+ behind) : shown ≠ before ++ '/' :: '/' :: comment := by
  rintro rfl
  exact hbehind (hshown.subset (by simp))

/-- A comment behind a text that ends with a bracket, or in it, starts in it, if no slash stands
behind it. -/
theorem exists_comment_in_front (hcloses : ∃ more, front = more ++ ['>']) (hbehind : '/' ∉ behind)
    {before comment : List Char} (h : front ++ behind = before ++ '/' :: '/' :: comment) :
    ∃ inner, front = before ++ '/' :: '/' :: inner ∧ comment = inner ++ behind := by
  obtain ⟨more, rfl⟩ := hcloses
  rcases List.append_eq_append_iff.mp h with ⟨middle, _, hmiddle⟩ | ⟨middle, hfront, hmiddle⟩
  · exact absurd hmiddle (not_comment_of_suffix hbehind (List.suffix_refl _))
  · rcases middle with _ | ⟨c, _ | ⟨d, inner⟩⟩
    · rw [List.nil_append] at hmiddle
      exact absurd (show '/' ∈ behind by rw [← hmiddle]; simp) hbehind
    · obtain ⟨rfl, _⟩ := List.cons.inj hmiddle
      have hlast := (List.append_inj_right' hfront rfl)
      cases hlast
    · obtain ⟨rfl, hrest⟩ := List.cons.inj hmiddle
      obtain ⟨rfl, rfl⟩ := List.cons.inj hrest
      exact ⟨inner, hfront, rfl⟩

/-- Guarded markup has a shelter, if no slash stands behind it. -/
theorem Guarded.shelter (guarded : Guarded front) (hbehind : '/' ∉ behind) :
    Shelter front behind (· ≤ behind.length) where
  closing _ _ := Nat.le_trans
  atEnd := Nat.le_refl _
  inside left hleft := by
    rw [List.length_append]
    exact Nat.le_add_left_of_le hleft
  arrow blank hblank := (guarded blank behind hblank).passes
  comment shown hshown hless before comment hcomment := by
    have hsuffix := List.suffix_of_suffix_length_le hshown (List.suffix_append front behind) hless
    exact absurd hcomment (not_comment_of_suffix hbehind hsuffix)

/-- Markup that does not trail off has a shelter, if no slash stands behind it. -/
theorem shelter_of_not_trailsOff (hcloses : ∃ more, front = more ++ ['>']) (hbehind : '/' ∉ behind)
    (htrails : ¬ TrailsOff front) :
    Shelter front behind fun left => left ≤ behind.length ∨ ArrowAhead (front ++ behind) left where
  closing more fewer hfewer hmore :=
    hmore.imp (Nat.le_trans hfewer) (closing_arrowAhead _ more fewer hfewer)
  atEnd := Or.inl (Nat.le_refl _)
  inside left hleft := by
    rcases hleft with hless | ⟨rest, hsuffix, hless⟩
    · rw [List.length_append]
      exact Nat.le_add_left_of_le hless
    · have hlength := hsuffix.length_le
      simp only [List.length_cons] at hlength
      omega
  arrow blank hblank reading hreading := by
    obtain ⟨rest, hsuffix, hless⟩ := passes_arrowFunction (shows_atAssignment _) reading hreading
    exact Or.inr ⟨rest, suffix_of_spaces hblank rfl hsuffix, hless⟩
  comment shown hshown hpart before comment hcomment := by
    rcases hpart with hless | ⟨rest, hsuffix, hless⟩
    · have hsuffix := List.suffix_of_suffix_length_le hshown (List.suffix_append front behind) hless
      exact absurd hcomment (not_comment_of_suffix hbehind hsuffix)
    · by_contra hline
      refine htrails ?_
      obtain ⟨start, harrow⟩ := hsuffix
      have hrest : rest <:+ front ++ behind := ⟨start ++ ['=', '>'], by simp [← harrow]⟩
      obtain ⟨between, hbetween⟩ := List.suffix_of_suffix_length_le hshown hrest hless
      have hsplit : front ++ behind =
          (start ++ '=' :: '>' :: (between ++ before)) ++ '/' :: '/' :: comment := by
        rw [← harrow, ← hbetween, hcomment]
        simp
      obtain ⟨inner, hfront, rfl⟩ := exists_comment_in_front hcloses hbehind hsplit
      refine ⟨start, between ++ before, inner, by rw [hfront]; simp, fun hmem => hline ?_⟩
      exact List.mem_append_left _ hmem

/-- Sheltered markup has a shelter, if no slash stands behind it. -/
theorem Sheltered.exists_shelter (sheltered : Sheltered front)
    (hcloses : ∃ more, front = more ++ ['>']) (hbehind : '/' ∉ behind) :
    ∃ part, Shelter front behind part := by
  rcases sheltered with guarded | htrails
  · exact ⟨_, guarded.shelter hbehind⟩
  · exact ⟨_, shelter_of_not_trailsOff hcloses hbehind htrails⟩

/-- From a part that shelters markup, nothing leads to the end of the source but the end itself. -/
theorem Shelter.not_endsAt (shelter : Shelter front behind part) {ahead more : List Char} {c : Char}
    (hlast : ahead ++ (front ++ behind) = more ++ [c]) (hc : IsMark c) {used : Nat}
    (hless : used < (ahead ++ (front ++ behind)).length)
    (hpart : part ((ahead ++ (front ++ behind)).length - used)) :
    ¬ EndsAt (of (ahead ++ (front ++ behind))) used := by
  rintro ⟨gap, hgap, hend⟩
  have hstart : ahead.length ≤ used := by
    have hinside := shelter.inside _ hpart
    rw [List.length_append] at hinside hless
    omega
  rw [advance_of] at hgap
  rw [length_of] at hend
  have hsize : (ahead ++ (front ++ behind)).length = more.length + 1 := by rw [hlast]; simp
  have hdrop : (ahead ++ (front ++ behind)).drop used = more.drop used ++ [c] := by
    rw [hlast, List.drop_append_of_le_length (by omega)]
  have hlength : (more.drop used).length + 1 = gap := by
    rw [List.length_drop]
    omega
  rw [hdrop, ← hlength] at hgap
  obtain ⟨before, comment, hcomment, hline⟩ := exists_comment hc (more.drop used) hgap
  have hshown : more.drop used ++ [c] <:+ front ++ behind := by
    rw [← hdrop, List.drop_append, List.drop_eq_nil_of_le hstart, List.nil_append]
    exact List.drop_suffix ..
  refine hline (shelter.comment _ hshown ?_ before comment hcomment)
  rw [← hdrop, List.length_drop]
  exact hpart

end Shelter

end EditableMarkup.Source
