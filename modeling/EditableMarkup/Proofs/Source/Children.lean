import EditableMarkup.Proofs.Reading.Runs
import EditableMarkup.Proofs.Source.Attributes
import EditableMarkup.Proofs.Text.Blank
import EditableMarkup.Proofs.Tree.Reread

/-!
# Reading children

A printed child is read as one child.  A text that stands as it is takes in the
blanks behind it, up to the next child or the closing tag; it is trimmed later.
-/

namespace EditableMarkup.Source

open EditableMarkup.Grammar EditableMarkup.Grammar.Reader EditableMarkup.Grammar.Place
open EditableMarkup.Grammar.Rule

variable {free : Prop}

/-! ## What children stand for -/

/-- Markup stands for a printable node: it is turned into what the node is read back as, if it has
levels enough, and obeys the rules on markup. -/
structure Stands (form : Form) (node : Node) : Prop where
  isMarkup : form.isMarkup = true
  tidy : Tidy form
  printable : node.PrintableWith fun _ => True
  converted : ∀ levels supply, node.height ≤ levels → ∃ found after,
    nodeOf levels supply form = .ok (found, after) ∧ found.unlabelled = node.reread

/-- A child stands for a part of the contents of a node. -/
inductive ChildMeans : Child Form → Content Node → Prop where
  | text {slice : Slice} {text : String} (h : Text.trimmed slice.text = text) :
      ChildMeans (.text slice) (.text text)
  | braces {form : Form} {content : Content Node} (tidy : Tidy form)
      (h : contentOf form = .ok content) (hplain : content.node? = none) :
      ChildMeans (.braces form) content
  | markup {form : Form} {node : Node} (h : Stands form node) :
      ChildMeans (.markup form) (.node node)

theorem childMeans_string {form : Form} {text : String} (h : Means form (.string text)) :
    ChildMeans (.braces form) (.text text) := by
  refine .braces h.tidy ?_ rfl
  rw [contentOf, h.unwrapped_eq, h.value_eq]
  rfl

theorem childMeans_expression {form : Form} {source : String}
    (h : Means form (.expression source)) : ChildMeans (.braces form) (.expression source) := by
  refine .braces h.tidy ?_ rfl
  rw [contentOf, h.unwrapped_eq, h.value_eq, ← h.text_eq source rfl]
  rfl

/-! ## One child -/

section Child

variable {pending rest : List Char}

/-- An expression in braces is one child. -/
theorem settles_child_braces (hpending : ∀ c ∈ pending, Lexeme.isSpace c = true) {value : Value}
    (hlegible : value.Legible free) :
    Settles free child (of (pending ++ '\x7b' :: (value.print.toList ++ '\x7d' :: rest)))
      (pending.length + 1 + (value.print.toList.length + (0 + 1)))
      (fun found => ∃ form, found.child = .braces form ∧ Means form value.reread) := by
  have hfaces : (of (pending ++ '\x7b' :: (value.print.toList ++ '\x7d' :: rest))).Faces
      pending.length ('\x7b' :: (value.print.toList ++ '\x7d' :: rest)) := .of_spaces hpending rfl
  refine Offers.choose ?_
    (List.mem_cons_of_mem _ (List.mem_cons_of_mem _ (List.mem_cons_self ..))) fun other hother => ?_
  · exact settles_braces hlegible (fun form hform => ⟨form, rfl, hform⟩) hfaces
  · simp only [List.mem_cons, List.not_mem_nil, or_false] at hother
    rcases hother with rfl | rfl | rfl | rfl
    · exact Or.inr ((starts_lexeme Lexeme.opens_markupText.solid).bind _ _ _ hfaces
        (barred_singleton.mpr rfl))
    · exact Or.inr (fails_bind (fails_tagged hfaces rfl))
    · exact Or.inl rfl
    · refine Or.inr (fails_bind_of_fails fun before hbefore => ?_)
      have hbrace : Settles free (Reader.sign "\x7b") _ (pending.length + 1) fun _ => True :=
        settles_sign hfaces rfl rfl
      rcases hbrace.only before hbefore with ⟨hused, _⟩ | hfalse
      · have hopening := (spelled_of_legible value hlegible).opening
        rw [hused, hfaces.advance (by omega)]
        exact (starts_sign rfl).bind _ _ _ (.of_firm (hopening.firm _))
          ((hopening.barred _).mono (by simp))
      · exact hfalse.elim

/-- Markup is one child. -/
theorem settles_child_markup {text : List Char} {lead used : Nat} {kind : Form → Prop}
    (faces : (of text).Faces lead ('<' :: rest))
    (settles : Settles free Reader.tagged (of text) used fun found => kind found.form) :
    Settles free child (of text) used
      (fun found => ∃ form, found.child = .markup form ∧ kind form) := by
  have hmade : Settles free
      (do
        let element ← Reader.tagged
        return {
          child := .markup element.form, closing := element.closing, inside := element.inside } :
        Reader TaggedChild)
      (of text) used (fun found => ∃ form, found.child = .markup form ∧ kind form) :=
    settles.returning fun element helement => ⟨element.form, rfl, helement⟩
  refine hmade.choose (List.mem_cons_of_mem _ (List.mem_cons_self ..)) ?_
  intro other hother
  simp only [List.mem_cons, List.not_mem_nil, or_false] at hother
  rcases hother with rfl | rfl | rfl | rfl
  · exact Or.inr ((starts_lexeme Lexeme.opens_markupText.solid).bind _ _ _ faces
      (barred_singleton.mpr rfl))
  · exact Or.inl rfl
  · exact Or.inr ((starts_sign rfl).bind _ _ _ faces (barred_singleton.mpr rfl))
  · exact Or.inr ((starts_sign rfl).bind _ _ _ faces (barred_singleton.mpr rfl))

/-- Spaces are no part of what is trimmed to. -/
theorem isBlank_of_isSpace : ∀ c, Lexeme.isSpace c = true → Text.isBlank c = true := by
  have h := @Lexeme.forall_isSpace (fun c => !Text.isBlank c) rfl rfl rfl rfl rfl
  intro c hc
  simpa using h c hc

/-- A blank ends no text in markup. -/
theorem endsText_of_isBlank {c : Char} (hc : Text.isBlank c = true) : Lexeme.endsText c = false := by
  refine Bool.eq_false_iff.mpr fun hends => ?_
  simp only [Lexeme.endsText, Bool.or_eq_true, beq_iff_eq] at hends
  rcases hends with ((rfl | rfl) | rfl) | rfl <;> exact absurd hc (by decide)

/-- A blank is no part of a comment's opening. -/
theorem not_slash_of_isBlank {c : Char} (hc : Text.isBlank c = true) :
    (c == '/' || c == '*') = false := by
  refine Bool.eq_false_iff.mpr fun hopens => ?_
  simp only [Bool.or_eq_true, beq_iff_eq] at hopens
  rcases hopens with rfl | rfl <;> exact absurd hc (by decide)

/-- A text that stands as it is. -/
structure Raw (text : List Char) : Prop where
  plain : ∀ c ∈ text, Lexeme.endsText c = false
  head : text.head?.any Text.isBlank = false
  last : text.getLast?.any Text.isBlank = false
  slashes : text.take 2 ≠ ['/', '/'] ∧ text.take 2 ≠ ['/', '*']

theorem raw_of_isUnsafeText {text : List Char} (h : isUnsafeText text = false) : Raw text := by
  simp only [isUnsafeText, Bool.or_eq_false_iff, beq_eq_false_iff_ne] at h
  obtain ⟨⟨⟨hplain, hhead⟩, hlast⟩, hslashes⟩ := h
  refine ⟨fun c hc => ?_, hhead, hlast, hslashes⟩
  exact Bool.eq_false_iff.mpr fun hends => List.any_eq_false.mp hplain c hc hends

/-- Nothing can be skipped in front of a text that stands as it is. -/
theorem Raw.firm {c : Char} {text : List Char} (raw : Raw (c :: text)) {shown : List Char}
    (hshown : shown.head?.any (fun d => d == '/' || d == '*') = false) :
    Lexeme.skipped (c :: text ++ shown) = none := by
  have hspace : Lexeme.isSpace c = false := by
    refine Bool.eq_false_iff.mpr fun hc => ?_
    have hhead : Text.isBlank c = false := raw.head
    rw [isBlank_of_isSpace c hc] at hhead
    cases hhead
  by_cases hslash : c = '/'
  · subst hslash
    have hnext : ∀ d more, text ++ shown = d :: more → d ≠ '/' ∧ d ≠ '*' := by
      intro d more hsplit
      cases text with
      | nil =>
          rw [List.nil_append] at hsplit
          rw [hsplit] at hshown
          simpa using hshown
      | cons e text =>
          obtain ⟨rfl, rfl⟩ := List.cons.inj hsplit
          obtain ⟨hdouble, hstar⟩ := raw.slashes
          constructor
          · rintro rfl
            exact hdouble rfl
          · rintro rfl
            exact hstar rfl
    have hcomment : Lexeme.comment ('/' :: (text ++ shown)) = none := by
      unfold Lexeme.comment
      split
      · next hsplit => exact absurd rfl (hnext _ _ (List.cons.inj hsplit).2).1
      · next hsplit => exact absurd rfl (hnext _ _ (List.cons.inj hsplit).2).2
      · rfl
    have hspaces : Lexeme.spaces ('/' :: (text ++ shown)) = none := rfl
    simp [Lexeme.skipped, Lexeme.firstOf, hspaces, hcomment]
  · exact Lexeme.skipped_cons_eq_none hspace hslash _

theorem exists_cons_of_isBlankText {text : String} (h : Text.isBlankText text = false) :
    ∃ c more, text.toList = c :: more := by
  cases hlist : text.toList with
  | nil => simp [Text.isBlankText, hlist] at h
  | cons c more => exact ⟨c, more, rfl⟩

theorem Raw.skipped {text : String} (raw : Raw text.toList) (hblank : Text.isBlankText text = false)
    {behind : List Char} (hbehind : ∀ c ∈ behind, Text.isBlank c = true)
    (hrest : Stops (fun c => !Lexeme.endsText c) rest) :
    Lexeme.skipped (text.toList ++ (behind ++ rest)) = none := by
  obtain ⟨c, more, htext⟩ := exists_cons_of_isBlankText hblank
  rw [htext] at raw ⊢
  refine raw.firm ?_
  cases behind with
  | nil =>
      refine Stops.of_imp hrest fun c hc => ?_
      simp only [Bool.or_eq_true, beq_iff_eq] at hc
      rcases hc with rfl | rfl <;> rfl
  | cons d behind => exact not_slash_of_isBlank (hbehind d (List.mem_cons_self ..))

theorem Raw.sign {text : String} (raw : Raw text.toList) (hblank : Text.isBlankText text = false)
    {spelling : String} (h : spelling.toList.head?.any Lexeme.endsText = true) (shown : List Char) :
    Lexeme.sign spelling (text.toList ++ shown) = none := by
  obtain ⟨c, more, htext⟩ := exists_cons_of_isBlankText hblank
  have hends : Lexeme.endsText c = false := raw.plain c (by simp [htext])
  rw [htext]
  exact Lexeme.sign_eq_none_of_head h hends

/-- A text that stands as it is takes in the blanks behind it. -/
theorem settles_child_text {text : String} (raw : Raw text.toList)
    (hblank : Text.isBlankText text = false) (hpending : ∀ c ∈ pending, Lexeme.isSpace c = true)
    {behind : List Char} (hbehind : ∀ c ∈ behind, Text.isBlank c = true)
    (hrest : Stops (fun c => !Lexeme.endsText c) rest) :
    Settles free child (of (pending ++ (text.toList ++ (behind ++ rest))))
      (pending.length + (text.toList.length + behind.length))
      (fun found => ChildMeans found.child (.text text)) := by
  obtain ⟨c, more, htext⟩ := exists_cons_of_isBlankText hblank
  have hfirm := raw.skipped hblank hbehind hrest
  have hfaces : (of (pending ++ (text.toList ++ (behind ++ rest)))).Faces pending.length
      (text.toList ++ (behind ++ rest)) := .of_spaces hpending hfirm
  have hhead : Text.isBlank c = false := by
    have hhead := raw.head
    rwa [htext] at hhead
  have hplain : ∀ d ∈ text.toList ++ behind, Lexeme.endsText d = false := by
    intro d hd
    rcases List.mem_append.mp hd with hd | hd
    · exact raw.plain d hd
    · exact endsText_of_isBlank (hbehind d hd)
  have htaken : Lexeme.markupText (text.toList ++ (behind ++ rest)) =
      some (text.toList.length + behind.length) := by
    rw [← List.append_assoc, ← List.length_append]
    rw [htext] at hplain ⊢
    exact Lexeme.markupText_append hhead hplain hrest
  have hslice : ∀ slice, slice = Slice.mk (text.toList ++ (behind ++ rest))
      (text.toList.length + behind.length) → ChildMeans (.text slice) (.text text) := by
    rintro slice rfl
    have hsplit : Slice.mk (text.toList ++ (behind ++ rest))
        (text.toList.length + behind.length) =
        ⟨(text.toList ++ behind) ++ rest, (text.toList ++ behind).length⟩ := by simp
    refine .text ?_
    have htrim := @Text.trim_append [] _ _ (by simp) hbehind raw.head raw.last
    rw [List.nil_append] at htrim
    rw [hsplit, Slice.text_of_append, Text.trimmed, String.toList_ofList, htrim,
      String.ofList_toList]
  have hmade : Settles free
      (do
        let text ← lexeme Lexeme.markupText
        return { child := .text text } : Reader TaggedChild)
      (of (pending ++ (text.toList ++ (behind ++ rest))))
      (pending.length + (text.toList.length + behind.length))
      (fun found => ChildMeans found.child (.text text)) :=
    (settles_lexeme hfaces Lexeme.opens_markupText.solid htaken).returning hslice
  refine hmade.choose (List.mem_cons_self ..) ?_
  intro other hother
  simp only [List.mem_cons, List.not_mem_nil, or_false] at hother
  rcases hother with rfl | rfl | rfl | rfl
  · exact Or.inl rfl
  · exact Or.inr (fails_bind (fails_tagged hfaces (raw.sign hblank rfl _)))
  · exact Or.inr ((starts_sign rfl).bind _ _ _ hfaces (barred_singleton.mpr (raw.sign hblank rfl _)))
  · exact Or.inr ((starts_sign rfl).bind _ _ _ hfaces (barred_singleton.mpr (raw.sign hblank rfl _)))

/-- No child starts with a closing tag. -/
theorem fails_child_closing (hpending : ∀ c ∈ pending, Lexeme.isSpace c = true)
    (hfirm : Lexeme.skipped ('/' :: rest) = none) :
    Fails child (of (pending ++ '<' :: '/' :: rest)) := by
  have hfaces : (of (pending ++ '<' :: '/' :: rest)).Faces pending.length ('<' :: '/' :: rest) :=
    .of_spaces hpending rfl
  refine fails_oneOf ?_
  intro other hother
  simp only [List.mem_cons, List.not_mem_nil, or_false] at hother
  rcases hother with rfl | rfl | rfl | rfl
  · exact (starts_lexeme Lexeme.opens_markupText.solid).bind _ _ _ hfaces
      (barred_singleton.mpr rfl)
  · exact fails_bind (fails_tagged_closing hfaces hfirm)
  · exact (starts_sign rfl).bind _ _ _ hfaces (barred_singleton.mpr rfl)
  · exact (starts_sign rfl).bind _ _ _ hfaces (barred_singleton.mpr rfl)

end Child

end EditableMarkup.Source
