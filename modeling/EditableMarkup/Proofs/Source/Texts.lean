import EditableMarkup.Proofs.Source.Reparsed

/-!
# Texts between tags

A text between two tags that needs no braces is read as it stands: the blanks
around it are cut, and nothing is left of a blank text.  The blanks in front of
it have to be spaces that separate lexemes, since a text starts with a character
that is not blank.
-/

namespace EditableMarkup.Source

open EditableMarkup.Grammar EditableMarkup.Grammar.Reader EditableMarkup.Grammar.Place
open EditableMarkup.Grammar.Rule

variable {free : Prop}

/-! ## The blanks in front of a text -/

/-- The spaces in front of a text are followed by a character that is not blank, or by nothing. -/
def Spaced (text : List Char) : Prop :=
  (text.dropWhile Lexeme.isSpace).head?.any Text.isBlank = false

instance (text : List Char) : Decidable (Spaced text) :=
  inferInstanceAs (Decidable (_ = _))

/-- The blanks in front of such a text are spaces. -/
theorem Spaced.isSpace {front rest : List Char} (spaced : Spaced (front ++ rest))
    (hfront : ∀ c ∈ front, Text.isBlank c = true) : ∀ c ∈ front, Lexeme.isSpace c = true := by
  induction front with
  | nil => simp
  | cons c front ih =>
      have hblank : Text.isBlank c = true := hfront c (List.mem_cons_self ..)
      rw [Spaced, List.cons_append, List.dropWhile_cons] at spaced
      split at spaced
      next hspace =>
        refine List.forall_mem_cons.mpr ⟨hspace, ih spaced fun d hd => ?_⟩
        exact hfront d (List.mem_cons_of_mem _ hd)
      next => simp [hblank] at spaced

/-! ## What is enclosed by the tags -/

/-- What an element around a text holds: the trimmed text, unless it is blank. -/
def textContents (inner : String) : List (Content Node) :=
  if Text.isBlankText inner then [] else [.text (Text.trimmed inner)]

/-- Between two tags, a text is one child with the blanks around it. -/
theorem enclosed_text {front behind : List Char} {text : String} (raw : Raw text.toList)
    (hblank : Text.isBlankText text = false) (hfront : ∀ c ∈ front, Lexeme.isSpace c = true)
    (hbehind : ∀ c ∈ behind, Text.isBlank c = true) :
    Enclosed free (front ++ (text.toList ++ behind)) [.text text] := by
  intro rest hfirm
  have hstops : Stops (fun c => !Lexeme.endsText c) ('<' :: '/' :: rest) := rfl
  have hpos : 0 < (front ++ (text.toList ++ behind)).length := by
    obtain ⟨c, more, htext⟩ := exists_cons_of_isBlankText hblank
    simp only [htext, List.length_append, List.length_cons]
    omega
  have hsplit : front ++ (text.toList ++ behind) ++ '<' :: '/' :: rest =
      front ++ (text.toList ++ (behind ++ '<' :: '/' :: rest)) := by simp
  have hastray : Astray (of (front ++ (text.toList ++ behind) ++ '<' :: '/' :: rest)) := by
    rw [hsplit]
    exact astray_of_sign (.of_spaces hfront (raw.skipped hblank hbehind hstops))
      (raw.sign hblank rfl _)
  have hchild : Settles free child _ _ _ := settles_child_text raw hblank hfront hbehind hstops
  rw [← hsplit, ← List.length_append, ← List.length_append] at hchild
  refine @offers_inside_of_chain free _ [] rest (meanings [.text text]) (by simp) hfirm ?_
  refine @chain_child free _ [] _ ('<' :: '/' :: rest) rfl _ _ (ChildMeans · (.text text)) []
    hastray
    hpos hchild (.stop ?_)
  rw [List.nil_append, advance_of, List.drop_left]
  exact @fails_child_closing [] rest (by simp) hfirm

/-- Between two tags, a text that is spaced and needs no braces is read as its trimmed part. -/
theorem enclosed_textContents {inner : String}
    (hplain : ∀ c ∈ inner.toList, Lexeme.endsText c = false)
    (hcomment : (Text.trim inner.toList).take 2 ≠ ['/', '/'] ∧
      (Text.trim inner.toList).take 2 ≠ ['/', '*'])
    (spaced : Spaced inner.toList) : Enclosed free inner.toList (textContents inner) := by
  obtain ⟨front, behind, hsplit, hfront, hbehind⟩ := Text.exists_trim inner.toList
  rw [List.append_assoc] at hsplit
  cases hblank : Text.isBlankText inner with
  | true =>
      rw [textContents, if_pos hblank]
      have hall : ∀ c ∈ inner.toList, Text.isBlank c = true := List.all_eq_true.mp hblank
      rw [← List.append_nil inner.toList] at spaced
      exact (@Lines.nil free false).enclosed (spaced.isSpace hall)
  | false =>
      rw [textContents, if_neg (by simp [hblank])]
      have htext : (Text.trimmed inner).toList = Text.trim inner.toList := String.toList_ofList
      have hrest : Text.isBlankText (Text.trimmed inner) = false := by
        rw [Text.isBlankText_trimmed, hblank]
      have raw : Raw (Text.trimmed inner).toList := by
        rw [htext]
        refine ⟨fun c hc => hplain c ?_, Text.head?_trim _, Text.getLast?_trim _, hcomment⟩
        rw [hsplit]
        simp [hc]
      rw [hsplit] at spaced
      have henclosed : Enclosed free _ _ :=
        enclosed_text raw hrest (spaced.isSpace hfront) hbehind
      rwa [htext, ← hsplit] at henclosed

/-! ## An element around a text -/

/-- An element around a text. -/
def paragraph (inner : String) : String :=
  "<p>" ++ inner ++ "</p>"

/-- The node of an element around a text. -/
def paragraphNode (inner : String) : Node :=
  ⟨.named "p", [], textContents inner, ""⟩

theorem toList_paragraph (inner : String) :
    (paragraph inner).toList = '<' :: 'p' :: '>' :: (inner.toList ++ ['<', '/', 'p', '>']) := by
  simp [paragraph]

theorem legible_paragraphNode (inner : String) : (paragraphNode inner).Legible free := by
  have hname : IsMarkupName "p" := by decide
  refine ⟨hname, ⟨by simp [Entries.Distinct], by simp, trivial, nofun⟩, ?_⟩
  rw [textContents]
  split
  next => exact trivial
  next hblank => exact ⟨by rw [Text.isBlankText_trimmed, Bool.eq_false_iff]; exact hblank, trivial⟩

theorem withoutOff_paragraphNode (inner : String) :
    (paragraphNode inner).withoutOff = paragraphNode inner := by
  rw [paragraphNode, textContents]
  split <;> rfl

theorem height_paragraphNode (inner : String) : (paragraphNode inner).height = 1 := by
  rw [paragraphNode, textContents]
  split <;> rfl

/-- No arrow stands in an element around a text without brackets. -/
theorem sheltered_paragraph {inner : String}
    (hplain : ∀ c ∈ inner.toList, Lexeme.endsText c = false) :
    Sheltered (paragraph inner).toList := by
  have hbracket : '>' ∉ inner.toList := fun hmem => by
    have hends := hplain _ hmem
    cases hends
  have hclosing : Arrowless (['<', '/', 'p'] ++ ['>']) := arrowless_nil.append_closed (by decide)
  have hinside : Arrowless (inner.toList ++ ['<', '/', 'p', '>']) :=
    hclosing.append hbracket (by decide)
  have hwhole := hinside.append_closed (show '=' ∉ ['<', 'p'] by decide)
  rw [toList_paragraph]
  exact Or.inr hwhole.not_trailsOff

theorem marked_paragraph {inner : String}
    (hplain : ∀ c ∈ inner.toList, Lexeme.endsText c = false)
    (hcomment : (Text.trim inner.toList).take 2 ≠ ['/', '/'] ∧
      (Text.trim inner.toList).take 2 ≠ ['/', '*'])
    (spaced : Spaced inner.toList) :
    Marked free (paragraph inner).toList (paragraphNode inner) := by
  rw [toList_paragraph]
  exact marked_element (legible_paragraphNode inner)
    (enclosed_textContents hplain hcomment spaced)

/-- An element around a text is trimmed already. -/
theorem trim_paragraph (inner : String) :
    Text.trim (paragraph inner).toList = (paragraph inner).toList := by
  have hcloses : (paragraph inner).toList =
      '<' :: 'p' :: '>' :: (inner.toList ++ ['<', '/', 'p']) ++ ['>'] := by
    simp [toList_paragraph]
  exact trim_eq_of_brackets (toList_paragraph inner) hcloses

/-! ## Other blanks in front of a text -/

/-- A text that is not spaced has another blank behind its spaces, in front of which nothing can be
skipped. -/
theorem exists_faces_of_not_spaced {text : List Char} (h : ¬ Spaced text) (rest : List Char) :
    ∃ lead c more, (of (text ++ rest)).Faces lead (c :: more) ∧ Text.isBlank c = true := by
  cases hrest : text.dropWhile Lexeme.isSpace with
  | nil => simp [Spaced, hrest] at h
  | cons c more =>
      have hspace : Lexeme.isSpace c = false := by
        have hhead := List.head?_dropWhile_not Lexeme.isSpace text
        simpa [hrest] using hhead
      have hblank : Text.isBlank c = true := by simpa [Spaced, hrest] using h
      have hsplit : text ++ rest = text.takeWhile Lexeme.isSpace ++ c :: (more ++ rest) := by
        rw [← List.cons_append, ← List.append_assoc, ← hrest, List.takeWhile_append_dropWhile]
      have hfirm : Lexeme.skipped (c :: (more ++ rest)) = none := by
        refine Lexeme.skipped_cons_eq_none hspace ?_ _
        rintro rfl
        cases hblank
      rw [hsplit]
      exact ⟨_, c, _, .of_spaces (fun d hd => List.mem_takeWhile_imp hd) hfirm, hblank⟩

/-- No sign starts with a blank. -/
theorem sign_eq_none_of_isBlank {c : Char} (hblank : Text.isBlank c = true) {spelling : String}
    (h : spelling.toList.head?.any (fun d => !Text.isBlank d) = true) (rest : List Char) :
    Lexeme.sign spelling (c :: rest) = none :=
  Lexeme.sign_eq_none_of_head h (by simp [hblank])

section Unspaced

variable {inner : List Char} (h : ¬ Spaced inner) (rest : List Char)

include h

/-- Where a text is not spaced, neither a child nor a closing tag is read. -/
theorem fails_inside_of_not_spaced : Fails Rule.inside (of (inner ++ rest)) := by
  obtain ⟨lead, c, more, hfaces, hblank⟩ := exists_faces_of_not_spaced h rest
  have hsign {spelling : String}
      (hvisible : spelling.toList.head?.any (fun d => !Text.isBlank d) = true) :
      Lexeme.sign spelling (c :: more) = none := sign_eq_none_of_isBlank hblank hvisible more
  have htext : Lexeme.markupText (c :: more) = none := by simp [Lexeme.markupText, hblank]
  have hchild : Fails child (of (inner ++ rest)) := by
    refine fails_oneOf fun other hother => ?_
    simp only [List.mem_cons, List.not_mem_nil, or_false] at hother
    rcases hother with rfl | rfl | rfl | rfl
    · exact (starts_lexeme Lexeme.opens_markupText.solid).bind _ _ _ hfaces
        (barred_singleton.mpr htext)
    · exact fails_bind (fails_tagged hfaces (hsign rfl))
    · exact (starts_sign rfl).bind _ _ _ hfaces (barred_singleton.mpr (hsign rfl))
    · exact (starts_sign rfl).bind _ _ _ hfaces (barred_singleton.mpr (hsign rfl))
  intro reading hreading
  obtain ⟨bracket, hbracket, _⟩ := exists_of_reads_inside hchild hreading
  exact starts_sign rfl _ _ _ hfaces (barred_singleton.mpr (hsign rfl)) bracket hbracket

/-- An element around a text that is not spaced is not read. -/
theorem fails_markup_of_not_spaced :
    Fails Rule.markup (bare ('<' :: 'p' :: '>' :: (inner ++ rest))) := by
  have hname : IsMarkupName "p" := by decide
  have hfaces : (bare ('<' :: 'p' :: '>' :: (inner ++ rest))).Faces 0
      ('<' :: 'p' :: '>' :: (inner ++ rest)) := .of_shows (shows_bare _) rfl
  have hword : (of ('p' :: '>' :: (inner ++ rest))).Faces 0 ('p' :: '>' :: (inner ++ rest)) :=
    .of_firm rfl
  have hclose : (of ('>' :: (inner ++ rest))).Faces 0 ('>' :: (inner ++ rest)) := .of_firm rfl
  refine fails_oneOf fun other hother => ?_
  simp only [List.mem_cons, List.not_mem_nil, or_false] at hother
  rcases hother with rfl | rfl
  · refine fails_sliced (fails_bracket hfaces fun _ => fails_bind_of_fails fun name hreads => ?_)
    have hused := (settles_elementName hname (tagRest_close _) hword).used_eq hreads
    have hplace : (of ('p' :: '>' :: (inner ++ rest))).advance name.used =
        of ('>' :: (inner ++ rest)) := by rw [hused]; rfl
    rw [hplace]
    refine fails_bind_of_fails fun items hitems => ?_
    rw [starts_elementAttribute.many _ _ _ hclose
      (by simp only [barred_cons, barred_nil, and_true]; and_intros <;> rfl) items hitems, advance_zero]
    refine fails_oneOf fun ending hending => ?_
    simp only [List.mem_cons, List.not_mem_nil, or_false] at hending
    rcases hending with rfl | rfl
    · have hbracket : Settles True (Reader.sign ">") (of ('>' :: (inner ++ rest))) (0 + 1)
          fun _ => True := settles_sign hclose rfl rfl
      refine fails_bind_of_fails fun bracket hreads => fails_bind ?_
      rw [hbracket.used_eq hreads, hclose.advance (by decide)]
      exact fails_inside_of_not_spaced h rest
    · exact (starts_sign rfl).bind _ _ _ hclose (barred_singleton.mpr rfl)
  · exact fails_fragment hname hfaces

theorem fails_tagged_of_not_spaced {source : List Char}
    (hsource : source = '<' :: 'p' :: '>' :: (inner ++ rest)) : Fails Reader.tagged (of source) := by
  intro reading hreading
  rw [Reads, tagged_of (by simp [hsource]), hsource] at hreading
  exact fails_markup_of_not_spaced h rest reading hreading

/-- A fragment around an element around a text that is not spaced is not read: no child is read in
it, and its tag is not closed at once. -/
theorem fails_tagged_fragment_of_not_spaced {source : List Char}
    (hsource : source = '<' :: 'p' :: '>' :: (inner ++ rest)) :
    Fails Reader.tagged (of ('<' :: '>' :: source)) := by
  have hfaces : (bare ('<' :: '>' :: source)).Faces 0 ('<' :: '>' :: source) :=
    .of_shows (shows_bare _) rfl
  have hclose : (of ('>' :: source)).Faces 0 ('>' :: source) := .of_firm rfl
  have hinner : (of source).Faces 0 ('<' :: 'p' :: '>' :: (inner ++ rest)) := by
    rw [hsource]
    exact .of_firm rfl
  have hchild : Fails child (of source) := by
    refine fails_oneOf fun other hother => ?_
    simp only [List.mem_cons, List.not_mem_nil, or_false] at hother
    rcases hother with rfl | rfl | rfl | rfl
    · exact (starts_lexeme Lexeme.opens_markupText.solid).bind _ _ _ hinner
        (barred_singleton.mpr rfl)
    · exact fails_bind (fails_tagged_of_not_spaced h rest hsource)
    · exact (starts_sign rfl).bind _ _ _ hinner (barred_singleton.mpr rfl)
    · exact (starts_sign rfl).bind _ _ _ hinner (barred_singleton.mpr rfl)
  intro reading hreading
  rw [Reads, tagged_of (List.cons_ne_nil _ _)] at hreading
  refine fails_oneOf (fun other hother => ?_) reading hreading
  simp only [List.mem_cons, List.not_mem_nil, or_false] at hother
  rcases hother with rfl | rfl
  · refine fails_sliced (fails_bracket hfaces fun _ => starts_elementName.bind _ _ _ hclose ?_)
    simp only [barred_cons, barred_nil, and_true]
    and_intros <;> rfl
  · refine fails_sliced (fails_bracket hfaces fun _ => fails_bind_of_fails fun opening hopening => ?_)
    have hbracket : Settles True (Reader.sign ">") (of ('>' :: source)) (0 + 1) fun _ => True :=
      settles_sign hclose rfl rfl
    have hplace : (of ('>' :: source)).advance opening.used = of source := by
      rw [hbracket.used_eq hopening, hclose.advance (by decide)]
      rfl
    rw [hplace]
    refine fails_bind_of_fails fun found hfound => ?_
    obtain ⟨closing, hclosing, hused⟩ := exists_of_reads_inside hchild hfound
    have hangle : Settles True (Reader.sign "<") (of source) (0 + 1) fun _ => True :=
      settles_sign hinner rfl rfl
    rw [hused, hangle.used_eq hclosing, hinner.advance (by decide)]
    exact (starts_sign rfl).bind _ _ _ (.of_firm rfl) (barred_singleton.mpr rfl)

/-- No arrow function starts with an element around a text that is not spaced. -/
theorem fails_arrowFunction_of_not_spaced :
    Fails Rule.arrowFunction (atAssignment ('<' :: 'p' :: '>' :: (inner ++ rest))) := by
  have hbounded : Bounded (of ('>' :: (inner ++ rest))) ('>' :: (inner ++ rest)) := by
    refine ⟨⟨0, .of_firm rfl⟩, ?_⟩
    simp only [barred_cons, barred_nil, and_true]
    exact ⟨rfl, rfl, rfl⟩
  refine @fails_arrowFunction_of_bounded ['p'] _ rfl [] _ (by simp) rfl hbounded fun more hmore => ?_
  obtain rfl := (List.cons.inj hmore).2
  obtain ⟨lead, c, more, hfaces, hblank⟩ := exists_faces_of_not_spaced h rest
  exact starts_parameterList _ _ _ hfaces
    (barred_singleton.mpr (sign_eq_none_of_isBlank hblank rfl more))

/-- No statement starts with an element around a text that is not spaced. -/
theorem fails_statement_of_not_spaced {source : List Char}
    (hsource : source = '<' :: 'p' :: '>' :: (inner ++ rest)) :
    Fails Reader.statement (of source) := by
  have hne : source ≠ [] := by simp [hsource]
  have hfaces : (of source).Faces 0 ('<' :: 'p' :: '>' :: (inner ++ rest)) := by
    rw [hsource]
    exact .of_firm rfl
  have hmarkup : Fails Reader.markup (opened source) := by
    refine fails_map ?_
    intro reading hreading
    rw [Reads, tagged_opened hne, hsource] at hreading
    exact fails_markup_of_not_spaced h rest reading hreading
  have harrow : Fails Rule.arrowFunction (atAssignment source) := by
    rw [hsource]
    exact fails_arrowFunction_of_not_spaced h rest
  have hprimary : Passes Rule.primary (opened source) fun _ => False := by
    refine passes_primary hne hfaces fun entry hentry => ?_
    rcases primary_angle _ entry hentry with rfl | hbarred
    · exact Or.inr hmarkup.passes
    · exact Or.inl hbarred
  have hfree : Barred operatorFirst ('<' :: 'p' :: '>' :: (inner ++ rest)) := by
    simp only [operatorFirst, barred_cons, barred_nil, and_true]
    and_intros <;> rfl
  exact fails_statement hne hfaces (statement_bracket (Or.inl rfl) _) rfl
    (fails_expression_of_primary hne hfaces hfree harrow hprimary)

end Unspaced

/-- Where no statement is read, a source is no module, if nothing can be skipped in front of it. -/
theorem readWhole_module_error {source : List Char} (hne : source ≠ [])
    (hfirm : Lexeme.skipped source = none) (h : Fails Reader.statement (of source)) :
    ∃ stop, readWhole Rule.module (of source) = .error stop := by
  refine readWhole_error_of_forall fun reading hreading => ?_
  have hused : reading.used = 0 := by
    refine iterate_induction (fun reading => reading.used = 0) (fun first hfirst => ?_)
      (fun before after hbefore hafter => ?_) hreading
    · rw [reads_nothing.mp hfirst]
    · rw [hbefore, advance_zero] at hafter
      exact absurd hafter (fails_bind h after)
  rw [hused]
  exact Faces.not_endsAt (.of_firm hfirm) hne

/-- An element around a text that is not spaced has no tree: it is neither a module nor markup, also
not inside a fragment. -/
theorem parseTrimmed_paragraph_error {inner : String} (h : ¬ Spaced inner.toList) (levels : Nat)
    (supply : Supply) :
    ∃ diagnostic, parseTrimmed levels (paragraph inner).toList supply =
      .error (.diagnostic diagnostic) := by
  have htext := toList_paragraph inner
  generalize (paragraph inner).toList = source at htext
  have hne : source ≠ [] := by simp [htext]
  have hhead : source.head? = some '<' := by rw [htext]; rfl
  obtain ⟨stop, hmodule⟩ := readWhole_module_error hne (by rw [htext]; rfl)
    (fails_statement_of_not_spaced h _ htext)
  have hmarkup {text : List Char} (hfails : Fails Reader.tagged (of text)) :
      ∃ diagnostic, formsOf Rule.markupSource text = .error diagnostic := by
    obtain ⟨stop, hread⟩ : ∃ stop, readWhole Rule.markupSource (of text) = .error stop :=
      readWhole_error_of_forall fun reading hreading =>
        absurd hreading (fails_bind (fails_map hfails) reading)
    exact ⟨_, formsOf_of_error hread⟩
  have hwrapped : wrapped source = '<' :: '>' :: (source ++ "</>".toList) := by simp [wrapped]
  obtain ⟨direct, hdirect⟩ := hmarkup (fails_tagged_of_not_spaced h _ htext)
  obtain ⟨inside, hinside⟩ : ∃ diagnostic,
      formsOf Rule.markupSource (wrapped source) = .error diagnostic := by
    rw [hwrapped]
    exact hmarkup (fails_tagged_fragment_of_not_spaced h (['<', '/', 'p', '>'] ++ "</>".toList)
      (by rw [htext]; simp))
  have hparse (earlier : Option Diagnostic) : parseMarkup levels source earlier supply =
      .error (.diagnostic (earlier.getD direct)) := by
    rw [parseMarkup, if_pos hhead, hdirect]
    simp only [hinside]
  rw [parseTrimmed]
  split
  · rw [formsOf_of_error hmodule]
    exact ⟨_, hparse _⟩
  · exact ⟨_, hparse _⟩

/-! ## Elements around texts -/

/-- An element around a text that needs no braces and opens no comment is parsed as a node with the
trimmed text, if only spaces stand in front of the text; and it has no tree if another blank does. -/
theorem parseWithin_paragraph {inner : String}
    (hplain : ∀ c ∈ inner.toList, Lexeme.endsText c = false)
    (hcomment : (Text.trim inner.toList).take 2 ≠ ['/', '/'] ∧
      (Text.trim inner.toList).take 2 ≠ ['/', '*'])
    {levels : Nat} (hlevels : 0 < levels) (supply : Supply) :
    (Spaced inner.toList → ∃ found after,
        parseWithin levels (paragraph inner) supply = .ok (found, after) ∧
          found.same (paragraphNode inner) = true) ∧
      (¬ Spaced inner.toList → ∃ diagnostic,
        parseWithin levels (paragraph inner) supply = .error (.diagnostic diagnostic)) := by
  constructor
  · intro spaced
    have hlegible : (paragraphNode inner).Legible True := legible_paragraphNode inner
    have hheight : (paragraphNode inner).height ≤ levels := by
      rw [height_paragraphNode]
      exact hlevels
    obtain ⟨found, after, hparse, halike⟩ :=
      (marked_paragraph hplain hcomment spaced).parseTrimmed_eq
      ((sheltered_paragraph hplain).unrivalled trivial) hheight supply
    have hsame := halike.same hlegible.proper_withoutOff
    rw [withoutOff_paragraphNode] at hsame
    refine ⟨found, after, ?_, hsame⟩
    rw [parseWithin, trim_paragraph]
    exact hparse
  · intro hspaced
    rw [parseWithin, trim_paragraph]
    exact parseTrimmed_paragraph_error hspaced levels supply

/-- A text with a line end in front of it, a word that hints at a component in it, and another blank
behind it. -/
theorem parse_spacedParagraph :
    (∀ c ∈ "\n class of its own\u00a0".toList, Lexeme.endsText c = false) ∧
      ((Text.trim "\n class of its own\u00a0".toList).take 2 ≠ ['/', '/'] ∧
        (Text.trim "\n class of its own\u00a0".toList).take 2 ≠ ['/', '*']) ∧
      0 < depthLimit ∧
      ∃ found after,
        parseWithin depthLimit (paragraph "\n class of its own\u00a0") ⟨0⟩ = .ok (found, after) ∧
          found.same ⟨.named "p", [], [.text "class of its own"], ""⟩ = true := by
  have hplain : ∀ c ∈ "\n class of its own\u00a0".toList, Lexeme.endsText c = false := by
    have hall : "\n class of its own\u00a0".toList.all (fun c => !Lexeme.endsText c) = true := by
      decide
    simpa only [List.all_eq_true, Bool.not_eq_true'] using hall
  have hcomment : (Text.trim "\n class of its own\u00a0".toList).take 2 ≠ ['/', '/'] ∧
      (Text.trim "\n class of its own\u00a0".toList).take 2 ≠ ['/', '*'] := by decide
  have hlevels : 0 < depthLimit := by decide
  have htrimmed : Text.trimmed "\n class of its own\u00a0" = "class of its own" := by decide
  have hnode : paragraphNode "\n class of its own\u00a0" =
      ⟨.named "p", [], [.text "class of its own"], ""⟩ := by
    rw [paragraphNode, textContents, if_neg (by decide), htrimmed]
  have hparse := (parseWithin_paragraph hplain hcomment hlevels ⟨0⟩).1 (by decide)
  rw [hnode] at hparse
  exact ⟨hplain, hcomment, hlevels, hparse⟩

/-- A text behind a no-break space is not read, although it is trimmed to a text that would be. -/
theorem parse_noBreakSpace :
    (∀ c ∈ "\u00a0x".toList, Lexeme.endsText c = false) ∧ Text.trimmed "\u00a0x" = "x" ∧
      ¬ ∃ found after, parse "<p>\u00a0x</p>" ⟨0⟩ = .ok (found, after) := by
  have hplain : "\u00a0x".toList.all (fun c => !Lexeme.endsText c) = true := by decide
  refine ⟨by simpa only [List.all_eq_true, Bool.not_eq_true'] using hplain, by decide, ?_⟩
  rintro ⟨found, after, hfound⟩
  have htext : "<p>\u00a0x</p>" = paragraph "\u00a0x" := by decide
  obtain ⟨diagnostic, hparse⟩ := @parseTrimmed_paragraph_error "\u00a0x" (by decide) depthLimit ⟨0⟩
  rw [parse, parseWithin, htext, trim_paragraph, hparse] at hfound
  cases hfound

end EditableMarkup.Source
