import EditableMarkup.Proofs.Reading.Primary

/-!
# Words in tags

The name of an element and the names of its attributes are words of markup.  A
word ends where a tag goes on with a space or ends with a sign, and no point,
colon or equals sign stands there.
-/

namespace EditableMarkup.Grammar

open Place Reader Rule

variable {free : Prop}

/-- A text at which a word of a tag ends, and with it what the word says. -/
structure TagRest (text : List Char) : Prop where
  stops : Stops Lexeme.continuesMarkupName text
  behind : ∃ lead shown, (of text).Faces lead shown ∧
    Barred [Lexeme.sign "=", Lexeme.sign ":", Lexeme.sign "."] shown

theorem TagRest.fails_of_starts {α : Type} {reader : Reader α} {first : List Lexeme}
    {text : List Char} (rest : TagRest text) (starts : Starts reader first)
    (h : first ⊆ [Lexeme.sign "=", Lexeme.sign ":", Lexeme.sign "."]) : Fails reader (of text) := by
  obtain ⟨lead, shown, hfaces, hbarred⟩ := rest.behind
  exact starts _ _ _ hfaces (hbarred.mono h)

/-- A place in front of an equals sign. -/
def Equalled (place : Place) : Prop :=
  ∃ rest, place.Shows ('=' :: rest)

theorem Equalled.fails_of_starts {α : Type} {reader : Reader α} {first : List Lexeme}
    (starts : Starts reader first) {place : Place} (equalled : Equalled place)
    (barred : ∀ rest, Barred first ('=' :: rest)) : Fails reader place := by
  obtain ⟨rest, hshows⟩ := equalled
  exact starts place 0 ('=' :: rest) (.of_shows hshows rfl) (barred rest)

theorem TagRest.not_equalled {rest : List Char} (tagRest : TagRest rest) :
    ¬ Equalled (of rest) := by
  rintro ⟨behind, hshows⟩
  have hfails : Fails (Reader.sign "=") (of rest) :=
    tagRest.fails_of_starts (starts_sign rfl) (by simp)
  have hequals : Settles True (Reader.sign "=") (of rest) (0 + 1) fun _ => True :=
    settles_sign (.of_shows hshows rfl) rfl rfl
  obtain ⟨reading, hreading, _⟩ := hequals.reads
  exact hfails reading hreading

/-- A tag ends at once. -/
theorem tagRest_close (rest : List Char) : TagRest ('>' :: rest) where
  stops := rfl
  behind := by
    refine ⟨0, _, .of_firm rfl, ?_⟩
    simp only [barred_cons, barred_nil, and_true]
    exact ⟨rfl, rfl, rfl⟩

/-- A tag ends behind a space and a slash. -/
theorem tagRest_slash (rest : List Char) : TagRest (' ' :: '/' :: '>' :: rest) where
  stops := rfl
  behind := by
    have hfaces : (of ([' '] ++ '/' :: '>' :: rest)).Faces 1 ('/' :: '>' :: rest) :=
      .of_spaces (by simp [Lexeme.isSpace]) rfl
    refine ⟨1, _, hfaces, ?_⟩
    simp only [barred_cons, barred_nil, and_true]
    exact ⟨rfl, rfl, rfl⟩

section Word

variable {word rest : List Char} {place : Place} {lead : Nat}

theorem startsName_of_markupName (hword : Lexeme.markupName word = some word.length) :
    ∃ c more, word = c :: more ∧ Lexeme.startsName c = true := by
  obtain ⟨count, hcount⟩ := Lexeme.anyName_of_markupName hword
  exact Lexeme.exists_startsName hcount

theorem skipped_of_startsName {c : Char} (hc : Lexeme.startsName c = true) (more : List Char) :
    Lexeme.skipped (c :: more) = none := by
  have hplain := @Lexeme.forall_startsName (fun c => Lexeme.isSpace c = false ∧ c ≠ '/')
    (by decide) c hc
  exact Lexeme.skipped_cons_eq_none hplain.1 hplain.2 more

theorem skipped_slash_of_startsName {c : Char} (hc : Lexeme.startsName c = true)
    (more : List Char) : Lexeme.skipped ('/' :: c :: more) = none := by
  have hplain := @Lexeme.forall_startsName (fun c => c ≠ '/' ∧ c ≠ '*') (by decide) c hc
  have hcomment : Lexeme.comment ('/' :: c :: more) = none := by
    unfold Lexeme.comment
    split
    · next hsplit => exact absurd (List.cons.inj (List.cons.inj hsplit).2).1 hplain.1
    · next hsplit => exact absurd (List.cons.inj (List.cons.inj hsplit).2).1 hplain.2
    · rfl
  have hspaces : Lexeme.spaces ('/' :: c :: more) = none := rfl
  simp [Lexeme.skipped, Lexeme.firstOf, hspaces, hcomment]

/-- A sign that no name starts with is not found in front of a word of markup. -/
theorem sign_markupName (hword : Lexeme.markupName word = some word.length) {spelling : String}
    (h : spelling.toList.head?.any (fun c => !Lexeme.startsName c) = true) (rest : List Char) :
    Lexeme.sign spelling (word ++ rest) = none := by
  obtain ⟨c, more, rfl, hc⟩ := startsName_of_markupName hword
  exact Lexeme.sign_eq_none_of_head h (by rw [hc, Bool.not_true])

/-- Behind a space a word goes on with a tag. -/
theorem tagRest_word (hword : Lexeme.markupName word = some word.length) (rest : List Char) :
    TagRest (' ' :: word ++ rest) where
  stops := rfl
  behind := by
    obtain ⟨c, more, rfl, hc⟩ := startsName_of_markupName hword
    have hfaces : (of ([' '] ++ (c :: more ++ rest))).Faces 1 (c :: more ++ rest) :=
      .of_spaces (by simp [Lexeme.isSpace]) (skipped_of_startsName hc _)
    refine ⟨1, _, hfaces, ?_⟩
    simp only [barred_cons, barred_nil, and_true]
    exact ⟨sign_markupName hword rfl rest, sign_markupName hword rfl rest,
      sign_markupName hword rfl rest⟩

theorem settles_markupWord (hword : Lexeme.markupName word = some word.length)
    (stops : Stops Lexeme.continuesMarkupName rest) (faces : place.Faces lead (word ++ rest)) :
    Settles free markupWord place (lead + word.length) (· = ⟨word ++ rest, word.length⟩) :=
  settles_lexeme faces Lexeme.opens_markupName.solid
    (Lexeme.takesWhole_markupName word rest hword stops)

/-- A word of markup is the name of an element. -/
theorem settles_elementName (hword : Lexeme.markupName word = some word.length)
    (tagRest : TagRest rest) (faces : place.Faces lead (word ++ rest)) :
    Settles free elementName place (lead + word.length)
      (· = .simple ⟨word ++ rest, word.length⟩) := by
  have hpos : 0 < word.length := by
    obtain ⟨c, more, rfl, _⟩ := startsName_of_markupName hword
    simp
  have hend : place.advance (lead + word.length) = of rest := by
    rw [faces.advance (by omega), List.drop_left]
  have hsimple : Settles free (ElementName.simple <$> markupWord) place (lead + word.length)
      (· = .simple ⟨word ++ rest, word.length⟩) := by
    refine (settles_markupWord hword tagRest.stops faces).map ?_
    rintro slice rfl
    rfl
  have hfails {spelling : String} (visible : Lexeme.Visible spelling)
      (h : [Lexeme.sign spelling] ⊆ [Lexeme.sign "=", Lexeme.sign ":", Lexeme.sign "."])
      (more : Slice → Reader ElementName) :
      Fails (markupWord >>= fun first => Reader.sign spelling >>= fun _ => more first) place := by
    apply fails_bind_of_fails
    intro before hbefore
    rw [(settles_markupWord hword tagRest.stops faces).used_eq hbefore, hend]
    exact tagRest.fails_of_starts (starts_sign visible).bind h
  refine hsimple.choose (List.mem_cons_self ..) ?_
  intro other hother
  simp only [List.mem_cons, List.not_mem_nil, or_false] at hother
  rcases hother with rfl | rfl | rfl
  · exact Or.inl rfl
  · exact Or.inr (hfails rfl (by simp) _)
  · exact Or.inr (hfails rfl (by simp) _)

end Word

/-! ## Markup in a row -/

theorem tagged_of {shown : List Char} (h : shown ≠ []) :
    Reader.tagged (of shown) = Rule.markup (bare shown) := by
  obtain ⟨c, rest, rfl⟩ := List.exists_cons_of_ne_nil h
  rfl

/-- No markup starts where no angle bracket stands. -/
theorem fails_tagged {shown text : List Char} {lead : Nat} (faces : (of shown).Faces lead text)
    (h : Lexeme.sign "<" text = none) : Fails Reader.tagged (of shown) := by
  by_cases hne : shown = []
  · subst hne
    intro reading hreading
    cases hreading
  · intro reading hreading
    rw [Reads, tagged_of hne] at hreading
    refine starts_markup _ _ _ (faces.transfer (shows_bare shown)) ?_ reading hreading
    simp [Barred, h]

theorem starts_elementName :
    Starts elementName [Lexeme.markupName, Lexeme.markupName, Lexeme.markupName] :=
  (starts_markupWord.map).cons (starts_markupWord.bind.cons starts_markupWord.bind.single)

/-- A closing tag opens no markup. -/
theorem fails_tagged_closing {shown rest : List Char} {lead : Nat}
    (faces : (of shown).Faces lead ('<' :: '/' :: rest))
    (hfirm : Lexeme.skipped ('/' :: rest) = none) : Fails Reader.tagged (of shown) := by
  have hne : shown ≠ [] := by
    rintro rfl
    have hlength := faces.length_eq
    simp [of] at hlength
  have hbare := faces.transfer (shows_bare shown)
  have hbracket : Settles True (Reader.sign "<") (bare shown) (lead + 1) fun _ => True :=
    settles_sign hbare rfl rfl
  have hbehind {α : Type} {second : Unit → Reader α}
      (h : ∀ value, Fails (second value) (of ('/' :: rest))) :
      Fails (Reader.sign "<" >>= second) (bare shown) := by
    refine fails_bind_of_fails fun before hbefore => ?_
    rw [hbracket.used_eq hbefore, hbare.advance (by omega)]
    exact h before.value
  have hslash : (of ('/' :: rest)).Faces 0 ('/' :: rest) := .of_firm hfirm
  intro reading hreading
  rw [Reads, tagged_of hne] at hreading
  refine fails_oneOf ?_ reading hreading
  intro other hother
  simp only [List.mem_cons, List.not_mem_nil, or_false] at hother
  rcases hother with rfl | rfl
  · refine fails_sliced (hbehind fun _ => ?_)
    refine starts_elementName.bind _ _ _ hslash ?_
    simp only [barred_cons, barred_nil, and_true]
    and_intros <;> rfl
  · refine fails_sliced (hbehind fun _ => ?_)
    exact (starts_sign rfl).bind _ _ _ hslash (barred_singleton.mpr rfl)

end EditableMarkup.Grammar
