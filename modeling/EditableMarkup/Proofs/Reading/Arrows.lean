import EditableMarkup.Proofs.Reading.Levels
import EditableMarkup.Proofs.Reading.Tags

/-!
# Arrow functions that start like markup

An angle bracket and a name may open an element, but also the type parameters of
an arrow function.  Such a function is read only where the tag goes on with the
word `extends` or ends at once, and it never ends in front of its arrow.
-/

namespace EditableMarkup.Grammar

open Place Reader Rule

/-! ## Behind an arrow -/

/-- An arrow stands in a text with at least some number of characters behind it. -/
def ArrowAhead (text : List Char) (left : Nat) : Prop :=
  ∃ behind, '=' :: '>' :: behind <:+ text ∧ left ≤ behind.length

theorem closing_arrowAhead (text : List Char) : Closing (ArrowAhead text) := by
  rintro more fewer hfewer ⟨behind, hsuffix, hmore⟩
  exact ⟨behind, hsuffix, Nat.le_trans hfewer hmore⟩

theorem suffix_of_spaces {blank text : List Char} (hblank : ∀ c ∈ blank, Lexeme.isSpace c = true)
    {c : Char} {behind : List Char} (hc : Lexeme.isSpace c = false)
    (h : c :: behind <:+ blank ++ text) : c :: behind <:+ text := by
  induction blank with
  | nil => exact h
  | cons d blank ih =>
      rw [List.cons_append, List.suffix_cons_iff] at h
      rcases h with heq | h
      · rw [(List.cons.inj heq).1, hblank d (List.mem_cons_self ..)] at hc
        cases hc
      · exact ih (fun e he => hblank e (List.mem_cons_of_mem _ he)) h

/-- Where an arrow is read, an arrow stands. -/
theorem passes_arrow {place : Place} {text : List Char} (shows_ : place.Shows text) (count : Nat) :
    Passes (Reader.sign "=>") (place.advance count) (ArrowAhead text) := by
  intro reading hreading
  obtain ⟨gap, _, hused, rest, hrest⟩ :=
    exists_of_reads_sign_shows (shows_.advance_shows count) hreading
  rw [List.drop_drop] at hrest
  have harrow : '=' :: '>' :: rest = text.drop (count + gap) := hrest.symm
  refine ⟨rest, harrow ▸ List.drop_suffix .., ?_⟩
  have hlength := congrArg List.length harrow
  rw [hused, (shows_.advance_shows count).length_eq]
  simp only [List.length_cons, List.length_drop] at hlength ⊢
  have hspelling : "=>".toList.length = 2 := rfl
  omega

/-- An arrow function ends behind its arrow. -/
theorem passes_arrowFunction {place : Place} {text : List Char} (shows_ : place.Shows text) :
    Passes Rule.arrowFunction place (ArrowAhead text) := by
  refine Passes.sliced (passes_bind fun first _ => passes_bind fun second _ =>
    passes_bind fun third _ => ?_)
  rw [← advance_add, ← advance_add]
  exact (passes_arrow shows_ _).bind (closing_arrowAhead text)

/-! ## Type parameters at an angle bracket -/

section TypeParameters

variable {place : Place} {lead : Nat} {text : List Char}

/-- Without type parameters an angle bracket opens no arrow function. -/
theorem fails_arrowFunction_angle (faces : place.Faces lead ('<' :: text))
    (h : ∀ reading, Reads typeParameters place reading →
      Fails parameterList (place.advance reading.used)) : Fails Rule.arrowFunction place := by
  apply fails_sliced
  apply fails_bind_of_fails
  intro first hfirst
  have hzero : first.used = 0 :=
    mayStart_optionalKeyword rfl _ _ _ faces (barred_singleton.mpr rfl) first hfirst
  rw [hzero, advance_zero]
  apply fails_bind
  apply fails_oneOf
  intro reader hreader
  simp only [List.mem_cons, List.not_mem_nil, or_false] at hreader
  rcases hreader with rfl | rfl
  · exact starts_name.map _ _ _ faces (barred_singleton.mpr rfl)
  · apply fails_bind_of_fails
    intro types htypes
    obtain ⟨reader, hreader, hreads⟩ := exists_of_reads_oneOf htypes
    simp only [List.mem_cons, List.not_mem_nil, or_false] at hreader
    rcases hreader with rfl | rfl
    · exact fails_bind (h types hreads)
    · rw [reads_nothing.mp hreads]
      exact starts_parameterList.bind _ _ _ faces (barred_singleton.mpr rfl)

/-- A place at which a list of type parameters can only be closed. -/
structure Bounded (place : Place) (text : List Char) : Prop where
  faces : ∃ lead, place.Faces lead text
  barred : Barred [Lexeme.keyword "extends", Lexeme.sign "=", Lexeme.sign ","] text

theorem Bounded.fails {α : Type} {reader : Reader α} {first : List Lexeme}
    (bounded : Bounded place text) (starts : Starts reader first)
    (h : first ⊆ [Lexeme.keyword "extends", Lexeme.sign "=", Lexeme.sign ","]) :
    Fails reader place := by
  obtain ⟨lead, faces⟩ := bounded.faces
  exact starts _ _ _ faces (bounded.barred.mono h)

theorem Bounded.used_eq_zero {α : Type} {reader : Reader α} {first : List Lexeme}
    (bounded : Bounded place text) (may : MayStart reader first)
    (h : first ⊆ [Lexeme.keyword "extends", Lexeme.sign "=", Lexeme.sign ","])
    {reading : Reading α} (hreading : Reads reader place reading) : reading.used = 0 := by
  obtain ⟨lead, faces⟩ := bounded.faces
  exact may _ _ _ faces (bounded.barred.mono h) reading hreading

/-- Where names lead to bounded places only, so do lists of type parameters. -/
theorem exists_of_reads_typeParameterList {places : Place → Prop}
    (hname : ∀ reading, Reads Rule.name place reading → places (place.advance reading.used))
    (hplaces : ∀ place, places place → ∃ text, Bounded place text)
    {reading : Reading (List (List Form))} (h : Reads (commaList typeParameter) place reading) :
    places (place.advance reading.used) := by
  have hparameter : ∀ reading, Reads typeParameter place reading →
      places (place.advance reading.used) := by
    intro reading hreading
    obtain ⟨word, hword, behind, hbehind, rfl⟩ := exists_of_reads_bind hreading
    have hend := hname word hword
    obtain ⟨text, bounded⟩ := hplaces _ hend
    obtain ⟨bound, hbound, standard, hstandard, rfl⟩ := exists_of_reads_bind hbehind
    have hboundUsed : bound.used = 0 :=
      bounded.used_eq_zero (mayStart_ifPresent (starts_keyword rfl).bind) (by simp) hbound
    rw [hboundUsed, advance_zero] at hstandard
    obtain ⟨value, hvalue, hused, _⟩ := exists_of_reads_returning hstandard
    have hvalueUsed : value.used = 0 :=
      bounded.used_eq_zero (mayStart_ifPresent (starts_sign rfl).bind) (by simp) hvalue
    rw [Reading.followedBy_used, Reading.followedBy_used, hboundUsed, hused, hvalueUsed]
    exact hend
  obtain ⟨values, hvalues, last, hlast, rfl⟩ := exists_of_reads_bind h
  have hend : places (place.advance values.used) := by
    refine iterate_induction (fun values => places (place.advance values.used)) ?_ ?_ hvalues
    · intro values hvalues
      obtain ⟨first, hfirst, hused, _⟩ := exists_of_reads_returning hvalues
      rw [hused]
      exact hparameter first hfirst
    · intro before after hbefore hafter
      obtain ⟨text, bounded⟩ := hplaces _ hbefore
      exact absurd hafter (bounded.fails (starts_sign rfl).bind (by simp) after)
  obtain ⟨text, bounded⟩ := hplaces _ hend
  obtain ⟨comma, hcomma, hused, _⟩ := exists_of_reads_returning hlast
  have hzero : comma.used = 0 :=
    bounded.used_eq_zero (starts_sign rfl).optional (by simp) hcomma
  rw [Reading.followedBy_used, hused, hzero]
  exact hend

/-- The name in a word of markup is the whole word, or a hyphen follows it. -/
theorem drop_name {word rest : List Char} (hword : Lexeme.markupName word = some word.length)
    (stops : Stops Lexeme.continuesName rest) {length : Nat}
    (h : Lexeme.name (word ++ rest) = some length) :
    0 < length ∧ ((word ++ rest).drop length = rest ∨
      ∃ more, (word ++ rest).drop length = '-' :: more) := by
  obtain ⟨count, hcount⟩ := Lexeme.anyName_of_markupName hword
  have hlength : length = count := by
    have hany := (Lexeme.name_eq_some_iff.mp h).2
    rw [Lexeme.anyName_append_eq word stops, hcount] at hany
    exact (Option.some.inj hany).symm
  subst hlength
  obtain ⟨c, more, rfl, hc⟩ := Lexeme.exists_startsName hcount
  have hrun : length = Lexeme.run Lexeme.continuesName more + 1 := by
    simpa [Lexeme.anyName, hc] using hcount.symm
  have hle := Lexeme.run_le Lexeme.continuesName more
  refine ⟨by omega, ?_⟩
  simp only [Lexeme.markupName, hcount, bind, Option.bind, Option.some.injEq] at hword
  rw [List.drop_append_of_le_length (by simp only [List.length_cons]; omega)]
  cases hbehind : (c :: more).drop length with
  | nil => exact Or.inl rfl
  | cons d behind =>
      by_cases hd : d = '-'
      · subst hd
        exact Or.inr ⟨behind ++ rest, rfl⟩
      · have hzero := Lexeme.hyphenated_eq_zero (c :: more).length
          (show Stops (· == '-') (d :: behind) from beq_false_of_ne hd)
        rw [hbehind, hzero, Nat.add_zero] at hword
        rw [hword, List.drop_length] at hbehind
        cases hbehind

/-- Type parameters at a tag without the word `extends` are the name of the tag alone. -/
theorem exists_of_reads_typeParameters {word rest : List Char}
    (faces : place.Faces lead ('<' :: (word ++ rest)))
    (hword : Lexeme.markupName word = some word.length) (stops : Stops Lexeme.continuesName rest)
    (bounded : Bounded (of rest) text) {reading : Reading (List Form)}
    (h : Reads typeParameters place reading) :
    ∃ more, text = '>' :: more ∧ place.advance reading.used = of more := by
  obtain ⟨c, more, hsplit, hc⟩ := startsName_of_markupName hword
  have hbracket : Settles True (Reader.sign "<") place (lead + 1) fun _ => True :=
    settles_sign faces rfl rfl
  obtain ⟨opening, hopening, behind, hbehind, rfl⟩ := exists_of_reads_bind h
  obtain ⟨hopeningUsed, _⟩ := (hbracket.only opening hopening).resolve_right id
  rw [hopeningUsed, faces.advance (by omega), List.drop_succ_cons, List.drop_zero] at hbehind
  have hwordFaces : (of (word ++ rest)).Faces 0 (word ++ rest) :=
    .of_firm (by rw [hsplit]; exact skipped_of_startsName hc _)
  -- behind the name stands the rest of the tag, or a hyphen that nothing goes on with
  let places : Place → Prop := fun place => place = of rest ∨ ∃ more, place = of ('-' :: more)
  have hhyphen (more : List Char) : Bounded (of ('-' :: more)) ('-' :: more) :=
    ⟨⟨0, .of_firm rfl⟩, by simp only [barred_cons, barred_nil, and_true]; exact ⟨rfl, rfl, rfl⟩⟩
  have hname : ∀ reading, Reads Rule.name (of (word ++ rest)) reading →
      places ((of (word ++ rest)).advance reading.used) := by
    intro reading hreading
    obtain ⟨length, hlength, rfl⟩ :=
      exists_of_reads_lexeme_of_faces hwordFaces Lexeme.opens_name.solid hreading
    obtain ⟨hpositive, hdrop⟩ := drop_name hword stops hlength
    rw [hwordFaces.advance (by omega)]
    rcases hdrop with hdrop | ⟨more, hdrop⟩
    · exact Or.inl (by rw [hdrop])
    · exact Or.inr ⟨more, by rw [hdrop]⟩
  obtain ⟨inside, hinside, last, hlast, rfl⟩ := exists_of_reads_bind hbehind
  have hend := exists_of_reads_typeParameterList hname (fun place hplace => by
    rcases hplace with rfl | ⟨more, rfl⟩
    · exact ⟨text, bounded⟩
    · exact ⟨_, hhyphen more⟩) hinside
  obtain ⟨closing, hclosing, hused, _⟩ := exists_of_reads_returning hlast
  have hadvance : place.advance (lead + 1) = of (word ++ rest) := by
    rw [faces.advance (by omega)]
    rfl
  rcases hend with hend | ⟨more, hend⟩
  · rw [hend] at hclosing
    obtain ⟨lead', faces'⟩ := bounded.faces
    cases hsign : Lexeme.sign ">" text with
    | none => exact absurd hclosing (starts_sign rfl _ _ _ faces' (barred_singleton.mpr hsign) closing)
    | some length =>
        have hsettles : Settles True (Reader.sign ">") (of rest) (lead' + length) fun _ => True :=
          settles_sign faces' rfl hsign
        obtain ⟨hclosingUsed, _⟩ := (hsettles.only closing hclosing).resolve_right id
        obtain ⟨⟨behind, hbehind⟩, hlength⟩ := Lexeme.spelled_eq_some_iff.mp hsign
        have hone : length = 1 := hlength
        refine ⟨behind, hbehind.symm, ?_⟩
        rw [Reading.followedBy_used, Reading.followedBy_used, hopeningUsed, advance_add, advance_add,
          hadvance, hend, hused, hclosingUsed, faces'.advance (by omega), ← hbehind, hone]
        rfl
  · rw [hend] at hclosing
    have hfails : Fails (Reader.sign ">") (of ('-' :: more)) :=
      starts_sign rfl _ 0 _ (.of_firm rfl) (barred_singleton.mpr rfl)
    exact absurd hclosing (hfails closing)

end TypeParameters

end EditableMarkup.Grammar
