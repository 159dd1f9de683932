import EditableMarkup.Proofs.Literal.Quoted
import EditableMarkup.Proofs.Reading.Words

/-!
# Keys of members

A key with a colon behind it is the key of a property.  It is no method, even
if a modifier such as `async` stands at its start: a method would go on with
its parameters.
-/

namespace EditableMarkup.Grammar

open Place Reader Rule

variable {free : Prop}

/-- A place in front of a colon. -/
def Coloned (place : Place) : Prop :=
  ∃ rest, place.Shows (':' :: rest)

theorem Coloned.fails_of_starts {α : Type} {reader : Reader α} {first : List Lexeme}
    (starts : Starts reader first) {place : Place} (coloned : Coloned place)
    (barred : ∀ rest, Barred first (':' :: rest)) : Fails reader place := by
  obtain ⟨rest, hshows⟩ := coloned
  exact starts place 0 (':' :: rest) (.of_shows hshows rfl) (barred rest)

theorem Coloned.unclosed {place : Place} (coloned : Coloned place) : Unclosed place := by
  intro spelling hspelling
  simp only [List.mem_cons, List.not_mem_nil, or_false] at hspelling
  rcases hspelling with rfl | rfl | rfl | rfl
  all_goals exact coloned.fails_of_starts (starts_sign rfl) fun _ => barred_singleton.mpr rfl

/-- What a key starts with. -/
def keyFirst : List Lexeme :=
  [Lexeme.anyName, Lexeme.string, Lexeme.number, Lexeme.sign "["]

theorem starts_propertyKey : Starts propertyKey keyFirst :=
  starts_anyName.map.cons <|
  (starts_lexeme Lexeme.opens_string.solid).map.cons <|
  (starts_lexeme Lexeme.opens_number.solid).map.cons (starts_sign rfl).bind.single

section Word

variable {word rest : List Char} {place : Place} {lead : Nat}

theorem barred_word (hword : Lexeme.anyName word = some word.length) (tail : List Char) :
    Barred [Lexeme.string, Lexeme.number, Lexeme.sign "[", Lexeme.sign "...", Lexeme.sign "*",
      Lexeme.sign "\x7d"] (word ++ tail) := by
  obtain ⟨c, word, rfl, hc⟩ := Lexeme.exists_startsName hword
  have htest : (!Lexeme.startsName c) = false := by rw [hc, Bool.not_true]
  have hsign (s : String) (hs : s.toList.head?.any (fun c => !Lexeme.startsName c) = true) :
      Lexeme.sign s (c :: (word ++ tail)) = none := Lexeme.sign_eq_none_of_head hs htest
  have hnumber : Lexeme.number (c :: (word ++ tail)) = none :=
    Lexeme.opens_number.eq_none _
      (@Lexeme.forall_startsName (fun c => (Text.isDigit c || c == '.') = false)
        (by decide) c hc)
  have hstring : Lexeme.string (c :: (word ++ tail)) = none :=
    Lexeme.opens_string.eq_none _
      (@Lexeme.forall_startsName (fun c => (c == '"' || c == '\'') = false)
        (by decide) c hc)
  simp only [List.cons_append, barred_cons, barred_nil, and_true]
  exact ⟨hstring, hnumber, hsign _ rfl, hsign _ rfl, hsign _ rfl, hsign _ rfl⟩

/-- A word is a key. -/
theorem settles_propertyKey_word (hword : Lexeme.anyName word = some word.length)
    (stops : Stops Lexeme.continuesName rest) (faces : place.Faces lead (word ++ rest)) :
    Settles free propertyKey place (lead + word.length)
      (· = .word ⟨word ++ rest, word.length⟩) := by
  have htaken := Lexeme.takesWhole_anyName word rest hword stops
  have hform : Settles free (Key.word <$> anyName) place (lead + word.length)
      (· = (.word ⟨word ++ rest, word.length⟩ : Key Form)) := by
    refine (settles_lexeme faces Lexeme.opens_anyName.solid htaken).map ?_
    rintro slice rfl
    rfl
  have hbarred := barred_word hword rest
  refine hform.choose (List.mem_cons_self ..) ?_
  intro other hother
  simp only [List.mem_cons, List.not_mem_nil, or_false] at hother
  rcases hother with rfl | rfl | rfl | rfl
  · exact Or.inl rfl
  · exact Or.inr ((starts_lexeme Lexeme.opens_string.solid).map _ _ _ faces
      (hbarred.mono (by simp)))
  · exact Or.inr ((starts_lexeme Lexeme.opens_number.solid).map _ _ _ faces
      (hbarred.mono (by simp)))
  · exact Or.inr ((starts_sign rfl).bind _ _ _ faces (hbarred.mono (by simp)))

/-- A word, or nothing where a word has ended. -/
def NameRest (word : List Char) : Prop :=
  word = [] ∨ Lexeme.anyName word = some word.length

theorem NameRest.allName (hword : NameRest word) : AllName word := by
  rcases hword with rfl | hword
  · simp [AllName]
  · exact allName_of_anyName hword

/-- From the rest of a word a key is read up to the colon or not at all. -/
theorem coloned_of_reads_propertyKey (hword : NameRest word)
    (faces : place.Faces lead (word ++ ':' :: rest)) {reading : Reading (Key Form)}
    (h : Reads propertyKey place reading) : Coloned (place.advance reading.used) := by
  rcases hword with rfl | hword
  · refine absurd h (starts_propertyKey _ _ _ faces ?_ reading)
    simp only [keyFirst, List.nil_append, barred_cons, barred_nil, and_true]
    and_intros <;> rfl
  · have hpos : 0 < word.length := by
      cases word with
      | nil => cases hword
      | cons c word => simp
    rw [(settles_propertyKey_word hword rfl faces).used_eq h, faces.advance (by omega),
      List.drop_left]
    exact ⟨rest, shows_of _⟩

/-- What a modifier leaves of a word is the rest of a word. -/
theorem nameRest_behind_keyword (hword : NameRest word) {spelling : String}
    (hspelling : AllName spelling.toList) {length : Nat}
    (h : Lexeme.keyword spelling (word ++ ':' :: rest) = some length) :
    ∃ more, NameRest more ∧ (word ++ ':' :: rest).drop length = more ++ ':' :: rest := by
  obtain ⟨more, hmore, hdrop, hbehind, _⟩ := hword.allName.drop_keyword rfl hspelling h
  refine ⟨more, ?_, hdrop⟩
  cases more with
  | nil => exact Or.inl rfl
  | cons c more =>
      -- no word character follows a keyword, so a dollar sign does
      have hc : Lexeme.continuesName c = true := hmore c (List.mem_cons_self ..)
      have hnot : Text.isWord c = false := hbehind
      have hdollar : Lexeme.startsName c = true := by
        simp only [Lexeme.continuesName, hnot, Bool.false_or, beq_iff_eq] at hc
        rw [hc]
        rfl
      have hrun : Lexeme.run Lexeme.continuesName more = more.length := by
        have hrun := @Lexeme.run_append_of_stops _ more [] (fun d hd =>
          hmore d (List.mem_cons_of_mem _ hd)) rfl
        rwa [List.append_nil] at hrun
      refine Or.inr ?_
      simp [Lexeme.anyName, hdollar, hrun]

/-- The modifiers in front of a method. -/
def modifierWords : List String :=
  ["static", "public", "private", "protected", "readonly", "abstract", "override", "declare",
    "async", "get", "set"]

/-- A modifier is one of the words or the sign of a generator. -/
theorem reads_methodModifier {text : List Char} (faces : place.Faces lead text)
    (hstar : Lexeme.sign "*" text = none) {reading : Reading Unit}
    (h : Reads methodModifier place reading) :
    ∃ spelling ∈ modifierWords, ∃ length, Lexeme.keyword spelling text = some length ∧
      reading.used = lead + length := by
  obtain ⟨reader, hreader, hreads⟩ := exists_of_reads_oneOf h
  simp only [List.mem_cons, List.not_mem_nil, or_false] at hreader
  rcases hreader with rfl | rfl | rfl | rfl
  · obtain ⟨length, hlength, hused⟩ := exists_of_reads_word faces Lexeme.solid_modifier hreads
    obtain ⟨spelling, hspelling, hkeyword⟩ := Lexeme.keywordOf_eq_some hlength
    have hsubset : ["static", "public", "private", "protected", "readonly", "abstract",
        "override", "declare"] ⊆ modifierWords := by decide
    exact ⟨spelling, hsubset hspelling, length, hkeyword, hused⟩
  · obtain ⟨length, hlength, hused⟩ := exists_of_reads_keyword faces rfl hreads
    exact ⟨"async", by decide, length, hlength, hused⟩
  · obtain ⟨length, hlength, hused⟩ := exists_of_reads_word faces Lexeme.solid_accessor hreads
    obtain ⟨spelling, hspelling, hkeyword⟩ := Lexeme.keywordOf_eq_some hlength
    have hsubset : ["get", "set"] ⊆ modifierWords := by decide
    exact ⟨spelling, hsubset hspelling, length, hkeyword, hused⟩
  · exact absurd hreads (starts_sign rfl _ _ _ faces (barred_singleton.mpr hstar) reading)

theorem modifierWords_visible : ∀ spelling ∈ modifierWords, spelling.toList ≠ [] := by
  decide

theorem modifierWords_allName :
    ∀ spelling ∈ modifierWords, ∀ c ∈ spelling.toList, Lexeme.continuesName c = true := by
  have hall : modifierWords.all fun spelling => spelling.toList.all Lexeme.continuesName := rfl
  exact fun spelling hspelling => List.all_eq_true.mp (List.all_eq_true.mp hall spelling hspelling)

theorem star_word (hword : NameRest word) : Lexeme.sign "*" (word ++ ':' :: rest) = none := by
  rcases hword with rfl | hword
  · rfl
  · exact barred_word hword (':' :: rest) _ (by simp)

/-- Modifiers leave the rest of a word. -/
theorem nameRest_behind_modifiers (hword : NameRest word)
    (faces : place.Faces lead (word ++ ':' :: rest)) {reading : Reading (List Unit)}
    (h : Reads (many methodModifier) place reading) :
    ∃ lead' more, NameRest more ∧
      (place.advance reading.used).Faces lead' (more ++ ':' :: rest) := by
  refine iterate_induction (fun reading => ∃ lead' more, NameRest more ∧
    (place.advance reading.used).Faces lead' (more ++ ':' :: rest)) ?_ ?_ h
  · intro reading hreading
    rw [reads_nothing.mp hreading]
    exact ⟨lead, word, hword, faces⟩
  · rintro before after ⟨lead', more, hmore, hfaces⟩ hafter
    obtain ⟨found, hfound, last, hlast, rfl⟩ := exists_of_reads_bind hafter
    obtain ⟨spelling, hspelling, length, hlength, hused⟩ :=
      reads_methodModifier hfaces (star_word hmore) hfound
    obtain ⟨less, hless, hdrop⟩ :=
      nameRest_behind_keyword hmore (modifierWords_allName spelling hspelling) hlength
    have hpos : 0 < length := by
      rw [(Lexeme.keyword_eq_some hlength).2.1]
      exact List.length_pos_iff.mpr (modifierWords_visible spelling hspelling)
    rw [reads_pure.mp hlast]
    refine ⟨0, less, hless, ?_⟩
    rw [Reading.followedBy_used, Reading.followedBy_used, advance_add, hused, Nat.add_zero,
      hfaces.advance (by omega), hdrop]
    exact .of_firm (hless.allName.skipped_eq_none rfl)

/-- A word in front of a colon is no method. -/
theorem fails_method_word (hword : Lexeme.anyName word = some word.length)
    (faces : place.Faces lead (word ++ ':' :: rest)) : Fails method place := by
  apply fails_sliced
  apply fails_bind_of_fails
  intro before hbefore
  obtain ⟨lead', more, hmore, hfaces⟩ := nameRest_behind_modifiers (Or.inr hword) faces hbefore
  apply fails_bind_of_fails
  intro key hkey
  refine (coloned_of_reads_propertyKey hmore hfaces hkey).fails_of_starts starts_signature.bind ?_
  intro behind
  simp only [barred_cons, barred_nil, and_true]
  exact ⟨rfl, rfl⟩

/-- A word in front of a colon is all of a name. -/
theorem coloned_of_reads_name (hword : Lexeme.anyName word = some word.length)
    (faces : place.Faces lead (word ++ ':' :: rest)) {reading : Reading Slice}
    (h : Reads name place reading) : Coloned (place.advance reading.used) := by
  obtain ⟨length, hlength, rfl⟩ :=
    exists_of_reads_lexeme_of_faces faces Lexeme.opens_name.solid h
  obtain ⟨hne, rfl⟩ := (allName_of_anyName hword).anyName_length rfl
    (Lexeme.name_eq_some_iff.mp hlength).2
  have hpos := List.length_pos_iff.mpr hne
  rw [faces.advance (by omega), List.drop_left]
  exact ⟨rest, shows_of _⟩

end Word

/-! ## Strings as keys -/

section Quoted

variable {text rest : List Char} {place : Place} {lead : Nat}

theorem barred_quoted (text rest : List Char) :
    Barred [Lexeme.anyName, Lexeme.number, Lexeme.sign "[", Lexeme.sign "...", Lexeme.name,
      Lexeme.modifier, Lexeme.keyword "async", Lexeme.accessor, Lexeme.sign "*",
      Lexeme.sign "\x7d"] (Literal.quotedChars text ++ rest) := by
  simp only [barred_cons, barred_nil, and_true]
  and_intros <;> rfl

/-- A quoted string is a key. -/
theorem settles_propertyKey_quoted (faces : place.Faces lead (Literal.quotedChars text ++ rest)) :
    Settles free propertyKey place (lead + (Literal.quotedChars text).length)
      (· = .quoted ⟨Literal.quotedChars text ++ rest, (Literal.quotedChars text).length⟩) := by
  have htaken := Literal.string_quotedChars text rest
  have hform : Settles free (Key.quoted <$> lexeme Lexeme.string) place
      (lead + (Literal.quotedChars text).length)
      (· = (.quoted ⟨Literal.quotedChars text ++ rest, (Literal.quotedChars text).length⟩ :
        Key Form)) := by
    refine (settles_lexeme faces Lexeme.opens_string.solid htaken).map ?_
    rintro slice rfl
    rfl
  have hbarred := barred_quoted text rest
  refine hform.choose (by simp) ?_
  intro other hother
  simp only [List.mem_cons, List.not_mem_nil, or_false] at hother
  rcases hother with rfl | rfl | rfl | rfl
  · exact Or.inr (starts_anyName.map _ _ _ faces (hbarred.mono (by simp)))
  · exact Or.inl rfl
  · exact Or.inr ((starts_lexeme Lexeme.opens_number.solid).map _ _ _ faces
      (hbarred.mono (by simp)))
  · exact Or.inr ((starts_sign rfl).bind _ _ _ faces (hbarred.mono (by simp)))

theorem starts_methodModifier :
    Starts methodModifier
      [Lexeme.modifier, Lexeme.keyword "async", Lexeme.accessor, Lexeme.sign "*"] :=
  (starts_lexeme Lexeme.solid_modifier).bind.cons <|
  (starts_keyword rfl).cons <|
  (starts_lexeme Lexeme.solid_accessor).bind.cons (starts_sign rfl).single

/-- A quoted string in front of a colon is no method. -/
theorem fails_method_quoted
    (faces : place.Faces lead (Literal.quotedChars text ++ ':' :: rest)) :
    Fails method place := by
  have hbarred := barred_quoted text (':' :: rest)
  apply fails_sliced
  apply fails_bind_of_fails
  intro before hbefore
  have hused := starts_methodModifier.many _ _ _ faces (hbarred.mono (by simp)) before hbefore
  rw [hused, advance_zero]
  apply fails_bind_of_fails
  intro key hkey
  have hcoloned : Coloned (place.advance key.used) := by
    have hpos : 0 < (Literal.quotedChars text).length := by simp [Literal.quotedChars]
    rw [(settles_propertyKey_quoted faces).used_eq hkey, faces.advance (by omega), List.drop_left]
    exact ⟨rest, shows_of _⟩
  refine hcoloned.fails_of_starts starts_signature.bind fun behind => ?_
  simp only [barred_cons, barred_nil, and_true]
  exact ⟨rfl, rfl⟩

end Quoted

end EditableMarkup.Grammar
