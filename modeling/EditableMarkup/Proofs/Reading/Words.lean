import EditableMarkup.Proofs.Reading.Primary

/-!
# Words

A word may have a keyword at its start, as `async$` has, so constructs that a
keyword opens have to be followed into the word.  What they leave of it is a
word again, and it ends where the whole word does.
-/

namespace EditableMarkup.Grammar

open Place Reader Rule

/-! ## Words -/

/-- A text at which a word in a call ends: a sign goes on with the call, or it is closed. -/
def WordEnds (text : List Char) : Prop :=
  Closed text ∨ ∃ c rest, links c = true ∧ text = c :: rest

theorem WordEnds.cases {text : List Char} (ends : WordEnds text) :
    Closed text ∨ ∃ rest, text = '.' :: rest ∨ text = '(' :: rest := by
  refine ends.imp_right ?_
  rintro ⟨c, rest, hc, rfl⟩
  rcases links_cases hc with rfl | rfl
  · exact ⟨rest, Or.inl rfl⟩
  · exact ⟨rest, Or.inr rfl⟩

theorem WordEnds.stops {text : List Char} (ends : WordEnds text) :
    Stops Lexeme.continuesName text := by
  rcases ends.cases with closed | ⟨rest, rfl | rfl⟩
  · rcases closed.cases with rfl | ⟨rest, rfl | rfl | rfl | rfl⟩
    · rfl
    · rfl
    · rfl
    · rfl
    · rfl
  · rfl
  · rfl

theorem WordEnds.skipped_eq_none {text : List Char} (ends : WordEnds text) :
    Lexeme.skipped text = none := by
  rcases ends with closed | ⟨c, rest, hc, rfl⟩
  · exact closed.skipped_eq_none
  · exact skipped_of_links hc rest

/-- What may follow a word in an arrow function or stand behind the word `async`. -/
theorem WordEnds.barred {text : List Char} (ends : WordEnds text) :
    Barred [Lexeme.sign ":", Lexeme.sign "=>", Lexeme.keyword "function", Lexeme.name,
      Lexeme.sign "<"] text := by
  rcases ends.cases with closed | ⟨rest, rfl | rfl⟩
  · rcases closed.cases with rfl | ⟨rest, rfl | rfl | rfl | rfl⟩
    all_goals
      simp only [barred_cons, barred_nil, and_true]
      and_intros <;> rfl
  all_goals
    simp only [barred_cons, barred_nil, and_true]
    and_intros <;> rfl

section Word

variable {word tail : List Char}

/-- A text of characters that go on with a name. -/
def AllName (word : List Char) : Prop :=
  ∀ c ∈ word, Lexeme.continuesName c = true

theorem allName_of_anyName (h : Lexeme.anyName word = some word.length) : AllName word := by
  cases word with
  | nil => cases h
  | cons c word =>
      rw [Lexeme.anyName] at h
      split at h
      · next hc =>
          simp only [List.length_cons, Option.some.injEq, Nat.add_right_cancel_iff] at h
          intro d hd
          rcases List.mem_cons.mp hd with rfl | hd
          · exact Lexeme.continuesName_of_startsName hc
          · exact Lexeme.forall_of_run_eq h d hd
      · cases h

theorem AllName.skipped_eq_none (hword : AllName word) (firm : Lexeme.skipped tail = none) :
    Lexeme.skipped (word ++ tail) = none := by
  cases word with
  | nil => exact firm
  | cons c word =>
      have hc := hword c (List.mem_cons_self ..)
      have hspace : Lexeme.isSpace c = false := by
        cases hspace : Lexeme.isSpace c with
        | false => rfl
        | true =>
            have hnone := Lexeme.forall_isSpace (show Lexeme.continuesName ' ' = false from rfl) rfl
              rfl rfl rfl c hspace
            rw [hc] at hnone
            cases hnone
      refine Lexeme.skipped_cons_eq_none hspace ?_ (word ++ tail)
      rintro rfl
      cases hc

/-- A sign that no name can hold is not found in front of a word. -/
theorem AllName.sign_eq_none (hword : AllName word) {spelling : String}
    (h : spelling.toList.head?.any (fun c => !Lexeme.continuesName c) = true)
    (htail : Lexeme.sign spelling tail = none) : Lexeme.sign spelling (word ++ tail) = none := by
  cases word with
  | nil => exact htail
  | cons c word =>
      refine Lexeme.sign_eq_none_of_head h ?_
      rw [hword c (List.mem_cons_self ..), Bool.not_true]

/-- A name that starts in a word ends with it. -/
theorem AllName.anyName_length (hword : AllName word) (stops : Stops Lexeme.continuesName tail)
    {length : Nat} (h : Lexeme.anyName (word ++ tail) = some length) :
    word ≠ [] ∧ length = word.length := by
  rw [Lexeme.anyName_append_eq _ stops] at h
  cases word with
  | nil => cases h
  | cons c word =>
      rw [Lexeme.anyName] at h
      split at h
      · have hrun : Lexeme.run Lexeme.continuesName word = word.length := by
          have hall := @Lexeme.run_append_of_stops _ word [] (fun d hd =>
            hword d (List.mem_cons_of_mem _ hd)) rfl
          rwa [List.append_nil] at hall
        rw [hrun] at h
        cases h
        exact ⟨by simp, rfl⟩
      · cases h

/-- What stands behind a keyword in a word is the rest of the word. -/
theorem AllName.drop_keyword (hword : AllName word) (stops : Stops Lexeme.continuesName tail)
    {spelling : String} (hspelling : AllName spelling.toList) {length : Nat}
    (h : Lexeme.keyword spelling (word ++ tail) = some length) :
    ∃ more, AllName more ∧ (word ++ tail).drop length = more ++ tail ∧
      Text.startsWithWord (more ++ tail) = false ∧ word = spelling.toList ++ more := by
  obtain ⟨hstart, rfl, hbehind⟩ := Lexeme.keyword_eq_some h
  obtain ⟨more, rfl⟩ := Lexeme.prefix_of_stops hstart hspelling stops
  have hdrop : (spelling.toList ++ more ++ tail).drop spelling.toList.length = more ++ tail := by
    rw [List.append_assoc, List.drop_left]
  rw [hdrop] at hbehind
  exact ⟨more, fun c hc => hword c (List.mem_append_right _ hc), hdrop, hbehind, rfl⟩

/-! ## What a word does not start -/

/-- Behind a word alone there is no arrow, and no parameters open where none is left of it. -/
theorem fails_arrow (hword : AllName word) (ends : WordEnds tail)
    (hopen : word ≠ [] ∨ Lexeme.sign "(" tail = none) {place : Place} {lead : Nat}
    (faces : place.Faces lead (word ++ tail)) {make : List Form → List Form → Reader (Slice → Form)} :
    Fails (do
      let parameters ← arrowParameters
      let result ← ifPresent typeAnnotation
      Reader.sign "=>"
      make parameters result) place := by
  obtain ⟨hcolon, harrow, _, _, hangle⟩ := by simpa [Barred] using ends.barred
  apply fails_bind_of_fails
  intro before hbefore
  obtain ⟨reader, hreader, hreads⟩ := exists_of_reads_oneOf hbefore
  simp only [List.mem_cons, List.not_mem_nil, or_false] at hreader
  rcases hreader with rfl | rfl
  · -- the word is the only parameter
    obtain ⟨found, hfound, hused, _⟩ := exists_of_reads_map hreads
    obtain ⟨length, hlength, rfl⟩ :=
      exists_of_reads_lexeme_of_faces faces Lexeme.opens_name.solid hfound
    obtain ⟨hne, rfl⟩ := hword.anyName_length ends.stops (Lexeme.name_eq_some_iff.mp hlength).2
    have hpos := List.length_pos_iff.mpr hne
    rw [hused, faces.advance (by omega), List.drop_left]
    have hend : (of tail).Faces 0 tail := .of_firm ends.skipped_eq_none
    refine (mayStart_ifPresent starts_typeAnnotation).bind (fun _ => (starts_sign rfl).bind) _ _ _
      hend ?_
    simp [Barred, hcolon, harrow]
  · have hparen : Lexeme.sign "(" (word ++ tail) = none := by
      rcases hopen with hne | hnone
      · obtain ⟨c, more, rfl⟩ := List.exists_cons_of_ne_nil hne
        have hc : (!Lexeme.continuesName c) = false := by
          rw [hword c (List.mem_cons_self ..), Bool.not_true]
        exact @Lexeme.sign_eq_none_of_head _ (!Lexeme.continuesName ·) _ _ rfl hc
      · exact hword.sign_eq_none rfl hnone
    have hfree : Barred [Lexeme.sign "<", Lexeme.sign "("] (word ++ tail) := by
      simp [Barred, hword.sign_eq_none rfl hangle, hparen]
    exact absurd hreads (((mayStart_ifPresent starts_typeParameters).bind fun _ =>
      starts_parameterList.bind) place lead (word ++ tail) faces hfree before)

/-- Behind the word `async` at the start of a word stands the rest of the word. -/
theorem faces_behind_async (hword : AllName word) (ends : WordEnds tail) {place : Place}
    {lead : Nat} (faces : place.Faces lead (word ++ tail)) {reading : Reading Unit}
    (h : Reads (optionalKeyword "async") place reading) :
    reading.used = 0 ∨ ∃ more, AllName more ∧ word = "async".toList ++ more ∧
      Text.startsWithWord (more ++ tail) = false ∧
        (place.advance reading.used).Faces 0 (more ++ tail) := by
  rcases exists_of_reads_optionalKeyword faces rfl h with hused | ⟨length, hlength, hused⟩
  · exact Or.inl hused
  · have hspelling : AllName "async".toList := List.all_eq_true.mp rfl
    obtain ⟨more, hmore, hdrop, hbehind, hsplit⟩ :=
      hword.drop_keyword ends.stops hspelling hlength
    have hpos : 0 < length := by
      rw [(Lexeme.keyword_eq_some hlength).2.1]
      decide
    refine Or.inr ⟨more, hmore, hsplit, hbehind, ?_⟩
    rw [hused, faces.advance (by omega), hdrop]
    exact .of_firm (hmore.skipped_eq_none ends.skipped_eq_none)

/-- A word is no arrow function, not even if it starts with the word `async`, unless it is this word
and parameters may follow. -/
theorem fails_arrowFunction_word (hword : AllName word) (hne : word ≠ []) (ends : WordEnds tail)
    (hasync : word ≠ "async".toList ∨ Lexeme.sign "(" tail = none) {place : Place} {lead : Nat}
    (faces : place.Faces lead (word ++ tail)) : Fails arrowFunction place := by
  apply fails_sliced
  apply fails_bind_of_fails
  intro before hbefore
  rcases faces_behind_async hword ends faces hbefore with hused | ⟨more, hmore, hsplit, _, hfaces⟩
  · rw [hused, advance_zero]
    exact fails_arrow hword ends (Or.inl hne) faces
  · refine fails_arrow hmore ends (hasync.imp_left fun hother hnil => hother ?_) hfaces
    rw [hsplit, hnil, List.append_nil]

/-- A name is no function, not even if it starts with the word `async`. -/
theorem fails_functionExpression_word (hword : AllName word) (ends : WordEnds tail)
    (hfunction : Lexeme.keyword "function" (word ++ tail) = none) {place : Place} {lead : Nat}
    (faces : place.Faces lead (word ++ tail)) : Fails functionExpression place := by
  apply fails_sliced
  apply fails_bind_of_fails
  intro before hbefore
  rcases faces_behind_async hword ends faces hbefore with hused | ⟨more, _, _, hbehind, hfaces⟩
  · rw [hused, advance_zero]
    exact (starts_keyword rfl).bind _ _ _ faces (barred_singleton.mpr hfunction)
  · refine (starts_keyword rfl).bind _ _ _ hfaces (barred_singleton.mpr ?_)
    exact Lexeme.keyword_eq_none_of_not_word rfl hbehind

end Word

/-- What starts neither with a name nor with the word `async`. -/
def namelessFirst : List Lexeme :=
  [Lexeme.number, Lexeme.string, Lexeme.template, Lexeme.boolean, Lexeme.keyword "null",
    Lexeme.keyword "this", Lexeme.keyword "super", Lexeme.sign "\x7b", Lexeme.sign "[",
    Lexeme.sign "(", Lexeme.keyword "function", Lexeme.keyword "class", Lexeme.sign "<",
    Lexeme.keyword "new", Lexeme.unary, Lexeme.keyword "await", Lexeme.keyword "yield"]

theorem primaryTable_nameless : ∀ entry ∈ primaryTable,
    entry = (plainLexeme Lexeme.name, [Lexeme.name]) ∨ entry.1 = functionExpression ∨
      entry.2 ⊆ namelessFirst := by
  intro entry hentry
  simp only [primaryTable, List.mem_cons, List.not_mem_nil, or_false] at hentry
  rcases hentry with rfl | rfl | rfl | rfl | rfl | rfl | rfl | rfl | rfl | rfl | rfl | rfl | rfl | rfl
  all_goals simp [namelessFirst]

/-- Nothing but a name and the word `async` starts where a name stands. -/
theorem barred_of_name {text : List Char} {length : Nat} (h : Lexeme.name text = some length) :
    Barred namelessFirst text := by
  obtain ⟨hreserved, hany⟩ := Lexeme.name_eq_some_iff.mp h
  obtain ⟨c, rest, rfl, hc⟩ := Lexeme.exists_startsName hany
  have htest : (!Lexeme.startsName c) = false := by rw [hc, Bool.not_true]
  have hkeyword (s : String) (hs : s ∈ Lexeme.reservedWords) :
      Lexeme.keyword s (c :: rest) = none := Lexeme.keyword_eq_none_of_keywordOf hreserved hs
  have hsign (s : String) (hs : s.toList.head?.any (fun c => !Lexeme.startsName c) = true) :
      Lexeme.sign s (c :: rest) = none := Lexeme.sign_eq_none_of_head hs htest
  have hnumber : Lexeme.number (c :: rest) = none :=
    Lexeme.opens_number.eq_none _
      (@Lexeme.forall_startsName (fun c => (Text.isDigit c || c == '.') = false)
        (by decide) c hc)
  have hstring : Lexeme.string (c :: rest) = none :=
    Lexeme.opens_string.eq_none _
      (@Lexeme.forall_startsName (fun c => (c == '"' || c == '\'') = false)
        (by decide) c hc)
  have htemplate : Lexeme.template (c :: rest) = none :=
    Lexeme.opens_template.eq_none _
      (@Lexeme.forall_startsName (fun c => (c == '\x60') = false) (by decide) c hc)
  have hboolean : Lexeme.boolean (c :: rest) = none := by
    apply Lexeme.keywordOf_eq_none
    intro s hs
    have hsubset : ∀ s ∈ ["true", "false"], s ∈ Lexeme.reservedWords := by decide
    exact hkeyword s (hsubset s hs)
  have hunary : Lexeme.unary (c :: rest) = none := by
    apply Lexeme.firstOf_eq_none
    intro taken htaken
    simp only [List.mem_cons, List.not_mem_nil, or_false] at htaken
    rcases htaken with rfl | rfl
    · apply Lexeme.keywordOf_eq_none
      intro s hs
      have hsubset : ∀ s ∈ ["typeof", "void", "delete"], s ∈ Lexeme.reservedWords := by decide
      exact hkeyword s (hsubset s hs)
    · have hheads : ∀ s ∈ ["++", "--", "!", "~", "+", "-"],
          s.toList.head?.any (fun c => !Lexeme.startsName c) = true := by decide
      exact Lexeme.signOf_eq_none_of_head hheads htest
  simp only [namelessFirst, barred_cons, barred_nil, and_true]
  and_intros <;>
    first
    | exact hkeyword _ (by decide)
    | exact hsign _ rfl
    | assumption

end EditableMarkup.Grammar
