import EditableMarkup.Proofs.Reading.Lexemes

/-!
# What a construct starts with

A construct starts with a lexeme of some classes only: it cannot be read from
a place that faces a text at which none of these classes takes anything.  A
part that may be missing is then missed, and the part behind it has to start.
-/

namespace EditableMarkup.Grammar

variable {free : Prop}

/-- No class of a list takes anything at the front of a text. -/
def Barred (first : List Lexeme) (text : List Char) : Prop :=
  ∀ taken ∈ first, taken text = none

theorem barred_nil {text : List Char} : Barred [] text ↔ True := by
  simp [Barred]

theorem barred_cons {taken : Lexeme} {rest : List Lexeme} {text : List Char} :
    Barred (taken :: rest) text ↔ taken text = none ∧ Barred rest text := by
  simp [Barred]

theorem barred_append {first second : List Lexeme} {text : List Char} :
    Barred (first ++ second) text ↔ Barred first text ∧ Barred second text := by
  simp only [Barred, List.mem_append, or_imp, forall_and]

theorem Barred.mono {first second : List Lexeme} {text : List Char} (barred : Barred second text)
    (h : first ⊆ second) : Barred first text :=
  fun taken htaken => barred taken (h htaken)

namespace Reader

variable {α β : Type} {first other : List Lexeme}

/-- A construct starts with a lexeme of some classes only. -/
def Starts (reader : Reader α) (first : List Lexeme) : Prop :=
  ∀ place lead text, Place.Faces place lead text → Barred first text → Fails reader place

/-- A construct starts with a lexeme of some classes only, or nothing is read. -/
def MayStart (reader : Reader α) (first : List Lexeme) : Prop :=
  ∀ place lead text, Place.Faces place lead text → Barred first text →
    ∀ reading, Reads reader place reading → reading.used = 0

/-! ## Lexemes -/

theorem starts_lexeme {taken : Lexeme} (solid : taken.Solid) : Starts (lexeme taken) [taken] :=
  fun _ _ _ faces barred => fails_lexeme faces solid (barred taken (List.mem_singleton.mpr rfl))

theorem starts_sign {spelling : String} (visible : Lexeme.Visible spelling) :
    Starts (sign spelling) [Lexeme.sign spelling] := by
  intro place lead text faces barred
  exact fails_bind (starts_lexeme (Lexeme.solid_sign visible) place lead text faces barred)

theorem starts_keyword {spelling : String} (visible : Lexeme.Visible spelling) :
    Starts (keyword spelling) [Lexeme.keyword spelling] := by
  intro place lead text faces barred
  exact fails_bind (starts_lexeme (Lexeme.solid_keyword visible) place lead text faces barred)

section Words

variable {spelling : String} {place : Place} {lead length : Nat} {text : List Char}

theorem exists_of_reads_word {taken : Lexeme} {value : Unit} (faces : place.Faces lead text)
    (solid : taken.Solid) {reading : Reading Unit}
    (h : Reads (do let _ ← lexeme taken; return value) place reading) :
    ∃ length, taken text = some length ∧ reading.used = lead + length := by
  obtain ⟨before, hbefore, after, hafter, rfl⟩ := exists_of_reads_bind h
  obtain ⟨length, hlength, rfl⟩ := exists_of_reads_lexeme_of_faces faces solid hbefore
  rw [reads_pure.mp hafter]
  exact ⟨length, hlength, rfl⟩

theorem exists_of_reads_keyword (faces : place.Faces lead text)
    (visible : Lexeme.Visible spelling) {reading : Reading Unit}
    (h : Reads (keyword spelling) place reading) :
    ∃ length, Lexeme.keyword spelling text = some length ∧ reading.used = lead + length :=
  exists_of_reads_word faces (Lexeme.solid_keyword visible) h

theorem settles_sign (faces : place.Faces lead text) (visible : Lexeme.Visible spelling)
    (h : Lexeme.sign spelling text = some length) :
    Settles free (sign spelling) place (lead + length) fun _ => True :=
  (settles_lexeme faces (Lexeme.solid_sign visible) h).andThen fun _ _ => .pure trivial

theorem settles_keyword (faces : place.Faces lead text) (visible : Lexeme.Visible spelling)
    (h : Lexeme.keyword spelling text = some length) :
    Settles free (keyword spelling) place (lead + length) fun _ => True :=
  (settles_lexeme faces (Lexeme.solid_keyword visible) h).andThen fun _ _ => .pure trivial

end Words

/-! ## Combined readers -/

section Combine

variable {reader : Reader α} {readers : List (Reader α)} {second : α → Reader β}

theorem Starts.bind (starts : Starts reader first) : Starts (reader >>= second) first :=
  fun place lead text faces barred => fails_bind (starts place lead text faces barred)

theorem Starts.map {f : α → β} (starts : Starts reader first) : Starts (f <$> reader) first :=
  fun place lead text faces barred => fails_map (starts place lead text faces barred)

theorem Starts.sliced {reader : Reader (Slice → α)} (starts : Starts reader first) :
    Starts (Reader.sliced reader) first :=
  fun place lead text faces barred => fails_sliced (starts place lead text faces barred)

theorem Starts.extending {reader : Reader (List Form)} {form : Form}
    (starts : Starts reader first) : Starts (Reader.extending form reader) first :=
  fun place lead text faces barred => fails_extending (starts place lead text faces barred)

theorem Starts.single (starts : Starts reader first) : Starts (oneOf [reader]) first := by
  intro place lead text faces barred
  apply fails_oneOf
  intro found hfound
  rw [List.mem_singleton.mp hfound]
  exact starts place lead text faces barred

/-- A choice starts as its first reader or one of the others does. -/
theorem Starts.cons (starts : Starts reader first) (others : Starts (oneOf readers) other) :
    Starts (oneOf (reader :: readers)) (first ++ other) := by
  intro place lead text faces barred
  obtain ⟨hfirst, hother⟩ := barred_append.mp barred
  apply fails_oneOf
  intro found hfound
  rcases List.mem_cons.mp hfound with rfl | hfound
  · exact starts place lead text faces hfirst
  · intro reading hreading
    obtain ⟨better, hbetter, _⟩ := reaches_oneOf hfound hreading
    exact others place lead text faces hother better hbetter

theorem fails_iterate {step : α → Reader α} {place : Place} (h : Fails reader place) :
    Fails (iterate reader step) place := by
  intro reading hreading
  refine iterate_induction (fun _ => False) ?_ ?_ hreading
  · exact fun reading hreading => h reading hreading
  · exact fun _ _ hfalse => hfalse.elim

theorem Starts.iterate {step : α → Reader α} (starts : Starts reader first) :
    Starts (Reader.iterate reader step) first :=
  fun place lead text faces barred => fails_iterate (starts place lead text faces barred)

theorem Starts.separatedBy {separator : Reader β} (starts : Starts reader first) :
    Starts (Reader.separatedBy separator reader) first :=
  starts.bind.iterate

theorem fails_maybeMore {more : α → Reader α} {place : Place} (h : Fails reader place) :
    Fails (maybeMore reader more) place := by
  apply fails_oneOf
  intro found hfound
  rcases List.mem_cons.mp hfound with rfl | hfound
  · exact h
  · rw [List.mem_singleton.mp hfound]
    exact @fails_bind _ _ (fun _ => reader place) more place h

theorem Starts.maybeMore {more : α → Reader α} (starts : Starts reader first) :
    Starts (Reader.maybeMore reader more) first :=
  fun place lead text faces barred => fails_maybeMore (starts place lead text faces barred)

/-! ## Parts that may be missing -/

theorem Starts.orNothing {value : α} (starts : Starts reader first) :
    MayStart (oneOf [reader, nothing value]) first := by
  intro place lead text faces barred reading hreading
  obtain ⟨found, hfound, hreads⟩ := exists_of_reads_oneOf hreading
  rcases List.mem_cons.mp hfound with rfl | hfound
  · exact absurd hreads (starts place lead text faces barred reading)
  · rw [List.mem_singleton.mp hfound] at hreads
    rw [reads_nothing.mp hreads]

theorem Starts.optional (starts : Starts reader first) :
    MayStart (Reader.optional reader) first :=
  starts.map.orNothing

theorem Starts.many (starts : Starts reader first) : MayStart (Reader.many reader) first := by
  intro place lead text faces barred reading hreading
  refine iterate_induction (fun reading => reading.used = 0) ?_ ?_ hreading
  · intro reading hreading
    rw [reads_nothing.mp hreading]
  · intro reading after hused hafter
    rw [hused, Place.advance_zero] at hafter
    exact absurd hafter (starts.bind place lead text faces barred after)

/-- Where the first part is missing, the second one starts. -/
theorem MayStart.bind (may : MayStart reader first)
    (next : ∀ value, Starts (second value) other) : Starts (reader >>= second) (first ++ other) := by
  intro place lead text faces barred
  obtain ⟨hfirst, hother⟩ := barred_append.mp barred
  apply fails_bind_of_fails
  intro before hbefore
  rw [may place lead text faces hfirst before hbefore, Place.advance_zero]
  exact next before.value place lead text faces hother

theorem MayStart.map {f : α → β} (may : MayStart reader first) : MayStart (f <$> reader) first := by
  intro place lead text faces barred reading hreading
  obtain ⟨before, hbefore, hused, _⟩ := exists_of_reads_map hreading
  rw [hused]
  exact may place lead text faces barred before hbefore

end Combine

/-! ## Where a reading starts -/

section StartsAt

/-- All that is read from a place starts behind the same number of skipped characters. -/
def StartsAt (reader : Reader α) (place : Place) (lead : Nat) : Prop :=
  ∀ reading, Reads reader place reading → reading.used ≠ 0 → reading.lead = lead

variable {reader : Reader α} {place : Place} {lead : Nat}

theorem startsAt_nothing {value : α} : StartsAt (nothing value) place lead := by
  intro reading hreading hused
  rw [reads_nothing.mp hreading] at hused
  exact absurd rfl hused

/-- If nothing is read first, what is read second starts at the place. -/
theorem StartsAt.bind {second : α → Reader β} (h : StartsAt reader place lead)
    (h' : ∀ before, Reads reader place before → before.used = 0 →
      StartsAt (second before.value) place lead) : StartsAt (reader >>= second) place lead := by
  intro reading hreading hused
  obtain ⟨before, hbefore, after, hafter, rfl⟩ := exists_of_reads_bind hreading
  by_cases hzero : before.used = 0
  · rw [hzero, Place.advance_zero] at hafter
    rw [Reading.followedBy_used, hzero, Nat.zero_add] at hused
    have hlead := h' before hbefore hzero after hafter hused
    simpa [Reading.followedBy, hzero] using hlead
  · simpa [Reading.followedBy, hzero] using h before hbefore hzero

theorem StartsAt.oneOf {readers : List (Reader α)}
    (h : ∀ reader ∈ readers, StartsAt reader place lead) : StartsAt (Reader.oneOf readers) place lead := by
  intro reading hreading hused
  obtain ⟨reader, hreader, hreads⟩ := exists_of_reads_oneOf hreading
  exact h reader hreader reading hreads hused

theorem StartsAt.map {f : α → β} (h : StartsAt reader place lead) :
    StartsAt (f <$> reader) place lead :=
  h.bind fun _ _ _ => startsAt_nothing

end StartsAt

end Reader

end EditableMarkup.Grammar
