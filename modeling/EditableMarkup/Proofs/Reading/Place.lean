import EditableMarkup.Grammar.Rows
import EditableMarkup.Proofs.Reading.Iterate

/-!
# Places of a text

The rows of a text show the text: their characters, the gaps in front of a
lexeme, and behind any first characters the rows of the rest.  The row that is
still being built shows the same, so a rule may be followed from it.

A place faces a text if some spaces lead up to the text and nothing else can be
skipped.  From there a lexeme is read in one way at most.
-/

namespace EditableMarkup.Grammar

variable {α : Type} {free : Prop}

namespace Place

theorem text_of (text : List Char) : (of text).text = text := by
  induction text with
  | nil => rfl
  | cons c rest ih =>
      change c :: (of rest).text = c :: rest
      rw [ih]

theorem length_of (text : List Char) : (of text).length = text.length := by
  induction text with
  | nil => rfl
  | cons c rest ih => exact congrArg (· + 1) ih

theorem advance_of (text : List Char) (count : Nat) :
    (of text).advance count = of (text.drop count) := by
  induction text generalizing count with
  | nil => cases count <;> rfl
  | cons c rest ih =>
      cases count with
      | zero => rfl
      | succ count => exact ih count

theorem gaps_of_cons (c : Char) (rest : List Char) :
    (of (c :: rest)).gaps = gapsOf (c :: rest) (of rest) := by
  change gapsOf (c :: (of rest).text) (of rest) = _
  rw [text_of]

/-- Where nothing can be skipped, a lexeme starts at once. -/
theorem gaps_of_firm {text : List Char} (h : Lexeme.skipped text = none) :
    (of text).gaps = [0] := by
  cases text with
  | nil => rfl
  | cons c rest => rw [gaps_of_cons, gapsOf, h]

/-- In front of a lexeme a skipped run and all gaps behind it may be skipped. -/
theorem gaps_of_skipped {text : List Char} {length : Nat}
    (h : Lexeme.skipped text = some (length + 1)) :
    (of text).gaps = 0 :: ((of (text.drop (length + 1))).gaps.map (· + (length + 1))) := by
  cases text with
  | nil => cases h
  | cons c rest =>
      rw [gaps_of_cons, gapsOf, h]
      simp only [advance_of, List.drop_succ_cons]

/-! ## Places that show a text -/

/-- A place shows a text: its characters and gaps are those of the text, and behind the first
characters lie the rows of the rest. -/
structure Shows (place : Place) (text : List Char) : Prop where
  length_eq : place.length = text.length
  text_eq : place.text = text
  gaps_eq : place.gaps = (of text).gaps
  advance_eq : ∀ count, place.advance (count + 1) = of (text.drop (count + 1))

theorem shows_of (text : List Char) : (of text).Shows text where
  length_eq := length_of text
  text_eq := text_of text
  gaps_eq := rfl
  advance_eq _ := advance_of text _

/-- A row with the right text and gaps above the rows of the rest. -/
theorem shows_cons {row : Row} {c : Char} {rest : List Char} (htext : row.text = c :: rest)
    (hgaps : row.gaps = gapsOf (c :: rest) (of rest)) : Shows (row :: of rest) (c :: rest) where
  length_eq := congrArg (· + 1) (length_of rest)
  text_eq := htext
  gaps_eq := hgaps.trans (gaps_of_cons c rest).symm
  advance_eq count := advance_of rest count

namespace Shows

variable {place : Place} {text : List Char}

theorem advance (shows_ : place.Shows text) {count : Nat} (h : 0 < count) :
    place.advance count = of (text.drop count) := by
  obtain ⟨count, rfl⟩ := Nat.exists_eq_succ_of_ne_zero (Nat.ne_of_gt h)
  exact shows_.advance_eq count

theorem advance_text (shows_ : place.Shows text) (count : Nat) :
    (place.advance count).text = text.drop count := by
  cases count with
  | zero => exact shows_.text_eq
  | succ count => rw [shows_.advance_eq, text_of]

theorem advance_append {front rest : List Char} (shows_ : place.Shows (front ++ rest))
    (h : front ≠ []) : place.advance front.length = of rest := by
  rw [shows_.advance (List.length_pos_iff.mpr h), List.drop_left]

theorem advance_shows (shows_ : place.Shows text) (count : Nat) :
    (place.advance count).Shows (text.drop count) := by
  cases count with
  | zero => exact shows_
  | succ count =>
      rw [shows_.advance_eq]
      exact shows_of _

theorem unique (shows_ : place.Shows text) {other : List Char} (h : place.Shows other) :
    text = other :=
  shows_.text_eq.symm.trans h.text_eq

end Shows

/-! ## Rows under construction -/

/-- A text above whose rest the row of its first character is still being built. -/
def under (row : Char → Place → Row) : List Char → Place
  | [] => []
  | c :: rest => row c (of rest) :: of rest

/-- A row in which no column is filled yet. -/
def bareRow (c : Char) (later : Place) : Row :=
  { text := c :: later.text, gaps := gapsOf (c :: later.text) later }

/-- The place that constructs with a lexeme of their own are read from. -/
abbrev bare : List Char → Place :=
  under bareRow

/-- The place that calls are read from. -/
abbrev opened : List Char → Place :=
  under Row.opened

/-- The place that unary expressions are read from. -/
abbrev atUnary : List Char → Place :=
  under fun c later => (Row.opened c later).withCall later

/-- The place that operands are read from. -/
abbrev atOperand : List Char → Place :=
  under fun c later => ((Row.opened c later).withCall later).withUnary later

/-- The place that assignments are read from. -/
abbrev atAssignment : List Char → Place :=
  under fun c later => (((Row.opened c later).withCall later).withUnary later).withOperand later

/-- The place that expressions are read from. -/
abbrev atExpression : List Char → Place :=
  under fun c later =>
    ((((Row.opened c later).withCall later).withUnary later).withOperand later).withAssignment later

/-- The place that statements are read from. -/
abbrev atStatement : List Char → Place :=
  under fun c later =>
    (((((Row.opened c later).withCall later).withUnary later).withOperand later).withAssignment
      later).withExpression later

theorem length_under (row : Char → Place → Row) (text : List Char) :
    (under row text).length = text.length := by
  cases text with
  | nil => rfl
  | cons c rest => exact congrArg (· + 1) (length_of rest)

theorem shows_under {row : Char → Place → Row}
    (htext : ∀ c later, (row c later).text = c :: later.text)
    (hgaps : ∀ c later, (row c later).gaps = gapsOf (c :: later.text) later) (text : List Char) :
    Shows (under row text) text := by
  cases text with
  | nil => exact shows_of []
  | cons c rest =>
      refine shows_cons ?_ ?_
      · rw [htext, text_of]
      · rw [hgaps, text_of]

theorem shows_bare (text : List Char) : (bare text).Shows text :=
  shows_under (fun _ _ => rfl) (fun _ _ => rfl) text

theorem shows_opened (text : List Char) : (opened text).Shows text :=
  shows_under (fun _ _ => rfl) (fun _ _ => rfl) text

theorem shows_atUnary (text : List Char) : (atUnary text).Shows text :=
  shows_under (fun _ _ => rfl) (fun _ _ => rfl) text

theorem shows_atOperand (text : List Char) : (atOperand text).Shows text :=
  shows_under (fun _ _ => rfl) (fun _ _ => rfl) text

theorem shows_atAssignment (text : List Char) : (atAssignment text).Shows text :=
  shows_under (fun _ _ => rfl) (fun _ _ => rfl) text

theorem shows_atExpression (text : List Char) : (atExpression text).Shows text :=
  shows_under (fun _ _ => rfl) (fun _ _ => rfl) text

theorem shows_atStatement (text : List Char) : (atStatement text).Shows text :=
  shows_under (fun _ _ => rfl) (fun _ _ => rfl) text

/-! ## Places in front of a text -/

/-- Some spaces lead up to a text, in front of which nothing else can be skipped. -/
structure Faces (place : Place) (lead : Nat) (text : List Char) : Prop where
  shows_ : ∃ blank : List Char, blank.length = lead ∧ (∀ c ∈ blank, Lexeme.isSpace c = true) ∧
    place.Shows (blank ++ text)
  firm : Lexeme.skipped text = none

end Place

namespace Lexeme

theorem run_append {test : Char → Bool} {front : List Char} (h : ∀ c ∈ front, test c = true)
    (text : List Char) : run test (front ++ text) = front.length + run test text := by
  induction front with
  | nil => simp
  | cons c rest ih =>
      have hrest := ih fun d hd => h d (List.mem_cons_of_mem _ hd)
      simp only [List.cons_append, run, h c (List.mem_cons_self ..), if_true, hrest,
        List.length_cons]
      omega

theorem run_eq_zero_of_skipped_eq_none {text : List Char} (h : skipped text = none) :
    run isSpace text = 0 := by
  cases hrun : run isSpace text with
  | zero => rfl
  | succ length => simp [skipped, firstOf, spaces, hrun] at h

/-- A nonempty run of spaces is skipped in front of a text that is not skipped. -/
theorem skipped_spaces {blank text : List Char} (h : ∀ c ∈ blank, isSpace c = true)
    (hblank : blank ≠ []) (hfirm : skipped text = none) :
    skipped (blank ++ text) = some blank.length := by
  have hrun : run isSpace (blank ++ text) = blank.length := by
    rw [run_append h, run_eq_zero_of_skipped_eq_none hfirm]
    rfl
  obtain ⟨length, hlength⟩ : ∃ length, blank.length = length + 1 :=
    ⟨blank.length - 1, by have := List.length_pos_iff.mpr hblank; omega⟩
  simp [skipped, firstOf, spaces, hrun, hlength]

/-- A class of lexemes that do not start with a space. -/
def Solid (taken : Lexeme) : Prop :=
  ∀ c rest, isSpace c = true → taken (c :: rest) = none

end Lexeme

namespace Place.Faces

variable {place : Place} {lead : Nat} {text : List Char}

/-- A text faces itself, if nothing can be skipped in front of it. -/
theorem of_firm (h : Lexeme.skipped text = none) : (of text).Faces 0 text :=
  ⟨⟨[], rfl, by simp, shows_of text⟩, h⟩

theorem of_spaces {blank : List Char} (hblank : ∀ c ∈ blank, Lexeme.isSpace c = true)
    (h : Lexeme.skipped text = none) : (of (blank ++ text)).Faces blank.length text :=
  ⟨⟨blank, rfl, hblank, shows_of _⟩, h⟩

/-- A text behind one space. -/
theorem of_space (h : Lexeme.skipped text = none) : (of (' ' :: text)).Faces 1 text :=
  @of_spaces text [' '] (by simp [Lexeme.isSpace]) h

theorem of_shows (shows_ : place.Shows text) (h : Lexeme.skipped text = none) :
    place.Faces 0 text :=
  ⟨⟨[], rfl, by simp, shows_⟩, h⟩

/-- Another place that shows the same text faces the same. -/
theorem transfer {shown : List Char} (faces : (of shown).Faces lead text) {other : Place}
    (shows_ : other.Shows shown) : other.Faces lead text := by
  obtain ⟨⟨blank, hlength, hblank, hshows⟩, hfirm⟩ := faces
  have heq : shown = blank ++ text := by rw [← text_of shown, hshows.text_eq]
  subst heq
  exact ⟨⟨blank, hlength, hblank, shows_⟩, hfirm⟩

theorem gaps (faces : place.Faces lead text) :
    place.gaps = if lead = 0 then [0] else [0, lead] := by
  obtain ⟨⟨blank, rfl, hblank, hshows⟩, hfirm⟩ := faces
  rw [hshows.gaps_eq]
  cases blank with
  | nil => exact gaps_of_firm hfirm
  | cons c rest =>
      have hskipped := Lexeme.skipped_spaces hblank (by simp) hfirm
      rw [List.length_cons] at hskipped
      rw [gaps_of_skipped hskipped]
      have hdrop : List.drop (rest.length + 1) (c :: rest ++ text) = text := by simp
      simp [gaps_of_firm hfirm]

theorem length_eq (faces : place.Faces lead text) : place.length = lead + text.length := by
  obtain ⟨⟨blank, rfl, _, hshows⟩, _⟩ := faces
  rw [hshows.length_eq, List.length_append]

/-- The place behind some characters of the text. -/
theorem advance (faces : place.Faces lead text) {count : Nat} (h : 0 < lead + count) :
    place.advance (lead + count) = of (text.drop count) := by
  obtain ⟨⟨blank, rfl, _, hshows⟩, _⟩ := faces
  rw [hshows.advance h, List.drop_append, List.drop_eq_nil_of_le (by omega)]
  simp

theorem advance_text (faces : place.Faces lead text) :
    (place.advance lead).text = text := by
  obtain ⟨⟨blank, rfl, _, hshows⟩, _⟩ := faces
  rw [hshows.advance_text]
  simp

end Place.Faces

namespace Reader

open Place

theorem lexeme_eq_mergeAll (taken : Lexeme) (place : Place) :
    lexeme taken place = Outcome.mergeAll Outcome.none place.gaps (lexemeBehind taken place) := rfl

theorem mem_lexemeBehind {taken : Lexeme} {place : Place} {gap : Nat} {reading : Reading Slice} :
    reading ∈ (lexemeBehind taken place gap).readings ↔
      ∃ length, taken (place.advance gap).text = some length ∧
        reading = ⟨⟨(place.advance gap).text, length⟩, gap, gap + length, 0⟩ := by
  cases htaken : taken (place.advance gap).text with
  | none => simp [lexemeBehind, htaken]
  | some length => simp [lexemeBehind, htaken]

/-- A lexeme is read behind one of the gaps of the place. -/
theorem exists_of_reads_lexeme {taken : Lexeme} {place : Place} {reading : Reading Slice}
    (h : Reads (lexeme taken) place reading) :
    ∃ gap ∈ place.gaps, ∃ length, taken (place.advance gap).text = some length ∧
      reading = ⟨⟨(place.advance gap).text, length⟩, gap, gap + length, 0⟩ := by
  rw [Reads, lexeme_eq_mergeAll] at h
  rcases Outcome.mem_of_mem_mergeAll h with hnone | ⟨gap, hgap, hfound⟩
  · cases hnone
  · exact ⟨gap, hgap, mem_lexemeBehind.mp hfound⟩

/-- A lexeme is read in the same ways from all places that show a text. -/
theorem lexeme_eq_of_shows (taken : Lexeme) {place place' : Place} {text : List Char}
    (hshows : place.Shows text) (hshows' : place'.Shows text) :
    lexeme taken place = lexeme taken place' := by
  have hbehind : lexemeBehind taken place = lexemeBehind taken place' := by
    funext gap
    simp only [lexemeBehind, hshows.advance_text, hshows'.advance_text]
  rw [lexeme_eq_mergeAll, lexeme_eq_mergeAll, hshows.gaps_eq, hshows'.gaps_eq, hbehind]

theorem sign_eq_of_shows (spelling : String) {place place' : Place} {text : List Char}
    (hshows : place.Shows text) (hshows' : place'.Shows text) :
    sign spelling place = sign spelling place' := by
  change andThen (lexeme (Lexeme.sign spelling)) (fun _ => nothing ()) place =
    andThen (lexeme (Lexeme.sign spelling)) (fun _ => nothing ()) place'
  rw [andThen, andThen, lexeme_eq_of_shows _ hshows hshows']
  rfl

section Faces

variable {taken : Lexeme} {place : Place} {lead : Nat} {text : List Char}

/-- From a place that faces a text, a lexeme is read at the start of the text or not at all. -/
theorem exists_of_reads_lexeme_of_faces (faces : place.Faces lead text) (solid : taken.Solid)
    {reading : Reading Slice} (h : Reads (lexeme taken) place reading) :
    ∃ length, taken text = some length ∧ reading = ⟨⟨text, length⟩, lead, lead + length, 0⟩ := by
  obtain ⟨gap, hgap, length, hlength, rfl⟩ := exists_of_reads_lexeme h
  have hlead : gap = lead ∨ gap = 0 ∧ 0 < lead := by
    rw [faces.gaps] at hgap
    split at hgap
    · simp_all
    · simp only [List.mem_cons, List.not_mem_nil, or_false] at hgap
      omega
  rcases hlead with rfl | ⟨rfl, hpositive⟩
  · rw [faces.advance_text] at hlength ⊢
    exact ⟨length, hlength, rfl⟩
  · obtain ⟨⟨blank, rfl, hblank, hshows⟩, _⟩ := faces
    obtain ⟨c, rest, rfl⟩ := List.exists_cons_of_length_pos hpositive
    rw [advance_zero, hshows.text_eq, List.cons_append,
      solid c _ (hblank c (List.mem_cons_self ..))] at hlength
    cases hlength

theorem fails_lexeme (faces : place.Faces lead text) (solid : taken.Solid)
    (h : taken text = none) : Fails (lexeme taken) place := by
  intro reading hreading
  obtain ⟨length, hlength, _⟩ := exists_of_reads_lexeme_of_faces faces solid hreading
  rw [h] at hlength
  cases hlength

theorem settles_lexeme (faces : place.Faces lead text) (solid : taken.Solid) {length : Nat}
    (h : taken text = some length) :
    Settles free (lexeme taken) place (lead + length) (· = ⟨text, length⟩) where
  alive := id
  reaches := by
    have hgap : lead ∈ place.gaps := by
      rw [faces.gaps]
      split <;> simp_all
    have hmem : (⟨⟨text, length⟩, lead, lead + length, 0⟩ : Reading Slice) ∈
        (lexemeBehind taken place lead).readings := by
      rw [mem_lexemeBehind, faces.advance_text]
      exact ⟨length, h, rfl⟩
    obtain ⟨reading, hreading, hused, _⟩ := Outcome.reaches_mergeAll hgap hmem
    exact ⟨reading, hreading, hused⟩
  only reading hreading := by
    obtain ⟨other, hother, rfl⟩ := exists_of_reads_lexeme_of_faces faces solid hreading
    rw [h] at hother
    cases hother
    exact Or.inl ⟨rfl, fun _ => rfl, rfl⟩

end Faces

end Reader

end EditableMarkup.Grammar
