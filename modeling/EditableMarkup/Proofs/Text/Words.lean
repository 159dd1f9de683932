import EditableMarkup.Text.Blank

/-!
# Words

A text consists of unbroken words with blanks around them, and at least one blank
stands between two of them.  There is one way to split a text like this, and it
gives the words of the text.  So words that are joined by spaces are the words of
the joined text again.
-/

namespace EditableMarkup.Text

/-- A word is unbroken if it is not empty and has no blanks. -/
structure Unbroken (word : List Char) : Prop where
  ne_nil : word ≠ []
  not_isBlank : ∀ c ∈ word, isBlank c = false

instance (word : List Char) : Decidable (Unbroken word) :=
  decidable_of_iff (word.isEmpty = false ∧ word.all (!isBlank ·) = true) <| by
    simp only [List.isEmpty_eq_false_iff, List.all_eq_true, Bool.not_eq_true']
    exact ⟨fun ⟨hne, hword⟩ => ⟨hne, hword⟩, fun ⟨hne, hword⟩ => ⟨hne, hword⟩⟩

/-- A text splits into words: besides them it has blanks only, and behind a word comes a blank or the
end. -/
inductive Splits : List Char → List (List Char) → Prop where
  | nil : Splits [] []
  | blank {c : Char} {text : List Char} {found : List (List Char)} (hblank : isBlank c = true)
      (hrest : Splits text found) : Splits (c :: text) found
  | word {word text : List Char} {found : List (List Char)} (hword : Unbroken word)
      (hstop : text.head?.all isBlank = true) (hrest : Splits text found) :
      Splits (word ++ text) (word :: found)

theorem Splits.unbroken {text : List Char} {found : List (List Char)} (h : Splits text found) :
    ∀ word ∈ found, Unbroken word := by
  induction h with
  | nil => exact List.forall_mem_nil _
  | blank _ _ ih => exact ih
  | word hword _ _ ih => exact List.forall_mem_cons.mpr ⟨hword, ih⟩

/-! ## The words of a text -/

section Steps

variable {c : Char} {run : List Char}

theorem words_of_blank (hblank : isBlank c = true) (text : List Char) :
    words (c :: text) = words text := by
  simp only [words, wordsFrom, hblank, if_true]

theorem wordsFrom_of_blank (hblank : isBlank c = true) (hne : run ≠ []) (text : List Char) :
    wordsFrom run (c :: text) = run.reverse :: words text := by
  obtain ⟨d, run, rfl⟩ := List.exists_cons_of_ne_nil hne
  simp only [words, wordsFrom, hblank, if_true]

theorem wordsFrom_of_not_blank (hc : isBlank c = false) (run text : List Char) :
    wordsFrom run (c :: text) = wordsFrom (c :: run) text := by
  cases run with
  | nil => simp only [wordsFrom, hc, Bool.false_eq_true, if_false]
  | cons d run => simp only [wordsFrom, hc, Bool.false_eq_true, if_false]

end Steps

theorem unbroken_reverse {run : List Char} (hne : run ≠ [])
    (hrun : ∀ c ∈ run, isBlank c = false) : Unbroken run.reverse where
  ne_nil := List.reverse_ne_nil_iff.mpr hne
  not_isBlank c hc := hrun c (List.mem_reverse.mp hc)

/-- The open run is the front of the first word. -/
theorem splits_wordsFrom {run : List Char} (hrun : ∀ c ∈ run, isBlank c = false)
    (text : List Char) : Splits (run.reverse ++ text) (wordsFrom run text) := by
  induction text generalizing run with
  | nil =>
      cases run with
      | nil => exact .nil
      | cons d run => exact .word (unbroken_reverse (List.cons_ne_nil d run) hrun) rfl .nil
  | cons c text ih =>
      cases hc : isBlank c with
      | false =>
          have hopen := ih (List.forall_mem_cons.mpr ⟨hc, hrun⟩)
          rwa [← wordsFrom_of_not_blank hc, List.reverse_cons, List.append_assoc,
            List.singleton_append] at hopen
      | true =>
          have hrest : Splits (c :: text) (words text) := .blank hc (ih (List.forall_mem_nil _))
          by_cases hne : run = []
          · rw [hne, ← words, words_of_blank hc]
            exact hrest
          · rw [wordsFrom_of_blank hc hne]
            exact .word (unbroken_reverse hne hrun) hc hrest

theorem wordsFrom_append {word : List Char} (h : ∀ c ∈ word, isBlank c = false)
    (run rest : List Char) : wordsFrom run (word ++ rest) = wordsFrom (word.reverse ++ run) rest := by
  induction word generalizing run with
  | nil => rfl
  | cons c word ih =>
      obtain ⟨hc, hword⟩ := List.forall_mem_cons.mp h
      rw [List.cons_append, wordsFrom_of_not_blank hc, ih hword, List.reverse_cons,
        List.append_assoc, List.singleton_append]

/-- A blank or the end closes the open run. -/
theorem wordsFrom_of_stop {run text : List Char} (hne : run ≠ [])
    (hstop : text.head?.all isBlank = true) : wordsFrom run text = run.reverse :: words text := by
  cases text with
  | nil =>
      obtain ⟨d, run, rfl⟩ := List.exists_cons_of_ne_nil hne
      rfl
  | cons c text =>
      have hblank : isBlank c = true := hstop
      rw [wordsFrom_of_blank hblank hne, words_of_blank hblank]

/-- A text is split in one way only. -/
theorem Splits.words_eq {text : List Char} {found : List (List Char)} (h : Splits text found) :
    words text = found := by
  induction h with
  | nil => rfl
  | blank hblank _ ih => rw [words_of_blank hblank, ih]
  | word hword hstop _ ih =>
      rw [words, wordsFrom_append hword.not_isBlank, List.append_nil,
        wordsFrom_of_stop (List.reverse_ne_nil_iff.mpr hword.ne_nil) hstop, List.reverse_reverse, ih]

/-- The words of a text are those that it splits into. -/
theorem words_eq_iff {text : List Char} {found : List (List Char)} :
    words text = found ↔ Splits text found :=
  ⟨fun h => h ▸ splits_wordsFrom (List.forall_mem_nil _) text, Splits.words_eq⟩

theorem unbroken_of_mem_words {text word : List Char} (h : word ∈ words text) : Unbroken word :=
  (words_eq_iff.mp rfl).unbroken word h

/-! ## Joined words -/

theorem splits_intercalate {found : List (List Char)} (h : ∀ word ∈ found, Unbroken word) :
    Splits ([' '].intercalate found) found := by
  induction found with
  | nil => exact .nil
  | cons word rest ih =>
      obtain ⟨hword, hrest⟩ := List.forall_mem_cons.mp h
      cases rest with
      | nil =>
          have hlast : Splits (word ++ []) [word] := .word hword rfl .nil
          rw [List.append_nil] at hlast
          rwa [List.intercalate_singleton]
      | cons next rest =>
          rw [List.intercalate_cons_cons, List.append_assoc]
          exact .word hword rfl (.blank rfl (ih hrest))

/-- Unbroken words that are joined by spaces are the words of the joined text. -/
theorem words_intercalate {found : List (List Char)} (h : ∀ word ∈ found, Unbroken word) :
    words ([' '].intercalate found) = found :=
  words_eq_iff.mpr (splits_intercalate h)

end EditableMarkup.Text
