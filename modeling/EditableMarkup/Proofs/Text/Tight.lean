import EditableMarkup.Proofs.Text.Blank
import EditableMarkup.Proofs.Text.Digit
import EditableMarkup.Text.Word

/-!
# Tight texts

A text is tight if it is not empty and no blank stands at either end of it.  A
word is tight, since no word character is blank, and so is what trimming leaves.
-/

namespace EditableMarkup.Text

/-! ## Blanks and words -/

/-- Below U+0080 the classes of blanks and of word characters are written out, and beyond it no range of
word characters reaches a blank. -/
theorem not_isBlank_of_isWord {c : Char} (h : isWord c = true) : isBlank c = false := by
  by_cases hlow : c.toNat < 0x80
  · exact @holds_of_toNat_lt (fun c => isWord c = true → isBlank c = false) (by decide) c hlow h
  · have hapart : ∀ range ∈ wordRanges, 0x3000 < range.1 ∨
        0xA0 < range.1 ∧ (range.2 < 0x1680 ∨ 0x1680 < range.1) ∧
          (range.2 < 0x2000 ∨ 0x205F < range.1) ∧ range.2 < 0x3000 := by decide +kernel
    rw [isWord, if_neg hlow, inRanges, List.any_eq_true] at h
    obtain ⟨range, hrange, hinside⟩ := h
    rw [Bool.and_eq_true, decide_eq_true_eq, decide_eq_true_eq] at hinside
    have hsides := hapart range hrange
    rw [Bool.eq_false_iff]
    intro hblank
    simp only [isBlank, if_neg hlow, Bool.or_eq_true, Bool.and_eq_true, decide_eq_true_eq,
      beq_iff_eq] at hblank
    omega

/-! ## Tight texts -/

/-- A text is tight if it is not empty and neither starts nor ends with a blank. -/
structure Tight (text : List Char) : Prop where
  head : text.head?.any (fun c => !isBlank c) = true
  last : text.getLast?.any (fun c => !isBlank c) = true

instance (text : List Char) : Decidable (Tight text) :=
  decidable_of_iff _ ⟨fun ⟨head, last⟩ => ⟨head, last⟩, fun ⟨head, last⟩ => And.intro head last⟩

namespace Tight

variable {text front behind : List Char}

theorem ne_nil (tight : Tight text) : text ≠ [] := by
  rintro rfl
  cases tight.head

/-- Whatever stands between two tight texts, the whole is tight. -/
theorem append (hfront : Tight front) (between : List Char) (hbehind : Tight behind) :
    Tight (front ++ between ++ behind) where
  head := by
    obtain ⟨c, rest, rfl⟩ := List.exists_cons_of_ne_nil hfront.ne_nil
    exact hfront.head
  last := by
    have hlast := hbehind.last
    rw [List.getLast?_eq_some_getLast hbehind.ne_nil] at hlast
    rw [List.getLast?_append, List.getLast?_eq_some_getLast hbehind.ne_nil]
    exact hlast

theorem of_forall (hne : text ≠ []) (h : ∀ c ∈ text, isBlank c = false) : Tight text where
  head := by
    rw [List.head?_eq_some_head hne]
    simp [h _ (List.head_mem hne)]
  last := by
    rw [List.getLast?_eq_some_getLast hne]
    simp [h _ (List.getLast_mem hne)]

/-- A text between two equal marks. -/
theorem quoted {quote : Char} (h : isBlank quote = false) (body : List Char) :
    Tight (quote :: (body ++ [quote])) where
  head := by simp [h]
  last := by
    rw [← List.cons_append, List.getLast?_concat]
    simp [h]

theorem trim (h : Text.trim text ≠ []) : Tight (Text.trim text) where
  head := by
    have hhead := head?_trim text
    rw [List.head?_eq_some_head h] at hhead ⊢
    simpa using hhead
  last := by
    have hlast := getLast?_trim text
    rw [List.getLast?_eq_some_getLast h] at hlast ⊢
    simpa using hlast

end Tight

end EditableMarkup.Text
