import EditableMarkup.Proofs.Literal.Quoted
import EditableMarkup.Proofs.Tree.Printable
import EditableMarkup.Source.Convert
import EditableMarkup.Source.Search

/-!
# Forms that stand for values

A form stands for a printed value if it means what the value is read back as
and obeys the rules on markup.
-/

namespace EditableMarkup.Source

open EditableMarkup.Grammar

/-- Nothing that occurs in a form violates the rules on markup, in whatever source. -/
def Tidy (form : Form) : Prop :=
  ∀ occurrence ∈ occurrences form, ∀ source, violation? source occurrence = none

/-- A form means a value. It is no group, so as a child it stands for itself. -/
structure Means (form : Form) (value : Value) : Prop where
  value_eq : valueOf form = .ok value
  unwrapped_eq : form.unwrapped = form
  text_eq : ∀ source, value = .expression source → form.text = source
  tidy : Tidy form

theorem Slice.text_of_append (front rest : List Char) :
    (Slice.mk (front ++ rest) front.length).text = String.ofList front := by
  rw [Slice.text, Slice.chars, List.take_left]

theorem tidy_singleton {form : Form} (h : occurrences form = [.form form])
    (hclosing : ∀ source, violation? source (.form form) = none) : Tidy form := by
  intro occurrence hoccurrence source
  rw [h, List.mem_singleton] at hoccurrence
  rw [hoccurrence]
  exact hclosing source

theorem occurrencesIn_eq_flatMap (forms : List Form) :
    occurrencesIn forms = forms.flatMap occurrences := by
  induction forms with
  | nil => rfl
  | cons form forms ih => rw [occurrencesIn, ih, List.flatMap_cons]

/-- A plain form is tidy, if all forms inside are. -/
theorem tidy_plain {slice : Slice} {inside : List Form} (h : ∀ form ∈ inside, Tidy form) :
    Tidy (.plain slice inside) := by
  intro occurrence hoccurrence
  rw [occurrences, occurrencesIn_eq_flatMap, List.mem_cons, List.mem_flatMap] at hoccurrence
  rcases hoccurrence with rfl | ⟨form, hform, hoccurrence⟩
  · exact fun _ => rfl
  · exact h form hform occurrence hoccurrence

/-! ## Literals -/

section Literal

variable {front rest : List Char}

theorem means_string {text : String} (h : front = Literal.quotedChars text.toList) :
    Means (.string ⟨front ++ rest, front.length⟩) (.string text) where
  value_eq := by
    have hquoted : String.ofList front = Literal.quoted text := by rw [h, Literal.quoted]
    rw [valueOf, Slice.text_of_append, hquoted, Literal.unquoted_quoted]
    rfl
  unwrapped_eq := rfl
  text_eq _ h := nomatch h
  tidy := tidy_singleton rfl fun _ => rfl

theorem means_boolean {value : Bool} (h : front = (if value then "true" else "false").toList) :
    Means (.boolean ⟨front ++ rest, front.length⟩) (.boolean value) where
  value_eq := by
    rw [valueOf, Slice.text_of_append, h, String.ofList_toList]
    cases value with
    | false => rfl
    | true => rfl
  unwrapped_eq := rfl
  text_eq _ h := nomatch h
  tidy := tidy_singleton rfl fun _ => rfl

theorem numberOf?_of_isLiteralOf {negative : Bool} {number : Number}
    (h : IsLiteralOf front number) :
    numberOf? negative ⟨front ++ rest, front.length⟩ =
      .ok (some (if negative then number.negate else number)) := by
  rw [numberOf?, Slice.text_of_append, h.meaning]
  rfl

theorem means_number {number : Number} (h : IsLiteralOf front number) :
    Means (.number ⟨front ++ rest, front.length⟩) (.number number) where
  value_eq := by
    rw [valueOf, numberOf?_of_isLiteralOf h]
    rfl
  unwrapped_eq := rfl
  text_eq _ h := nomatch h
  tidy := tidy_singleton rfl fun _ => rfl

theorem means_signed {slice : Slice} {source : List Char} {number : Number}
    (h : IsLiteralOf front number) :
    Means (.signed slice ⟨'-' :: source, 1⟩ (.number ⟨front ++ rest, front.length⟩))
      (.number number.negate) where
  value_eq := by
    have hsign : (Slice.mk ('-' :: source) 1).text == "-" := by
      have htext : (Slice.mk ('-' :: source) 1).text = String.ofList ['-'] := rfl
      rw [htext]
      rfl
    rw [valueOf, hsign, numberOf?_of_isLiteralOf h]
    rfl
  unwrapped_eq := rfl
  text_eq _ h := nomatch h
  tidy := by
    intro occurrence hoccurrence source
    simp only [occurrences, List.mem_cons, List.not_mem_nil, or_false] at hoccurrence
    rcases hoccurrence with rfl | rfl
    · rfl
    · rfl

end Literal

end EditableMarkup.Source
