import EditableMarkup.Text.Blank
import Mathlib.Data.List.TakeWhile

/-!
# Trimming

Trimming cuts blanks only, and it leaves alone a text whose ends are not
blank.
-/

namespace EditableMarkup.Text

theorem dropWhile_isBlank_append {front : List Char} (h : ∀ c ∈ front, isBlank c = true)
    (rest : List Char) : (front ++ rest).dropWhile isBlank = rest.dropWhile isBlank := by
  induction front with
  | nil => rfl
  | cons c front ih =>
      have hc := h c (List.mem_cons_self ..)
      rw [List.cons_append, List.dropWhile_cons_of_pos hc]
      exact ih fun d hd => h d (List.mem_cons_of_mem _ hd)

theorem dropWhile_isBlank_eq_self {text : List Char} (h : text.head?.any isBlank = false) :
    text.dropWhile isBlank = text := by
  cases text with
  | nil => rfl
  | cons c rest =>
      have hc : isBlank c = false := h
      rw [List.dropWhile_cons_of_neg (by simp [hc])]

/-- Trimming cuts the blanks around a text whose ends are not blank. -/
theorem trim_append {front text behind : List Char} (hfront : ∀ c ∈ front, isBlank c = true)
    (hbehind : ∀ c ∈ behind, isBlank c = true) (hhead : text.head?.any isBlank = false)
    (hlast : text.getLast?.any isBlank = false) : trim (front ++ text ++ behind) = text := by
  have hreverse : ∀ c ∈ behind.reverse, isBlank c = true := by
    intro c hc
    exact hbehind c (List.mem_reverse.mp hc)
  cases text with
  | nil =>
      have hblank : ∀ c ∈ front ++ [] ++ behind, isBlank c = true := by
        intro c hc
        simp only [List.append_nil, List.mem_append] at hc
        rcases hc with hc | hc
        · exact hfront c hc
        · exact hbehind c hc
      have hnone := dropWhile_isBlank_append hblank []
      rw [List.append_nil] at hnone
      rw [trim, hnone]
      rfl
  | cons c text =>
      have hhead' : (c :: text ++ behind).head?.any isBlank = false := hhead
      have hlast' : (c :: text).reverse.head?.any isBlank = false := by
        rwa [List.head?_reverse]
      rw [trim, List.append_assoc, dropWhile_isBlank_append hfront,
        dropWhile_isBlank_eq_self hhead', List.reverse_append,
        dropWhile_isBlank_append hreverse, dropWhile_isBlank_eq_self hlast', List.reverse_reverse]

theorem trim_eq_self {text : List Char} (hhead : text.head?.any isBlank = false)
    (hlast : text.getLast?.any isBlank = false) : trim text = text := by
  have h := @trim_append [] text [] (by simp) (by simp) hhead hlast
  rwa [List.nil_append, List.append_nil] at h

theorem trim_eq_self_of_forall {text : List Char} (h : ∀ c ∈ text, isBlank c = false) :
    trim text = text := by
  apply trim_eq_self
  · cases text with
    | nil => rfl
    | cons c rest => exact h c (List.mem_cons_self ..)
  · cases hlast : text.getLast? with
    | none => rfl
    | some c => exact h c (List.mem_of_getLast? hlast)

/-- Where leading blanks are cut, no blank comes first. -/
theorem head?_dropWhile_isBlank (text : List Char) :
    (text.dropWhile isBlank).head?.any isBlank = false := by
  cases hrest : text.dropWhile isBlank with
  | nil => rfl
  | cons c rest =>
      have hhead := List.head?_dropWhile_not isBlank text
      rw [hrest] at hhead
      simpa using hhead

/-- Behind leading blanks stands the trimmed part of a text, and then more blanks. -/
theorem exists_dropWhile_isBlank (text : List Char) :
    ∃ behind, text.dropWhile isBlank = trim text ++ behind ∧ ∀ c ∈ behind, isBlank c = true := by
  refine ⟨((text.dropWhile isBlank).reverse.takeWhile isBlank).reverse, ?_, fun c hc => ?_⟩
  · have hbehind := congrArg List.reverse
      (List.takeWhile_append_dropWhile (p := isBlank) (l := (text.dropWhile isBlank).reverse))
    rw [List.reverse_append, List.reverse_reverse] at hbehind
    rw [trim, hbehind]
  · exact List.mem_takeWhile_imp (List.mem_reverse.mp hc)

/-- A text is its trimmed part between blanks. -/
theorem exists_trim (text : List Char) :
    ∃ front behind, text = front ++ trim text ++ behind ∧ (∀ c ∈ front, isBlank c = true) ∧
      ∀ c ∈ behind, isBlank c = true := by
  obtain ⟨behind, hsplit, hbehind⟩ := exists_dropWhile_isBlank text
  refine ⟨text.takeWhile isBlank, behind, ?_, fun c hc => List.mem_takeWhile_imp hc, hbehind⟩
  rw [List.append_assoc, ← hsplit, List.takeWhile_append_dropWhile]

theorem getLast?_trim (text : List Char) : (trim text).getLast?.any isBlank = false := by
  rw [trim, List.getLast?_reverse]
  exact head?_dropWhile_isBlank _

theorem head?_trim (text : List Char) : (trim text).head?.any isBlank = false := by
  obtain ⟨behind, hbehind⟩ : trim text <+: text.dropWhile isBlank := by
    rw [trim, ← List.reverse_suffix, List.reverse_reverse]
    exact List.dropWhile_suffix _
  have hhead := head?_dropWhile_isBlank text
  rw [← hbehind] at hhead
  cases htrim : trim text with
  | nil => rfl
  | cons c rest =>
      rw [htrim] at hhead
      exact hhead

/-- Trimming leaves nothing of the blank texts, and of no others. -/
theorem trimmed_eq_empty_iff {text : String} : trimmed text = "" ↔ isBlankText text = true := by
  have hnil : trimmed text = "" ↔ trim text.toList = [] := by
    rw [trimmed, ← String.toList_inj, String.toList_ofList]
    rfl
  rw [hnil, trim, List.reverse_eq_nil_iff, List.dropWhile_eq_nil_iff, isBlankText, List.all_eq_true]
  constructor
  · intro h
    -- what is left of the front would start with a character that is not blank
    have hfront : text.toList.dropWhile isBlank = [] := by
      cases hrest : text.toList.dropWhile isBlank with
      | nil => rfl
      | cons c rest =>
          have hblank : isBlank c = true := h c (by rw [hrest]; simp)
          have hhead := head?_dropWhile_isBlank text.toList
          rw [hrest] at hhead
          simp [hblank] at hhead
    exact fun c hc => List.dropWhile_eq_nil_iff.mp hfront c hc
  · intro h c hc
    rw [List.mem_reverse, List.dropWhile_eq_nil_iff.mpr h] at hc
    cases hc

/-- What is left of a text is blank only if the text is. -/
theorem isBlankText_trimmed (text : String) : isBlankText (trimmed text) = isBlankText text := by
  have htwice : trimmed (trimmed text) = trimmed text := by
    rw [trimmed, trimmed, String.toList_ofList, trim_eq_self (head?_trim _) (getLast?_trim _)]
  rw [Bool.eq_iff_iff, ← trimmed_eq_empty_iff, htwice, trimmed_eq_empty_iff]

end EditableMarkup.Text
