import EditableMarkup.Source.Search

/-!
# What occurs in a source

Whatever occurs in a form that occurs in a source occurs in the source itself.
So does the markup that the source is about, which is an element or a fragment.
-/

namespace EditableMarkup.Source

open EditableMarkup.Grammar

/-! ## Forms inside of forms -/

/-- What occurs in a form that occurs occurs as well. -/
def Covered (found : List Occurrence) : Prop :=
  ∀ form, .form form ∈ found → occurrences form ⊆ found

namespace Covered

variable {found others : List Occurrence}

theorem nil : Covered [] :=
  fun _ h => absurd h List.not_mem_nil

theorem append (h : Covered found) (h' : Covered others) : Covered (found ++ others) := by
  intro form hform
  rcases List.mem_append.mp hform with hform | hform
  · exact List.Subset.trans (h form hform) (List.subset_append_left ..)
  · exact List.Subset.trans (h' form hform) (List.subset_append_right ..)

theorem emptySetting (h : Covered found) (slice : Slice) : Covered (.emptySetting slice :: found) := by
  intro form hform
  rcases List.mem_cons.mp hform with heq | hform
  · cases heq
  · exact List.Subset.trans (h form hform) (List.subset_cons_self ..)

/-- A form with what occurs inside of it. -/
theorem form {form : Form} (heq : occurrences form = .form form :: found) (h : Covered found) :
    Covered (occurrences form) := by
  intro inner hinner
  rw [heq] at hinner ⊢
  rcases List.mem_cons.mp hinner with hself | hinner
  · cases hself
    rw [heq]
    exact List.Subset.refl _
  · exact List.Subset.trans (h inner hinner) (List.subset_cons_self ..)

end Covered

mutual

theorem covered_occurrences : ∀ form, Covered (occurrences form)
  | .plain _ inside => .form (by rw [occurrences]) (covered_occurrencesIn inside)
  | .string _ => .form (by rw [occurrences]) .nil
  | .number _ => .form (by rw [occurrences]) .nil
  | .boolean _ => .form (by rw [occurrences]) .nil
  | .signed _ _ operand => .form (by rw [occurrences]) (covered_occurrences operand)
  | .group _ inner => .form (by rw [occurrences]) (covered_occurrences inner)
  | .object _ members => .form (by rw [occurrences]) (covered_occurrencesInMembers members)
  | .function _ head body =>
    .form (by rw [occurrences]) ((covered_occurrencesIn head).append (covered_occurrences body))
  | .block _ statements => .form (by rw [occurrences]) (covered_occurrencesIn statements)
  | .returned _ value => .form (by rw [occurrences]) (covered_occurrences value)
  | .returnedNothing _ => .form (by rw [occurrences]) .nil
  | .element _ _ attributes children _ =>
    .form (by rw [occurrences])
      ((covered_occurrencesInAttributes attributes).append (covered_occurrencesInChildren children))
  | .selfClosed _ _ attributes =>
    .form (by rw [occurrences]) (covered_occurrencesInAttributes attributes)
  | .fragment _ children => .form (by rw [occurrences]) (covered_occurrencesInChildren children)

theorem covered_occurrencesIn : ∀ forms, Covered (occurrencesIn forms)
  | [] => .nil
  | form :: rest => (covered_occurrences form).append (covered_occurrencesIn rest)

theorem covered_occurrencesInMembers : ∀ members, Covered (occurrencesInMembers members)
  | [] => .nil
  | .property (.computed key) value :: rest =>
    ((covered_occurrences key).append (covered_occurrences value)).append
      (covered_occurrencesInMembers rest)
  | .property (.word _) value :: rest =>
    (covered_occurrences value).append (covered_occurrencesInMembers rest)
  | .property (.quoted _) value :: rest =>
    (covered_occurrences value).append (covered_occurrencesInMembers rest)
  | .property (.number _) value :: rest =>
    (covered_occurrences value).append (covered_occurrencesInMembers rest)
  | .other inside :: rest =>
    (covered_occurrencesIn inside).append (covered_occurrencesInMembers rest)

theorem covered_occurrencesInAttributes : ∀ attributes, Covered (occurrencesInAttributes attributes)
  | [] => .nil
  | .bare _ :: rest => covered_occurrencesInAttributes rest
  | .named _ (.quoted _) :: rest => covered_occurrencesInAttributes rest
  | .named _ (.braces value) :: rest =>
    (covered_occurrences value).append (covered_occurrencesInAttributes rest)
  | .named _ (.emptyBraces slice) :: rest =>
    (covered_occurrencesInAttributes rest).emptySetting slice
  | .named _ (.markup value) :: rest =>
    (covered_occurrences value).append (covered_occurrencesInAttributes rest)
  | .spaced inside :: rest =>
    (covered_occurrencesIn inside).append (covered_occurrencesInAttributes rest)
  | .spread value :: rest =>
    (covered_occurrences value).append (covered_occurrencesInAttributes rest)

theorem covered_occurrencesInChildren : ∀ children, Covered (occurrencesInChildren children)
  | [] => .nil
  | .text _ :: rest => covered_occurrencesInChildren rest
  | .markup value :: rest => (covered_occurrences value).append (covered_occurrencesInChildren rest)
  | .braces value :: rest => (covered_occurrences value).append (covered_occurrencesInChildren rest)
  | .emptyBraces :: rest => covered_occurrencesInChildren rest
  | .spread value :: rest => (covered_occurrences value).append (covered_occurrencesInChildren rest)

end

theorem mem_occurrences_self (form : Form) : .form form ∈ occurrences form := by
  cases form <;> simp [occurrences]

/-! ## The markup that is found -/

theorem mem_occurrences_unwrapped (form : Form) : .form form.unwrapped ∈ occurrences form := by
  fun_induction Form.unwrapped form with
  | case1 slice inner ih =>
      rw [occurrences]
      exact List.mem_cons_of_mem _ ih
  | case2 form => exact mem_occurrences_self form

theorem mem_of_firstReturn {statements : List Form} {value : Form}
    (h : firstReturn statements = some value) : .form value ∈ occurrencesIn statements := by
  induction statements with
  | nil => cases h
  | cons statement rest ih =>
      rw [occurrencesIn]
      cases statement with
      | returned slice found =>
          cases h
          rw [occurrences]
          simp [mem_occurrences_self]
      | returnedNothing => cases h
      | _ => exact List.mem_append_right _ (ih h)

theorem mem_of_markupOf {form found : Form} (h : markupOf form = some found) :
    .form found ∈ occurrences form ∧ found.isMarkup = true := by
  unfold markupOf at h
  split at h
  next hmarkup =>
    cases h
    exact ⟨mem_occurrences_unwrapped form, hmarkup⟩
  next => cases h

theorem mem_of_returnedMarkup {body found : Form} (h : returnedMarkup body = some found) :
    .form found ∈ occurrences body ∧ found.isMarkup = true := by
  unfold returnedMarkup at h
  split at h
  next slice statements hblock =>
    obtain ⟨value, hvalue, hmarkup⟩ := Option.bind_eq_some_iff.mp h
    obtain ⟨hfound, hkind⟩ := mem_of_markupOf hmarkup
    have hinside : .form (.block slice statements) ∈ occurrences body :=
      hblock ▸ mem_occurrences_unwrapped body
    have hstatement : .form value ∈ occurrences (.block slice statements) := by
      rw [occurrences]
      exact List.mem_cons_of_mem _ (mem_of_firstReturn hvalue)
    have hvalueInside := covered_occurrences body _ hinside hstatement
    exact ⟨covered_occurrences body _ hvalueInside hfound, hkind⟩
  next => exact mem_of_markupOf h

/-- The markup that a source is about is an element or a fragment that occurs in it. -/
theorem mem_of_findMarkup {forms : List Form} {form : Form} (h : findMarkup forms = some form) :
    .form form ∈ occurrencesIn forms ∧ form.isMarkup = true := by
  obtain ⟨occurrence, hmem, hmarkup⟩ := List.exists_of_findSome?_eq_some h
  cases occurrence with
  | emptySetting => cases hmarkup
  | form found =>
      cases found with
      | function slice head body =>
          obtain ⟨hfound, hkind⟩ := mem_of_returnedMarkup hmarkup
          have hbody : .form form ∈ occurrences (.function slice head body) := by
            rw [occurrences]
            simp [hfound]
          exact ⟨covered_occurrencesIn forms _ hmem hbody, hkind⟩
      | element | selfClosed | fragment =>
          cases hmarkup
          exact ⟨hmem, rfl⟩
      | _ => cases hmarkup

end EditableMarkup.Source
