import EditableMarkup.Proofs.Source.Reports

/-!
# The markup that is found

Forms are nested, and a path of positions leads to each of them.  The search
for markup goes through them in pre-order.  It finds markup if there is any, and
what it finds lies in no other markup: nothing on the way to the place where the
search stops is markup, and neither is anything between a function and the
markup that it returns.
-/

namespace EditableMarkup.Grammar

/-! ## Parts and positions -/

/-- The forms that a member of an object is made of. -/
def Member.parts : Member Form → List Form
  | .property key value => key.inside ++ [value]
  | .other inside => inside

/-- The forms that an attribute is made of. -/
def Attribute.parts : Attribute Form → List Form
  | .bare _ => []
  | .named _ setting => Rule.settingInside setting
  | .spaced inside => inside
  | .spread value => [value]

/-- The forms that a child is made of. -/
def Child.parts : Child Form → List Form
  | .text _ | .emptyBraces => []
  | .markup value | .braces value | .spread value => [value]

namespace Form

/-- The forms that a form is made of, from left to right. -/
def parts : Form → List Form
  | .plain _ inside => inside
  | .string _ | .number _ | .boolean _ | .returnedNothing _ => []
  | .signed _ _ operand => [operand]
  | .group _ inner => [inner]
  | .object _ members => members.flatMap Member.parts
  | .function _ head body => head ++ [body]
  | .block _ statements => statements
  | .returned _ value => [value]
  | .element _ _ attributes children _ =>
    attributes.flatMap Attribute.parts ++ children.flatMap Child.parts
  | .selfClosed _ _ attributes => attributes.flatMap Attribute.parts
  | .fragment _ children => children.flatMap Child.parts

/-- The form to which a path of positions leads from a form. -/
def at? (form : Form) : List Nat → Option Form
  | [] => some form
  | position :: path =>
    match form.parts[position]? with
    | some part => part.at? path
    | none => none

/-- Functions are told from all other forms. -/
def isFunction : Form → Bool
  | .function .. => true
  | _ => false

/-- Returns are told from all other statements, with or without a value. -/
def isReturn : Form → Bool
  | .returned .. | .returnedNothing _ => true
  | _ => false

/-! ## Induction on parts -/

theorem sizeOf_lt_of_mem_member {part : Form} {member : Member Form} (h : part ∈ member.parts) :
    sizeOf part < sizeOf member := by
  cases member with
  | other inside =>
      have hpart : sizeOf part < sizeOf inside := List.sizeOf_lt_of_mem h
      simp only [Member.other.sizeOf_spec]
      omega
  | property key value =>
      rcases List.mem_append.mp h with hkey | hvalue
      · cases key with
        | computed form =>
            obtain rfl := List.mem_singleton.mp hkey
            simp only [Member.property.sizeOf_spec, Key.computed.sizeOf_spec]
            omega
        | word _ | quoted _ | number _ => cases hkey
      · obtain rfl := List.mem_singleton.mp hvalue
        simp only [Member.property.sizeOf_spec]
        omega

theorem sizeOf_lt_of_mem_attribute {part : Form} {item : Attribute Form} (h : part ∈ item.parts) :
    sizeOf part < sizeOf item := by
  cases item with
  | bare _ => cases h
  | named name setting =>
      cases setting with
      | quoted _ | emptyBraces _ => cases h
      | braces value =>
          obtain rfl := List.mem_singleton.mp h
          simp only [Attribute.named.sizeOf_spec, Setting.braces.sizeOf_spec]
          omega
      | markup value =>
          obtain rfl := List.mem_singleton.mp h
          simp only [Attribute.named.sizeOf_spec, Setting.markup.sizeOf_spec]
          omega
  | spaced inside =>
      have hpart : sizeOf part < sizeOf inside := List.sizeOf_lt_of_mem h
      simp only [Attribute.spaced.sizeOf_spec]
      omega
  | spread value =>
      obtain rfl := List.mem_singleton.mp h
      simp only [Attribute.spread.sizeOf_spec]
      omega

theorem sizeOf_lt_of_mem_child {part : Form} {child : Child Form} (h : part ∈ child.parts) :
    sizeOf part < sizeOf child := by
  cases child with
  | text _ | emptyBraces => cases h
  | markup value | braces value | spread value =>
      obtain rfl := List.mem_singleton.mp h
      simp

/-- The parts of the elements of a list are smaller than the list. -/
theorem sizeOf_lt_of_mem_flatMap {α : Type} [SizeOf α] {parts : α → List Form}
    (hparts : ∀ {part item}, part ∈ parts item → sizeOf part < sizeOf item) {part : Form}
    {items : List α} (h : part ∈ items.flatMap parts) : sizeOf part < sizeOf items := by
  obtain ⟨item, hitem, hpart⟩ := List.mem_flatMap.mp h
  exact (hparts hpart).trans (List.sizeOf_lt_of_mem hitem)

theorem sizeOf_lt_of_mem_parts {form part : Form} (h : part ∈ form.parts) :
    sizeOf part < sizeOf form := by
  cases form with
  | string _ | number _ | boolean _ | returnedNothing _ => cases h
  | plain slice inside =>
      have hpart : sizeOf part < sizeOf inside := List.sizeOf_lt_of_mem h
      simp only [plain.sizeOf_spec]
      omega
  | block slice statements =>
      have hpart : sizeOf part < sizeOf statements := List.sizeOf_lt_of_mem h
      simp only [block.sizeOf_spec]
      omega
  | signed slice sign operand =>
      obtain rfl := List.mem_singleton.mp h
      simp only [signed.sizeOf_spec]
      omega
  | group slice inner =>
      obtain rfl := List.mem_singleton.mp h
      simp only [group.sizeOf_spec]
      omega
  | returned slice value =>
      obtain rfl := List.mem_singleton.mp h
      simp only [returned.sizeOf_spec]
      omega
  | object slice members =>
      have hpart := sizeOf_lt_of_mem_flatMap sizeOf_lt_of_mem_member h
      simp only [object.sizeOf_spec]
      omega
  | function slice head body =>
      simp only [function.sizeOf_spec]
      rcases List.mem_append.mp h with hhead | hbody
      · have hpart := List.sizeOf_lt_of_mem hhead
        omega
      · obtain rfl := List.mem_singleton.mp hbody
        omega
  | element slice name attributes children closing =>
      simp only [element.sizeOf_spec]
      rcases List.mem_append.mp h with hattribute | hchild
      · have hpart := sizeOf_lt_of_mem_flatMap sizeOf_lt_of_mem_attribute hattribute
        omega
      · have hpart := sizeOf_lt_of_mem_flatMap sizeOf_lt_of_mem_child hchild
        omega
  | selfClosed slice name attributes =>
      have hpart := sizeOf_lt_of_mem_flatMap sizeOf_lt_of_mem_attribute h
      simp only [selfClosed.sizeOf_spec]
      omega
  | fragment slice children =>
      have hpart := sizeOf_lt_of_mem_flatMap sizeOf_lt_of_mem_child h
      simp only [fragment.sizeOf_spec]
      omega

/-- What holds of a form as soon as it holds of its parts holds of every form. -/
@[elab_as_elim]
theorem induction {motive : Form → Prop}
    (step : ∀ form : Form, (∀ part ∈ form.parts, motive part) → motive form) (form : Form) :
    motive form :=
  step form fun part _ => induction step part
termination_by sizeOf form
decreasing_by
  rename_i hpart
  exact sizeOf_lt_of_mem_parts hpart

/-! ## Ways that pass no markup -/

/-- A path leads from a form to another one, and no form in front of its end is markup. -/
structure Exposes (form : Form) (path : List Nat) (found : Form) : Prop where
  leads : form.at? path = some found
  outside : ∀ shorter outer, shorter <+: path → shorter ≠ path → form.at? shorter = some outer →
    outer.isMarkup = false

theorem Exposes.self (form : Form) : form.Exposes [] form where
  leads := rfl
  outside _ _ hshorter hproper _ := absurd (List.prefix_nil.mp hshorter) hproper

/-- What is exposed by a part is exposed by the form, if the form is no markup. -/
theorem Exposes.part {form part found : Form} (hform : form.isMarkup = false) {position : Nat}
    (hpart : form.parts[position]? = some part) {path : List Nat} (h : part.Exposes path found) :
    form.Exposes (position :: path) found where
  leads := by
    rw [at?, hpart]
    exact h.leads
  outside shorter outer hshorter hproper houter := by
    rcases shorter with _ | ⟨first, shorter⟩
    · cases houter
      exact hform
    · obtain ⟨rfl, hbehind⟩ := List.cons_prefix_cons.mp hshorter
      rw [at?, hpart] at houter
      exact h.outside shorter outer hbehind (fun heq => hproper (heq ▸ rfl)) houter

/-- Parentheses hide nothing. -/
theorem exists_exposes_of_unwrapped {form found : Form} {path : List Nat}
    (h : form.unwrapped.Exposes path found) : ∃ path, form.Exposes path found := by
  induction form using induction with
  | step form ih =>
      cases form with
      | group slice inner =>
          obtain ⟨path, hpath⟩ := ih inner (List.mem_singleton_self inner) h
          exact ⟨0 :: path, hpath.part rfl rfl⟩
      | _ => exact ⟨path, h⟩

end Form

end EditableMarkup.Grammar

namespace EditableMarkup.Source

open EditableMarkup.Grammar

/-- The form to which a path of positions leads from the top level of a source. -/
def formAt? (forms : List Form) : List Nat → Option Form
  | [] => none
  | position :: path => forms[position]?.bind fun form => form.at? path

/-- A path leads to markup that lies in no other markup. -/
structure Outermost (forms : List Form) (path : List Nat) (form : Form) : Prop where
  leads : formAt? forms path = some form
  isMarkup : form.isMarkup = true
  outside : ∀ shorter outer, shorter <+: path → shorter ≠ path →
    formAt? forms shorter = some outer → outer.isMarkup = false

/-! ## Pre-order -/

/-- The form that occurs, if it is one. -/
def Occurrence.form? : Occurrence → Option Form
  | .form found => some found
  | .emptySetting _ => none

/-- Forms with all that is nested in them, in pre-order. -/
def preorder (forms : List Form) : List Form :=
  (occurrencesIn forms).filterMap Occurrence.form?

theorem mem_preorder_iff {forms : List Form} {form : Form} :
    form ∈ preorder forms ↔ .form form ∈ occurrencesIn forms := by
  rw [preorder, List.mem_filterMap]
  constructor
  · rintro ⟨occurrence, hmem, hform⟩
    cases occurrence with
    | form found =>
        cases hform
        exact hmem
    | emptySetting slice => cases hform
  · intro hmem
    exact ⟨_, hmem, rfl⟩

@[simp]
theorem preorder_nil : preorder [] = [] := rfl

theorem occurrencesIn_append (forms others : List Form) :
    occurrencesIn (forms ++ others) = occurrencesIn forms ++ occurrencesIn others := by
  induction forms with
  | nil => rfl
  | cons form rest ih => rw [List.cons_append, occurrencesIn, occurrencesIn, ih, List.append_assoc]

@[simp]
theorem preorder_append (forms others : List Form) :
    preorder (forms ++ others) = preorder forms ++ preorder others := by
  rw [preorder, occurrencesIn_append, List.filterMap_append]
  rfl

theorem filterMap_occurrences (form : Form) :
    (occurrences form).filterMap Occurrence.form? = preorder [form] := by
  rw [preorder, occurrencesIn, occurrencesIn, List.append_nil]

theorem filterMap_occurrencesInMembers (members : List (Member Form)) :
    (occurrencesInMembers members).filterMap Occurrence.form? =
      preorder (members.flatMap Member.parts) := by
  induction members with
  | nil => rfl
  | cons member rest ih =>
      rw [List.flatMap_cons, preorder_append, ← ih]
      cases member with
      | other inside => rw [occurrencesInMembers, List.filterMap_append, Member.parts, preorder]
      | property key value =>
          cases key with
          | computed form =>
              have hparts : (Member.property (.computed form) value).parts = [form] ++ [value] := rfl
              rw [hparts, occurrencesInMembers, List.filterMap_append, List.filterMap_append,
                filterMap_occurrences, filterMap_occurrences, preorder_append]
          | word _ | quoted _ | number _ =>
              simp [occurrencesInMembers, Member.parts, Key.inside, filterMap_occurrences]

theorem filterMap_occurrencesInAttributes (attributes : List (Attribute Form)) :
    (occurrencesInAttributes attributes).filterMap Occurrence.form? =
      preorder (attributes.flatMap Attribute.parts) := by
  induction attributes with
  | nil => rfl
  | cons item rest ih =>
      rw [List.flatMap_cons, preorder_append, ← ih]
      cases item with
      | bare name => rfl
      | named name setting =>
          cases setting with
          | quoted _ | emptyBraces _ => rfl
          | braces value | markup value =>
              simp [occurrencesInAttributes, Attribute.parts, Rule.settingInside,
                filterMap_occurrences]
      | spaced inside => rw [occurrencesInAttributes, List.filterMap_append, Attribute.parts, preorder]
      | spread value =>
          rw [occurrencesInAttributes, List.filterMap_append, Attribute.parts, filterMap_occurrences]

theorem filterMap_occurrencesInChildren (children : List (Child Form)) :
    (occurrencesInChildren children).filterMap Occurrence.form? =
      preorder (children.flatMap Child.parts) := by
  induction children with
  | nil => rfl
  | cons child rest ih =>
      rw [List.flatMap_cons, preorder_append, ← ih]
      cases child <;> simp [occurrencesInChildren, Child.parts, filterMap_occurrences]

/-- A form comes before its parts, and its parts from left to right. -/
theorem preorder_singleton (form : Form) : preorder [form] = form :: preorder form.parts := by
  have hparts : ∀ found, occurrences form = .form form :: found →
      found.filterMap Occurrence.form? = preorder form.parts →
        preorder [form] = form :: preorder form.parts := by
    intro found hform hfound
    rw [← filterMap_occurrences, hform, ← hfound]
    rfl
  cases form with
  | string _ | number _ | boolean _ | returnedNothing _ => exact hparts [] (by rw [occurrences]) rfl
  | plain slice inside | block slice inside =>
      exact hparts (occurrencesIn inside) (by rw [occurrences]) rfl
  | signed _ _ inner | group _ inner | returned _ inner =>
      exact hparts _ (by rw [occurrences]) (filterMap_occurrences inner)
  | object slice members =>
      exact hparts _ (by rw [occurrences]) (filterMap_occurrencesInMembers members)
  | function slice head body =>
      refine hparts _ (by rw [occurrences]) ?_
      rw [List.filterMap_append, filterMap_occurrences, Form.parts, preorder_append]
      rfl
  | element slice name attributes children closing =>
      refine hparts _ (by rw [occurrences]) ?_
      rw [List.filterMap_append, filterMap_occurrencesInAttributes, filterMap_occurrencesInChildren,
        Form.parts, preorder_append]
  | selfClosed slice name attributes =>
      exact hparts _ (by rw [occurrences]) (filterMap_occurrencesInAttributes attributes)
  | fragment slice children =>
      exact hparts _ (by rw [occurrences]) (filterMap_occurrencesInChildren children)

theorem preorder_eq_flatMap (forms : List Form) :
    preorder forms = forms.flatMap fun form => preorder [form] := by
  induction forms with
  | nil => rfl
  | cons form rest ih => rw [List.flatMap_cons, ← ih, ← preorder_append, List.singleton_append]

/-- Exactly the forms to which a path leads come up. -/
theorem mem_preorder_iff_exists_at? {form found : Form} :
    found ∈ preorder [form] ↔ ∃ path, form.at? path = some found := by
  induction form using Form.induction with
  | step form ih =>
      rw [preorder_singleton, List.mem_cons, preorder_eq_flatMap, List.mem_flatMap]
      constructor
      · rintro (rfl | ⟨part, hpart, hfound⟩)
        · exact ⟨[], rfl⟩
        · obtain ⟨path, hpath⟩ := (ih part hpart).mp hfound
          obtain ⟨position, hposition⟩ := List.mem_iff_getElem?.mp hpart
          refine ⟨position :: path, ?_⟩
          rw [Form.at?, hposition]
          exact hpath
      · rintro ⟨path, hpath⟩
        cases path with
        | nil =>
            cases hpath
            exact .inl rfl
        | cons position path =>
            rw [Form.at?] at hpath
            split at hpath
            · next part hpart =>
                have hmem := List.mem_of_getElem? hpart
                exact .inr ⟨part, hmem, (ih part hmem).mpr ⟨path, hpath⟩⟩
            · cases hpath

theorem mem_preorder_iff_exists_formAt? {forms : List Form} {form : Form} :
    form ∈ preorder forms ↔ ∃ path, formAt? forms path = some form := by
  rw [preorder_eq_flatMap, List.mem_flatMap]
  constructor
  · rintro ⟨first, hfirst, hform⟩
    obtain ⟨path, hpath⟩ := mem_preorder_iff_exists_at?.mp hform
    obtain ⟨position, hposition⟩ := List.mem_iff_getElem?.mp hfirst
    exact ⟨position :: path, by rw [formAt?, hposition, Option.bind_some, hpath]⟩
  · rintro ⟨path, hpath⟩
    cases path with
    | nil => cases hpath
    | cons position path =>
        obtain ⟨first, hfirst, hform⟩ := Option.bind_eq_some_iff.mp hpath
        exact ⟨first, List.mem_of_getElem? hfirst, mem_preorder_iff_exists_at?.mpr ⟨path, hform⟩⟩

/-! ## The search -/

/-- The markup that a form stands for. -/
def standsFor? (form : Form) : Option Form :=
  Occurrence.markup? (.form form)

theorem standsFor?_of_isMarkup {form : Form} (h : form.isMarkup = true) :
    standsFor? form = some form := by
  cases form with
  | element | selfClosed | fragment => rfl
  | _ => cases h

theorem standsFor?_of_other {form : Form} (hfunction : form.isFunction = false)
    (hmarkup : form.isMarkup = false) : standsFor? form = none := by
  cases form with
  | function => cases hfunction
  | element | selfClosed | fragment => cases hmarkup
  | _ => rfl

/-- The search goes through the forms in pre-order. -/
theorem findMarkup_eq (forms : List Form) : findMarkup forms = (preorder forms).findSome? standsFor? := by
  rw [findMarkup, preorder, ← List.head?_filterMap, ← List.head?_filterMap, List.filterMap_filterMap]
  congr 2
  funext occurrence
  cases occurrence with
  | form found => rfl
  | emptySetting slice => rfl

theorem isMarkup_eq_false_of_standsFor? {form : Form} (h : standsFor? form = none) :
    form.isMarkup = false := by
  by_contra hmarkup
  rw [Bool.not_eq_false] at hmarkup
  rw [standsFor?_of_isMarkup hmarkup] at h
  cases h

/-- Nothing is found exactly if no path leads to markup. -/
theorem findMarkup_eq_none_iff {forms : List Form} :
    findMarkup forms = none ↔
      ∀ path form, formAt? forms path = some form → form.isMarkup = false := by
  rw [findMarkup_eq]
  constructor
  · intro h path form hpath
    have hmem := mem_preorder_iff_exists_formAt?.mpr ⟨path, hpath⟩
    exact isMarkup_eq_false_of_standsFor? (List.findSome?_eq_none_iff.mp h form hmem)
  · intro h
    cases hfound : (preorder forms).findSome? standsFor? with
    | none => rfl
    | some found =>
        rw [← findMarkup_eq] at hfound
        obtain ⟨hmem, hmarkup⟩ := mem_of_findMarkup hfound
        obtain ⟨path, hpath⟩ := mem_preorder_iff_exists_formAt?.mp (mem_preorder_iff.mpr hmem)
        rw [h path found hpath] at hmarkup
        cases hmarkup

/-! ## What a function returns -/

/-- A form is returned by a function with a body: it is the body, or the value of the first return of
its block, without the parentheses around it. -/
inductive ReturnsForm (form : Form) (body : Form) : Prop where
  | body (h : body.unwrapped = form)
  | block (slice returned : Slice) (front : List Form) (value : Form) (rest : List Form)
    (hblock : body.unwrapped = .block slice (front ++ .returned returned value :: rest))
    (hfront : ∀ statement ∈ front, statement.isReturn = false) (hvalue : value.unwrapped = form)

theorem firstReturn_append {front : List Form}
    (h : ∀ statement ∈ front, statement.isReturn = false) (rest : List Form) :
    firstReturn (front ++ rest) = firstReturn rest := by
  induction front with
  | nil => rfl
  | cons statement front ih =>
      obtain ⟨hstatement, hfront⟩ := List.forall_mem_cons.mp h
      cases statement with
      | returned | returnedNothing => cases hstatement
      | _ => exact ih hfront

/-- The first return stands behind statements that are no returns. -/
theorem exists_of_firstReturn {statements : List Form} {value : Form}
    (h : firstReturn statements = some value) : ∃ front returned rest,
      statements = front ++ .returned returned value :: rest ∧
        ∀ statement ∈ front, statement.isReturn = false := by
  induction statements with
  | nil => cases h
  | cons statement rest ih =>
      cases statement with
      | returned slice found =>
          cases h
          exact ⟨[], slice, rest, rfl, nofun⟩
      | returnedNothing => cases h
      | _ =>
          obtain ⟨front, returned, behind, rfl, hfront⟩ := ih h
          exact ⟨_ :: front, returned, behind, rfl, List.forall_mem_cons.mpr ⟨rfl, hfront⟩⟩

theorem markupOf_eq_some_iff {form found : Form} :
    markupOf form = some found ↔ form.unwrapped = found ∧ found.isMarkup = true := by
  unfold markupOf
  split
  · next hmarkup =>
      refine ⟨fun h => ?_, fun h => congrArg some h.1⟩
      cases h
      exact ⟨rfl, hmarkup⟩
  · next hother =>
      refine iff_of_false nofun ?_
      rintro ⟨rfl, hmarkup⟩
      exact hother hmarkup

/-- The markup of a function is the markup that it returns. -/
theorem returnedMarkup_eq_some_iff {body found : Form} :
    returnedMarkup body = some found ↔ ReturnsForm found body ∧ found.isMarkup = true := by
  unfold returnedMarkup
  split
  · next slice statements hbody =>
      rw [Option.bind_eq_some_iff]
      constructor
      · rintro ⟨value, hvalue, hfound⟩
        obtain ⟨front, returned, rest, rfl, hfront⟩ := exists_of_firstReturn hvalue
        obtain ⟨hunwrapped, hmarkup⟩ := markupOf_eq_some_iff.mp hfound
        exact ⟨.block slice returned front value rest hbody hfront hunwrapped, hmarkup⟩
      · rintro ⟨hreturns, hmarkup⟩
        cases hreturns with
        | body hsame =>
            rw [← hsame, hbody] at hmarkup
            cases hmarkup
        | block _ returned front value rest hblock hfront hvalue =>
            cases hbody.symm.trans hblock
            refine ⟨value, ?_, markupOf_eq_some_iff.mpr ⟨hvalue, hmarkup⟩⟩
            rw [firstReturn_append hfront]
            rfl
  · next hother =>
      rw [markupOf_eq_some_iff]
      refine and_congr_left fun _ => ⟨.body, fun hreturns => ?_⟩
      cases hreturns with
      | body hsame => exact hsame
      | block slice returned front value rest hblock _ _ => exact absurd hblock (hother _ _)

/-! ## What is found is outermost -/

/-- Nothing between a function and what it returns is markup. -/
theorem ReturnsForm.exists_exposes {form body : Form} (h : ReturnsForm form body) :
    ∃ path, body.Exposes path form := by
  cases h with
  | body hsame =>
      obtain rfl := hsame
      exact Form.exists_exposes_of_unwrapped (.self body.unwrapped)
  | block slice returned front value rest hblock hfront hvalue =>
      obtain rfl := hvalue
      obtain ⟨path, hpath⟩ := Form.exists_exposes_of_unwrapped (.self value.unwrapped)
      have hreturned : (Form.returned returned value).Exposes (0 :: path) value.unwrapped :=
        hpath.part rfl rfl
      have hblocked : body.unwrapped.Exposes (front.length :: 0 :: path) value.unwrapped := by
        rw [hblock]
        exact hreturned.part rfl (by simp [Form.parts])
      exact Form.exists_exposes_of_unwrapped hblocked

/-- What is found among forms is found in one of them. -/
theorem exists_of_findSome?_preorder {forms : List Form} {found : Form}
    (h : (preorder forms).findSome? standsFor? = some found) :
    ∃ (position : Nat) (form : Form), forms[position]? = some form ∧
      (preorder [form]).findSome? standsFor? = some found := by
  induction forms with
  | nil => cases h
  | cons form rest ih =>
      rw [← List.singleton_append, preorder_append, List.findSome?_append] at h
      rcases Option.or_eq_some_iff.mp h with hfirst | ⟨_, hrest⟩
      · exact ⟨0, form, rfl, hfirst⟩
      · obtain ⟨position, later, hposition, hlater⟩ := ih hrest
        exact ⟨position + 1, later, hposition, hlater⟩

/-- No form on the way to what is found in a form is markup. -/
theorem exists_exposes_of_findSome? {form found : Form}
    (h : (preorder [form]).findSome? standsFor? = some found) :
    ∃ path, form.Exposes path found := by
  induction form using Form.induction with
  | step form ih =>
      rw [preorder_singleton, List.findSome?_cons] at h
      split at h
      · next first hfirst =>
          cases h
          cases form with
          | function slice head body =>
              obtain ⟨path, hpath⟩ := (returnedMarkup_eq_some_iff.mp hfirst).1.exists_exposes
              exact ⟨head.length :: path, hpath.part rfl (by simp [Form.parts])⟩
          | element | selfClosed | fragment =>
              cases hfirst
              exact ⟨[], .self _⟩
          | _ => cases hfirst
      · next hnone =>
          obtain ⟨position, part, hposition, hpart⟩ := exists_of_findSome?_preorder h
          obtain ⟨path, hpath⟩ := ih part (List.mem_of_getElem? hposition) hpart
          exact ⟨position :: path,
            hpath.part (isMarkup_eq_false_of_standsFor? hnone) hposition⟩

theorem exists_outermost_of_findMarkup {forms : List Form} {found : Form}
    (h : findMarkup forms = some found) : ∃ path, Outermost forms path found := by
  have hmarkup := (mem_of_findMarkup h).2
  rw [findMarkup_eq] at h
  obtain ⟨position, form, hposition, hform⟩ := exists_of_findSome?_preorder h
  obtain ⟨path, hpath⟩ := exists_exposes_of_findSome? hform
  refine ⟨position :: path, ?_, hmarkup, fun shorter outer hshorter hproper houter => ?_⟩
  · rw [formAt?, hposition, Option.bind_some]
    exact hpath.leads
  · rcases shorter with _ | ⟨first, shorter⟩
    · cases houter
    · obtain ⟨rfl, hbehind⟩ := List.cons_prefix_cons.mp hshorter
      rw [formAt?, hposition, Option.bind_some] at houter
      exact hpath.outside shorter outer hbehind (fun heq => hproper (heq ▸ rfl)) houter

/-! ## What a function returns is found -/

/-- If a function comes before all other functions and all markup, then the markup that it returns is
found. -/
theorem findMarkup_of_returns {forms : List Form} {slice : Slice} {head : List Form}
    {body found : Form}
    (hfirst : (preorder forms).find? (fun form => form.isFunction || form.isMarkup) =
      some (.function slice head body))
    (hreturns : ReturnsForm found body) (hmarkup : found.isMarkup = true) :
    findMarkup forms = some found := by
  obtain ⟨_, before, behind, hsplit, hbefore⟩ := List.find?_eq_some_iff_append.mp hfirst
  have hnone : before.findSome? standsFor? = none := by
    refine List.findSome?_eq_none_iff.mpr fun form hform => ?_
    have hother := hbefore form hform
    rw [Bool.not_eq_true', Bool.or_eq_false_iff] at hother
    exact standsFor?_of_other hother.1 hother.2
  have hreturned : standsFor? (.function slice head body) = some found :=
    returnedMarkup_eq_some_iff.mpr ⟨hreturns, hmarkup⟩
  rw [findMarkup_eq, hsplit, List.findSome?_append, hnone, Option.none_or, List.findSome?_cons,
    hreturned]

/-- The search finds markup exactly if there is any, and what it finds lies in no other markup.  If a
function comes before all other functions and all markup, then the markup that it returns is found,
whatever markup there is in its parameters and in its statements.  The tree of a module is the tree of
what is found, and where nothing is found it is reported that there is no markup. -/
theorem findMarkup_outermost (forms : List Form) :
    (findMarkup forms = none ↔
        ∀ path form, formAt? forms path = some form → form.isMarkup = false) ∧
      (∀ found, findMarkup forms = some found → ∃ path, Outermost forms path found) ∧
      (∀ slice head body found,
        (preorder forms).find? (fun form => form.isFunction || form.isMarkup) =
            some (.function slice head body) →
          ReturnsForm found body → found.isMarkup = true → findMarkup forms = some found) ∧
      ∀ source, readWhole Rule.module (Place.of source) = .ok forms → ∀ levels supply,
        (treeOf levels forms supply = .error (.diagnostic .noMarkup) ↔ findMarkup forms = none) ∧
          ∀ found, findMarkup forms = some found →
            treeOf levels forms supply = nodeOf levels supply found := by
  refine ⟨findMarkup_eq_none_iff, fun _ => exists_outermost_of_findMarkup,
    fun _ _ _ _ => findMarkup_of_returns, fun source hread levels supply => ⟨?_, ?_⟩⟩
  · have sound : FormsSound ⟨source, 0⟩ forms := Rule.gives_module.readWhole hread
    exact treeOf_eq_noMarkup_iff sound levels supply
  · intro found hfound
    rw [treeOf, hfound]

/-- A function with markup as a default value and in a statement, which returns a fragment. -/
def returningFunction (slice : Slice) : Form :=
  .function slice [.selfClosed slice (.simple slice) []]
    (.block slice [.plain slice [.selfClosed slice (.simple slice) []],
      .returned slice (.group slice (.fragment slice []))])

/-- The returned fragment is found, although other markup comes before it. -/
theorem findMarkup_returningFunction :
    let slice : Slice := ⟨[], 0⟩
    findMarkup [returningFunction slice] = some (.fragment slice []) ∧
      ∃ path, Outermost [returningFunction slice] path (.fragment slice []) := by
  intro slice
  obtain ⟨_, houtermost, hreturned, _⟩ := findMarkup_outermost [returningFunction slice]
  have hreturns : ReturnsForm (.fragment slice [])
      (.block slice [.plain slice [.selfClosed slice (.simple slice) []],
        .returned slice (.group slice (.fragment slice []))]) :=
    .block slice slice [.plain slice [.selfClosed slice (.simple slice) []]]
      (.group slice (.fragment slice [])) [] rfl (List.forall_mem_singleton.mpr rfl) rfl
  have hfound := hreturned slice _ _ _ rfl hreturns rfl
  exact ⟨hfound, houtermost _ hfound⟩

end EditableMarkup.Source
