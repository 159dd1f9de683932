import EditableMarkup.Proofs.Reading.Place
import EditableMarkup.Proofs.Text.Tight
import EditableMarkup.Source.Search

/-!
# Sound forms

A form is lexed with respect to a source if the literals, names and texts that
belong to the form itself are slices of the source that their classes of
lexemes take there, and its closing tag, if it has one, stands in the source.
It is cut from a part of the source if its slice lies there and is tight.  A
form is sound if all forms that occur in it are lexed and cut.  Every construct
is sound exactly if it is cut and its parts are sound.
-/

namespace EditableMarkup.Grammar

open EditableMarkup.Source

/-! ## Slices that lexemes take -/

/-- A slice starts in a source and is what a class of lexemes takes there. -/
def Takes (source : List Char) (taken : Lexeme) (slice : Slice) : Prop :=
  slice.source <:+ source ∧ taken slice.source = some slice.length

/-- A closing tag with this name stands in a source: behind an angle bracket and a slash, between
which some characters may be skipped, the name is read. -/
def ElementName.Closes (source : List Char) (name : ElementName) : Prop :=
  ∃ before gap skipped reading,
    source = before ++ '<' :: (gap ++ '/' :: (skipped ++ name.first.source)) ∧
      gap.length ∈ (Place.of (gap ++ '/' :: (skipped ++ name.first.source))).gaps ∧
      Reader.Reads Rule.elementName (Place.of (skipped ++ name.first.source)) reading ∧
      reading.lead = skipped.length ∧ reading.value = name

section Lexed

variable {α : Type} (source : List Char)

/-- The words of a name are words of markup. -/
def ElementName.Lexed : ElementName → Prop
  | simple word => Takes source Lexeme.markupName word
  | path first rest =>
    Takes source Lexeme.markupName first ∧ ∀ word ∈ rest, Takes source Lexeme.markupName word
  | spaced space word => Takes source Lexeme.markupName space ∧ Takes source Lexeme.markupName word

/-- A key that is not computed is a lexeme. -/
def Key.Lexed : Key α → Prop
  | word slice => Takes source Lexeme.anyName slice
  | quoted slice => Takes source Lexeme.string slice
  | number slice => Takes source Lexeme.number slice
  | computed _ => True

/-- The key of a property is a lexeme. -/
def Member.Lexed : Member α → Prop
  | property key _ => key.Lexed source
  | other _ => True

/-- A setting in quotes is a string of markup. -/
def Setting.Lexed : Setting α → Prop
  | quoted slice => Takes source Lexeme.markupString slice
  | _ => True

/-- The name of an attribute and its setting in quotes are lexemes. -/
def Attribute.Lexed : Attribute α → Prop
  | bare name => Takes source Lexeme.markupName name
  | named name setting => Takes source Lexeme.markupName name ∧ setting.Lexed source
  | _ => True

/-- A text among children is a lexeme, and markup among them is an element or a fragment. -/
def Child.Lexed : Child Form → Prop
  | text slice => Takes source Lexeme.markupText slice
  | markup form => form.isMarkup = true
  | _ => True

/-- Literals, names and texts that belong to a form itself are lexemes. -/
def Form.Lexed : Form → Prop
  | string slice => Takes source Lexeme.string slice
  | number slice => Takes source Lexeme.number slice
  | boolean slice => Takes source Lexeme.boolean slice
  | signed _ sign _ => sign.chars = ['-'] ∨ sign.chars = ['+']
  | object _ members => ∀ member ∈ members, member.Lexed source
  | element _ name attributes children closing =>
    name.Lexed source ∧ (∀ item ∈ attributes, item.Lexed source) ∧
      (∀ child ∈ children, child.Lexed source) ∧ closing.Closes source
  | selfClosed _ name attributes =>
    name.Lexed source ∧ ∀ item ∈ attributes, item.Lexed source
  | fragment _ children => ∀ child ∈ children, child.Lexed source
  | _ => True

/-- A form that occurs is lexed. -/
def AllLexed (occurrences : List Occurrence) : Prop :=
  ∀ form, .form form ∈ occurrences → form.Lexed source

end Lexed

/-! ## Slices of a part of a source -/

/-- A part of a source: all of it but some last characters. -/
structure Window where
  source : List Char
  left : Nat

/-- A slice is cut from a part of a source: it lies there, it is tight, and neither the slash of a
comment nor the dots of a spread open it. -/
structure Slice.CutFrom (window : Window) (slice : Slice) : Prop where
  suffix : slice.source <:+ window.source
  length_le : slice.length + window.left ≤ slice.source.length
  tight : Text.Tight slice.chars
  noSlash : slice.source.head? ≠ some '/'
  noDots : ¬ ['.', '.', '.'] <+: slice.source

/-- A form is cut from a part of a source, and what belongs to itself is lexed. -/
structure Form.Fits (window : Window) (form : Form) : Prop where
  cut : form.slice.CutFrom window
  lexed : form.Lexed window.source

theorem Form.fits_iff {window : Window} {form : Form} :
    form.Fits window ↔ form.slice.CutFrom window ∧ form.Lexed window.source :=
  ⟨fun ⟨cut, lexed⟩ => ⟨cut, lexed⟩, fun ⟨cut, lexed⟩ => ⟨cut, lexed⟩⟩

/-- A form that occurs fits. -/
def AllSound (window : Window) (occurrences : List Occurrence) : Prop :=
  ∀ form, .form form ∈ occurrences → form.Fits window

section AllSound

variable {window : Window}

theorem AllSound.lexed {found : List Occurrence} (h : AllSound window found) :
    AllLexed window.source found :=
  fun form hform => (h form hform).lexed

@[simp]
theorem allSound_nil : AllSound window [] :=
  fun _ h => absurd h List.not_mem_nil

@[simp]
theorem allSound_append {front rest : List Occurrence} :
    AllSound window (front ++ rest) ↔ AllSound window front ∧ AllSound window rest := by
  simp only [AllSound, List.mem_append, or_imp, forall_and]

@[simp]
theorem allSound_form {form : Form} {rest : List Occurrence} :
    AllSound window (.form form :: rest) ↔
      form.slice.CutFrom window ∧ form.Lexed window.source ∧ AllSound window rest := by
  rw [← and_assoc, ← Form.fits_iff]
  simp [AllSound, or_imp, forall_and]

@[simp]
theorem allSound_emptySetting {slice : Slice} {rest : List Occurrence} :
    AllSound window (.emptySetting slice :: rest) ↔ AllSound window rest := by
  simp [AllSound]

end AllSound

/-! ## Soundness -/

section Sound

variable (window : Window)

/-- All that occurs in a form is lexed and cut. -/
def Form.Sound (form : Form) : Prop :=
  AllSound window (occurrences form)

/-- All that occurs in some forms is lexed and cut. -/
def FormsSound (forms : List Form) : Prop :=
  AllSound window (occurrencesIn forms)

/-- A key is lexed, and all that occurs in it is sound. -/
def Key.Sound (key : Key Form) : Prop :=
  key.Lexed window.source ∧ FormsSound window key.inside

/-- A setting is lexed, and all that occurs in it is sound. -/
def Setting.Sound (setting : Setting Form) : Prop :=
  setting.Lexed window.source ∧ FormsSound window (Rule.settingInside setting)

/-- A member is lexed, and all that occurs in it is sound. -/
def Member.Sound (member : Member Form) : Prop :=
  member.Lexed window.source ∧ AllSound window (occurrencesInMembers [member])

/-- An attribute is lexed, and all that occurs in it is sound. -/
def Attribute.Sound (item : Attribute Form) : Prop :=
  item.Lexed window.source ∧ AllSound window (occurrencesInAttributes [item])

/-- A child is lexed, and all that occurs in it is sound. -/
def Child.Sound (child : Child Form) : Prop :=
  child.Lexed window.source ∧ AllSound window (occurrencesInChildren [child])

end Sound

section FormsSound

variable {window : Window} {form : Form} {forms : List Form}

@[simp]
theorem formsSound_nil : FormsSound window [] :=
  allSound_nil

@[simp]
theorem formsSound_cons :
    FormsSound window (form :: forms) ↔ form.Sound window ∧ FormsSound window forms :=
  allSound_append

@[simp]
theorem formsSound_append {others : List Form} :
    FormsSound window (forms ++ others) ↔ FormsSound window forms ∧ FormsSound window others := by
  induction forms with
  | nil => simp
  | cons form forms ih => simp [ih, and_assoc]

@[simp]
theorem formsSound_flatten {groups : List (List Form)} :
    FormsSound window groups.flatten ↔ ∀ forms ∈ groups, FormsSound window forms := by
  induction groups with
  | nil => simp
  | cons forms groups ih => simp [ih]

theorem formsSound_iff : FormsSound window forms ↔ ∀ form ∈ forms, form.Sound window := by
  induction forms with
  | nil => simp
  | cons form forms ih => simp [ih]

theorem allSound_members {members : List (Member Form)} :
    AllSound window (occurrencesInMembers members) ↔
      ∀ member ∈ members, AllSound window (occurrencesInMembers [member]) := by
  induction members with
  | nil => simp [occurrencesInMembers]
  | cons member members ih =>
      rw [List.forall_mem_cons, ← ih]
      rcases member with ⟨_ | _ | _ | _, _⟩ | _ <;> simp [occurrencesInMembers, and_assoc]

theorem allSound_attributes {attributes : List (Attribute Form)} :
    AllSound window (occurrencesInAttributes attributes) ↔
      ∀ item ∈ attributes, AllSound window (occurrencesInAttributes [item]) := by
  induction attributes with
  | nil => simp [occurrencesInAttributes]
  | cons item attributes ih =>
      rw [List.forall_mem_cons, ← ih]
      rcases item with _ | ⟨_, _ | _ | _ | _⟩ | _ | _ <;> simp [occurrencesInAttributes]

theorem allSound_children {children : List (Child Form)} :
    AllSound window (occurrencesInChildren children) ↔
      ∀ child ∈ children, AllSound window (occurrencesInChildren [child]) := by
  induction children with
  | nil => simp [occurrencesInChildren]
  | cons child children ih =>
      rw [List.forall_mem_cons, ← ih]
      cases child <;> simp [occurrencesInChildren]

end FormsSound

/-! ### Forms from their parts -/

namespace Form

attribute [local simp] occurrences Form.Lexed Form.slice

variable {window : Window} {slice : Slice}

theorem sound_plain {inside : List Form} :
    (plain slice inside).Sound window ↔ slice.CutFrom window ∧ FormsSound window inside := by
  simp [Sound, FormsSound]

theorem sound_string : (string slice).Sound window ↔
    slice.CutFrom window ∧ Takes window.source Lexeme.string slice := by
  simp [Sound]

theorem sound_number : (number slice).Sound window ↔
    slice.CutFrom window ∧ Takes window.source Lexeme.number slice := by
  simp [Sound]

theorem sound_boolean : (boolean slice).Sound window ↔
    slice.CutFrom window ∧ Takes window.source Lexeme.boolean slice := by
  simp [Sound]

theorem sound_signed {sign : Slice} {operand : Form} :
    (signed slice sign operand).Sound window ↔ slice.CutFrom window ∧
      (sign.chars = ['-'] ∨ sign.chars = ['+']) ∧ operand.Sound window := by
  simp [Sound]

theorem sound_group {inner : Form} :
    (group slice inner).Sound window ↔ slice.CutFrom window ∧ inner.Sound window := by
  simp [Sound]

theorem sound_object {members : List (Member Form)} :
    (object slice members).Sound window ↔
      slice.CutFrom window ∧ ∀ member ∈ members, member.Sound window := by
  rw [Sound, occurrences, allSound_form, allSound_members]
  simp only [Lexed, Form.slice, Member.Sound, forall_and]

theorem sound_function {head : List Form} {body : Form} :
    (function slice head body).Sound window ↔
      slice.CutFrom window ∧ FormsSound window head ∧ body.Sound window := by
  simp [Sound, FormsSound]

theorem sound_block {statements : List Form} :
    (block slice statements).Sound window ↔
      slice.CutFrom window ∧ FormsSound window statements := by
  simp [Sound, FormsSound]

theorem sound_returned {value : Form} :
    (returned slice value).Sound window ↔ slice.CutFrom window ∧ value.Sound window := by
  simp [Sound]

theorem sound_returnedNothing :
    (returnedNothing slice).Sound window ↔ slice.CutFrom window := by
  simp [Sound]

theorem sound_element {name closing : ElementName} {attributes : List (Attribute Form)}
    {children : List (Child Form)} :
    (element slice name attributes children closing).Sound window ↔
      slice.CutFrom window ∧ name.Lexed window.source ∧
        (∀ item ∈ attributes, item.Sound window) ∧ (∀ child ∈ children, child.Sound window) ∧
        closing.Closes window.source := by
  rw [Sound, occurrences, allSound_form, allSound_append, allSound_attributes, allSound_children]
  simp only [Lexed, Form.slice, Attribute.Sound, Child.Sound, forall_and]
  constructor
  · rintro ⟨hcut, ⟨hname, hattributes, hchildren, hcloses⟩, hinAttributes, hinChildren⟩
    exact ⟨hcut, hname, ⟨hattributes, hinAttributes⟩, ⟨hchildren, hinChildren⟩, hcloses⟩
  · rintro ⟨hcut, hname, ⟨hattributes, hinAttributes⟩, ⟨hchildren, hinChildren⟩, hcloses⟩
    exact ⟨hcut, ⟨hname, hattributes, hchildren, hcloses⟩, hinAttributes, hinChildren⟩

theorem sound_selfClosed {name : ElementName} {attributes : List (Attribute Form)} :
    (selfClosed slice name attributes).Sound window ↔
      slice.CutFrom window ∧ name.Lexed window.source ∧
        ∀ item ∈ attributes, item.Sound window := by
  rw [Sound, occurrences, allSound_form, allSound_attributes]
  simp only [Lexed, Form.slice, Attribute.Sound, forall_and, and_assoc]

theorem sound_fragment {children : List (Child Form)} :
    (fragment slice children).Sound window ↔
      slice.CutFrom window ∧ ∀ child ∈ children, child.Sound window := by
  rw [Sound, occurrences, allSound_form, allSound_children]
  simp only [Lexed, Form.slice, Child.Sound, forall_and]

end Form

/-! ### Keys, settings, members, attributes and children from their parts -/

section Parts

attribute [local simp] Key.Lexed Key.inside Member.Lexed Setting.Lexed Rule.settingInside
  Attribute.Lexed Child.Lexed occurrencesInMembers occurrencesInAttributes occurrencesInChildren

variable {window : Window} {slice : Slice} {form : Form} {inside : List Form}

theorem Key.sound_word : (word slice : Key Form).Sound window ↔
    Takes window.source Lexeme.anyName slice := by
  simp [Sound]

theorem Key.sound_quoted : (quoted slice : Key Form).Sound window ↔
    Takes window.source Lexeme.string slice := by
  simp [Sound]

theorem Key.sound_number : (number slice : Key Form).Sound window ↔
    Takes window.source Lexeme.number slice := by
  simp [Sound]

theorem Key.sound_computed : (computed form).Sound window ↔ form.Sound window := by
  simp [Sound]

theorem Member.sound_property {key : Key Form} :
    (property key form).Sound window ↔ key.Sound window ∧ form.Sound window := by
  cases key <;> simp [Sound, Key.Sound, Form.Sound, FormsSound, occurrencesIn]

theorem Member.sound_other : (other inside).Sound window ↔ FormsSound window inside := by
  simp [Sound, FormsSound]

theorem Setting.sound_quoted : (quoted slice : Setting Form).Sound window ↔
    Takes window.source Lexeme.markupString slice := by
  simp [Sound]

theorem Setting.sound_braces : (braces form).Sound window ↔ form.Sound window := by
  simp [Sound]

theorem Setting.sound_emptyBraces : (emptyBraces slice : Setting Form).Sound window := by
  simp [Sound]

theorem Setting.sound_markup : (markup form).Sound window ↔ form.Sound window := by
  simp [Sound]

theorem Attribute.sound_bare : (bare slice : Attribute Form).Sound window ↔
    Takes window.source Lexeme.markupName slice := by
  simp [Sound]

theorem Attribute.sound_named {setting : Setting Form} :
    (named slice setting).Sound window ↔
      Takes window.source Lexeme.markupName slice ∧ setting.Sound window := by
  cases setting <;> simp [Sound, Setting.Sound, FormsSound, occurrencesIn]

theorem Attribute.sound_spaced : (spaced inside).Sound window ↔ FormsSound window inside := by
  simp [Sound, FormsSound]

theorem Attribute.sound_spread : (spread form).Sound window ↔ form.Sound window := by
  simp [Sound, Form.Sound]

theorem Child.sound_text : (text slice : Child Form).Sound window ↔
    Takes window.source Lexeme.markupText slice := by
  simp [Sound]

theorem Child.sound_markup :
    (markup form).Sound window ↔ form.isMarkup = true ∧ form.Sound window := by
  simp [Sound, Form.Sound]

theorem Child.sound_braces : (braces form).Sound window ↔ form.Sound window := by
  simp [Sound, Form.Sound]

theorem Child.sound_emptyBraces : (emptyBraces : Child Form).Sound window := by
  simp [Sound]

theorem Child.sound_spread : (spread form).Sound window ↔ form.Sound window := by
  simp [Sound, Form.Sound]

end Parts

end EditableMarkup.Grammar
