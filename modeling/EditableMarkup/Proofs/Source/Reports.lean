import EditableMarkup.Proofs.Reading.SoundRows
import EditableMarkup.Proofs.Source.Faults
import EditableMarkup.Source.Parse

/-!
# Diagnostics of accepted forms

When forms have been accepted, two diagnostics are left.  Markup can be nested
too deeply, and there can be none.  A value has no diagnostic of its own, and
markup that was read is never reported to be missing, since the grammar reads
elements and fragments only where the children of markup are markup.
-/

namespace EditableMarkup.Source

open EditableMarkup.Grammar

/-! ## Reported diagnostics -/

/-- A result that fails with a diagnostic fails with an allowed one. -/
def Reports {α : Type} (allowed : Diagnostic → Prop) (result : Except Failure α) : Prop :=
  ∀ diagnostic, result = .error (.diagnostic diagnostic) → allowed diagnostic

variable {allowed : Diagnostic → Prop}

namespace Reports

variable {α β : Type}

theorem ok (value : α) : Reports allowed (.ok value) := by
  intro diagnostic h
  cases h

theorem literal (fault : LiteralFault) :
    Reports allowed (.error (.literal fault) : Except Failure α) := by
  intro diagnostic h
  cases h

theorem diagnostic {found : Diagnostic} (h : allowed found) :
    Reports allowed (.error (.diagnostic found) : Except Failure α) := by
  intro diagnostic herror
  cases herror
  exact h

theorem orFail (result : Except LiteralFault α) : Reports allowed (orFail result) := by
  cases result with
  | error fault => exact literal fault
  | ok value => exact ok value

theorem bind {result : Except Failure α} {next : α → Except Failure β} (h : Reports allowed result)
    (hnext : ∀ value, Reports allowed (next value)) : Reports allowed (result >>= next) := by
  intro diagnostic herror
  rcases cases_of_bind_eq_error herror with herror | ⟨value, _, herror⟩
  · exact h diagnostic herror
  · exact hnext value diagnostic herror

theorem levels (hdeep : allowed .tooDeep) {rest : Except Failure α} (levels : Nat)
    (h : Reports allowed rest) :
    Reports allowed (do
      if levels = 0 then .error (.diagnostic .tooDeep)
      rest) := by
  intro diagnostic herror
  split at herror
  · cases herror
    exact hdeep
  · exact h diagnostic herror

end Reports

theorem reports_numberOf? (negative : Bool) (literal : Slice) :
    Reports allowed (numberOf? negative literal) :=
  (Reports.orFail _).bind fun _ => .ok _

mutual

theorem reports_valueOf : ∀ form, Reports allowed (valueOf form)
  | .string slice => by
      rw [valueOf]
      exact (Reports.orFail _).bind fun _ => .ok _
  | .number slice => by
      rw [valueOf]
      refine (reports_numberOf? _ _).bind fun number => ?_
      cases number <;> exact .ok _
  | .boolean _ => by
      rw [valueOf]
      exact .ok _
  | .signed _ _ operand => by
      cases operand with
      | number literal =>
          rw [valueOf]
          refine (reports_numberOf? _ _).bind fun number => ?_
          cases number <;> exact .ok _
      | _ => exact .ok _
  | .group _ inner => by
      rw [valueOf]
      refine (reports_valueOf inner).bind fun value => ?_
      cases value <;> exact .ok _
  | .object _ members => by
      rw [valueOf]
      refine (reports_entriesOf [] members).bind fun entries => ?_
      cases entries <;> exact .ok _
  | .plain .. | .function .. | .block .. | .returned .. | .returnedNothing _ | .element ..
  | .selfClosed .. | .fragment .. => .ok _

theorem reports_entriesOf (entries : Entries Value) : ∀ members,
    Reports allowed (entriesOf entries members)
  | [] => .ok _
  | .property (.word key) value :: rest => by
      rw [entriesOf]
      exact (reports_valueOf value).bind fun _ => reports_entriesOf _ rest
  | .property (.quoted key) value :: rest => by
      rw [entriesOf]
      exact (Reports.orFail _).bind fun _ => (reports_valueOf value).bind fun _ =>
        reports_entriesOf _ rest
  | .property (.number _) _ :: _ | .property (.computed _) _ :: _ | .other _ :: _ => .ok _

end

theorem reports_settingOf (setting : Setting Form) : Reports allowed (settingOf setting) := by
  cases setting with
  | braces form => exact reports_valueOf form
  | quoted slice | emptyBraces slice | markup form => exact .ok _

theorem reports_attributesOf (entries : Entries Value) (attributes : List (Attribute Form)) :
    Reports allowed (attributesOf entries attributes) := by
  induction attributes generalizing entries with
  | nil => exact .ok _
  | cons item rest ih =>
      cases item with
      | named name setting => exact (reports_settingOf setting).bind fun _ => ih _
      | bare name | spaced inside | spread value => exact ih _

theorem reports_contentOf (form : Form) : Reports allowed (contentOf form) := by
  refine (reports_valueOf _).bind fun value => ?_
  cases value with
  | number number =>
      dsimp only
      split
      · exact .ok _
      · exact .literal _
  | string text | boolean value | mapping entries | expression text => exact .ok _

/-! ## Markup that is there -/

/-- Markup is there as the grammar reads it, unless it may be reported to be missing. -/
def Present (allowed : Diagnostic → Prop) (form : Form) : Prop :=
  allowed .noMarkup ∨ ∃ window, form.isMarkup = true ∧ form.Sound window

/-- Where children are markup, markup is there. -/
def AllPresent (allowed : Diagnostic → Prop) (children : List (Child Form)) : Prop :=
  ∀ form, .markup form ∈ children → Present allowed form

theorem allPresent_of_sound {window : Window} {children : List (Child Form)}
    (h : ∀ child ∈ children, child.Sound window) : AllPresent allowed children :=
  fun _ hform => .inr ⟨window, Child.sound_markup.mp (h _ hform)⟩

theorem Present.element {slice : Slice} {name closing : ElementName}
    {attributes : List (Attribute Form)} {children : List (Child Form)}
    (h : Present allowed (.element slice name attributes children closing)) :
    AllPresent allowed children := by
  rcases h with hallowed | ⟨window, _, sound⟩
  · exact fun _ _ => .inl hallowed
  · obtain ⟨_, _, _, hchildren, _⟩ := Form.sound_element.mp sound
    exact allPresent_of_sound hchildren

theorem Present.fragment {slice : Slice} {children : List (Child Form)}
    (h : Present allowed (.fragment slice children)) : AllPresent allowed children := by
  rcases h with hallowed | ⟨window, _, sound⟩
  · exact fun _ _ => .inl hallowed
  · exact allPresent_of_sound (Form.sound_fragment.mp sound).2

theorem Present.noMarkup {form : Form} (h : Present allowed form) (hform : form.isMarkup = false) :
    allowed .noMarkup := by
  rcases h with hallowed | ⟨_, hmarkup, _⟩
  · exact hallowed
  · rw [hform] at hmarkup
    cases hmarkup

theorem AllPresent.rest {child : Child Form} {rest : List (Child Form)}
    (h : AllPresent allowed (child :: rest)) : AllPresent allowed rest :=
  fun form hform => h form (List.mem_cons_of_mem _ hform)

mutual

theorem reports_nodeOf (hdeep : allowed .tooDeep) : ∀ form, Present allowed form →
    ∀ (levels : Nat) (supply : Supply), Reports allowed (nodeOf levels supply form)
  | .element _ _ attributes children _, h, levels, supply => by
      rw [nodeOf]
      exact .levels hdeep levels <| (reports_attributesOf [] attributes).bind fun _ =>
        (reports_contentsOf hdeep children h.element _ supply).bind fun _ => .ok _
  | .selfClosed _ _ attributes, _, levels, supply => by
      rw [nodeOf]
      exact .levels hdeep levels <| (reports_attributesOf [] attributes).bind fun _ => .ok _
  | .fragment _ children, h, levels, supply => by
      rw [nodeOf]
      exact .levels hdeep levels <|
        (reports_contentsOf hdeep children h.fragment _ supply).bind fun _ => .ok _
  | .plain .., h, _, _ | .string _, h, _, _ | .number _, h, _, _ | .boolean _, h, _, _
  | .signed .., h, _, _ | .group .., h, _, _ | .object .., h, _, _ | .function .., h, _, _
  | .block .., h, _, _ | .returned .., h, _, _ | .returnedNothing _, h, _, _ =>
    .diagnostic (h.noMarkup rfl)

theorem reports_contentsOf (hdeep : allowed .tooDeep) : ∀ children, AllPresent allowed children →
    ∀ (levels : Nat) (supply : Supply), Reports allowed (contentsOf levels supply children)
  | [], _, _, _ => .ok _
  | .text _ :: rest, h, levels, supply => by
      rw [contentsOf]
      exact (reports_contentsOf hdeep rest h.rest levels supply).bind fun _ => .ok _
  | .markup form :: rest, h, levels, supply => by
      rw [contentsOf]
      exact (reports_nodeOf hdeep form (h form (List.mem_cons_self ..)) levels supply).bind
        fun found => (reports_contentsOf hdeep rest h.rest levels found.2).bind fun _ => .ok _
  | .braces form :: rest, h, levels, supply => by
      rw [contentsOf]
      exact (reports_contentOf form).bind fun _ =>
        (reports_contentsOf hdeep rest h.rest levels supply).bind fun _ => .ok _
  | .emptyBraces :: rest, h, levels, supply => by
      rw [contentsOf]
      exact reports_contentsOf hdeep rest h.rest levels supply
  | .spread form :: rest, h, levels, supply => by
      rw [contentsOf]
      exact (reports_contentsOf hdeep rest h.rest levels supply).bind fun _ => .ok _

end

/-- Forms that were accepted give a tree, or their markup is nested too deeply, or there is none. -/
theorem reports_treeOf (levels : Nat) (forms : List Form) (supply : Supply) :
    Reports (fun diagnostic => diagnostic = .tooDeep ∨ diagnostic = .noMarkup)
      (treeOf levels forms supply) := by
  unfold treeOf
  split
  · exact reports_nodeOf (.inl rfl) _ (.inl (.inr rfl)) levels supply
  · exact .diagnostic (.inr rfl)

/-- Forms that the grammar reads are reported to hold no markup exactly if none is found. -/
theorem treeOf_eq_noMarkup_iff {window : Window} {forms : List Form} (sound : FormsSound window forms)
    (levels : Nat) (supply : Supply) :
    treeOf levels forms supply = .error (.diagnostic .noMarkup) ↔ findMarkup forms = none := by
  unfold treeOf
  constructor
  · intro h
    split at h
    · next form hfound =>
        obtain ⟨hmem, hmarkup⟩ := mem_of_findMarkup hfound
        have hpresent : Present (· = Diagnostic.tooDeep) form :=
          .inr ⟨window, hmarkup, fun inner hinner =>
            sound inner (covered_occurrencesIn forms form hmem hinner)⟩
        cases @reports_nodeOf (· = Diagnostic.tooDeep) rfl form hpresent levels supply _ h
    · next hnone => exact hnone
  · intro hnone
    rw [hnone]

end EditableMarkup.Source
