import EditableMarkup.Proofs.Literal.Escapes
import EditableMarkup.Proofs.Literal.Numerals
import EditableMarkup.Proofs.Reading.Sound
import EditableMarkup.Proofs.Source.Occurrences
import EditableMarkup.Proofs.Tree.Supply
import EditableMarkup.Source.Convert

/-!
# Faults of sources

Converting forms to values fails at a literal only that has no value or no
spelling: a string with an escape beyond the last code point, a number that
announces a base and has no digits, or an integer that is too large to be read or
written.  The literals of a sound form are what their classes of lexemes take, so
no other literal can be at fault.
-/

namespace EditableMarkup.Source

open EditableMarkup.Grammar

/-! ## Literals to blame -/

/-- A string literal occurs as a form or as the key of a property. -/
inductive StringOccurs (found : List Occurrence) (slice : Slice) : Prop where
  | form (h : .form (.string slice) ∈ found)
  | key {whole : Slice} {members : List (Member Form)} {value : Form}
      (h : .form (.object whole members) ∈ found) (hkey : .property (.quoted slice) value ∈ members)

/-- Among all that occurs a literal is at fault: a string with an escape beyond the last code point, a
number in a base of its own without digits, or an integer with too many digits or of too large a
value. -/
inductive Faulty (found : List Occurrence) : LiteralFault → Slice → Prop where
  | escape {slice : Slice} {n : Nat} (h : StringOccurs found slice)
      (hholds : Literal.HoldsEscape slice.chars n) (hlarge : 0x10FFFF < n) :
      Faulty found (Literal.codePointFault n) slice
  | noDigits {slice : Slice} (h : .form (.number slice) ∈ found)
      (hdigits : Literal.NoDigits slice.chars) : Faulty found .malformedNumber slice
  | manyDigits {slice : Slice} (h : .form (.number slice) ∈ found)
      (hdigits : Literal.ManyDigits slice.chars) : Faulty found .tooManyDigits slice
  | largeValue {slice : Slice} {value : Int} (h : .form (.number slice) ∈ found)
      (hvalue : Literal.numberOf? slice.text = .ok (some (.integer value)))
      (hlarge : Nat.pow 10 Number.digitLimit ≤ value.natAbs) : Faulty found .tooManyDigits slice

/-- A failure is a diagnostic, or a literal is at fault. -/
def Explained (found : List Occurrence) (failure : Failure) : Prop :=
  (∃ diagnostic, failure = .diagnostic diagnostic) ∨
    ∃ fault slice, failure = .literal fault ∧ Faulty found fault slice

theorem explained_diagnostic {found : List Occurrence} (diagnostic : Diagnostic) :
    Explained found (.diagnostic diagnostic) :=
  Or.inl ⟨diagnostic, rfl⟩

theorem Faulty.explained {found : List Occurrence} {fault : LiteralFault} {slice : Slice}
    (faulty : Faulty found fault slice) : Explained found (.literal fault) :=
  Or.inr ⟨fault, slice, rfl, faulty⟩

theorem cases_of_bind_eq_error {α β : Type} {result : Except Failure α} {next : α → Except Failure β}
    {failure : Failure} (h : (result >>= next) = .error failure) :
    result = .error failure ∨ ∃ value, result = .ok value ∧ next value = .error failure := by
  cases result with
  | error found =>
      cases h
      exact Or.inl rfl
  | ok value => exact Or.inr ⟨value, rfl, h⟩

theorem orFail_eq_error {α : Type} {result : Except LiteralFault α} {failure : Failure}
    (h : orFail result = .error failure) :
    ∃ fault, failure = .literal fault ∧ result = .error fault := by
  cases result with
  | error fault =>
      cases h
      exact ⟨fault, rfl, rfl⟩
  | ok value => cases h

/-! ## Where converting fails -/

section Convert

variable {source : List Char} {found : List Occurrence} {failure : Failure}

theorem exists_quote_of_takes {slice : Slice} (takes : Takes source Lexeme.string slice) :
    ∃ quote body, (quote = '"' ∨ quote = '\'') ∧ slice.chars = quote :: (body ++ [quote]) := by
  obtain ⟨quote, body, rest, hquote, hsource, hlength⟩ := Lexeme.string_split takes.2
  refine ⟨quote, body, hquote, ?_⟩
  rw [Slice.chars, hsource, hlength, List.take_succ_cons, List.append_cons]
  exact congrArg (quote :: ·) (List.take_left' (by simp))

theorem explained_unquoted {slice : Slice} (takes : Takes source Lexeme.string slice)
    (hoccurs : StringOccurs found slice) (h : orFail (Literal.unquoted slice.text) = .error failure) :
    Explained found failure := by
  obtain ⟨fault, rfl, hunquoted⟩ := orFail_eq_error h
  obtain ⟨quote, body, hquote, hchars⟩ := exists_quote_of_takes takes
  have hplain : quote ≠ '\\' := by
    rcases hquote with rfl | rfl
    · decide
    · decide
  rw [Slice.text, hchars] at hunquoted
  obtain ⟨n, hholds, hlarge, rfl⟩ := Literal.exists_of_unquoted_eq_error hplain hunquoted
  rw [← hchars] at hholds
  exact (Faulty.escape hoccurs hholds hlarge).explained

theorem numeralShape_of_takes {slice : Slice} (takes : Takes source Lexeme.number slice) :
    Literal.NumeralShape slice.chars := by
  obtain ⟨front, rest, hsource, hlength, shape⟩ := Lexeme.front_number takes.2
  rw [Slice.chars, hsource, hlength, List.take_left]
  exact shape

theorem explained_numberOf? {slice : Slice} (takes : Takes source Lexeme.number slice)
    (hoccurs : .form (.number slice) ∈ found) {negative : Bool}
    (h : numberOf? negative slice = .error failure) : Explained found failure := by
  have herror : orFail (Literal.numberOf? slice.text) = .error failure := by
    rcases cases_of_bind_eq_error h with h | ⟨_, _, h⟩
    · exact h
    · cases h
  obtain ⟨fault, rfl, hnumber⟩ := orFail_eq_error herror
  rcases Literal.numberOf?_eq_error (numeralShape_of_takes takes) hnumber with
    ⟨rfl, hdigits⟩ | ⟨rfl, hdigits⟩
  · exact (Faulty.noDigits hoccurs hdigits).explained
  · exact (Faulty.manyDigits hoccurs hdigits).explained

mutual

/-- Where a form has no value, a literal in it is at fault. -/
theorem explained_valueOf (hlexed : AllLexed source found) : ∀ form,
    occurrences form ⊆ found → valueOf form = .error failure → Explained found failure
  | .string slice, hfound, h => by
      have hoccurs := hfound (mem_occurrences_self _)
      rw [valueOf] at h
      rcases cases_of_bind_eq_error h with h | ⟨_, _, h⟩
      · exact explained_unquoted (hlexed _ hoccurs) (.form hoccurs) h
      · cases h
  | .number slice, hfound, h => by
      have hoccurs := hfound (mem_occurrences_self _)
      rw [valueOf] at h
      rcases cases_of_bind_eq_error h with h | ⟨number, _, h⟩
      · exact explained_numberOf? (hlexed _ hoccurs) hoccurs h
      · cases number <;> cases h
  | .boolean _, _, h => by
      rw [valueOf] at h
      cases h
  | .signed _ sign operand, hfound, h => by
      cases operand with
      | number literal =>
          have hoccurs : .form (.number literal) ∈ found := hfound (by simp [occurrences])
          rw [valueOf] at h
          rcases cases_of_bind_eq_error h with h | ⟨number, _, h⟩
          · exact explained_numberOf? (hlexed _ hoccurs) hoccurs h
          · cases number <;> cases h
      | _ => cases h
  | .group _ inner, hfound, h => by
      rw [occurrences] at hfound
      rw [valueOf] at h
      rcases cases_of_bind_eq_error h with h | ⟨value, _, h⟩
      · exact explained_valueOf hlexed inner (List.Subset.trans (List.subset_cons_self ..) hfound) h
      · cases value <;> cases h
  | .object _ members, hfound, h => by
      have hoccurs := hfound (mem_occurrences_self _)
      rw [occurrences] at hfound
      rw [valueOf] at h
      rcases cases_of_bind_eq_error h with h | ⟨entries, _, h⟩
      · exact explained_entriesOf hlexed hoccurs members [] (List.Subset.refl _)
          (List.Subset.trans (List.subset_cons_self ..) hfound) h
      · cases entries <;> cases h
  | .plain .., _, h | .function .., _, h | .block .., _, h | .returned .., _, h
  | .returnedNothing _, _, h | .element .., _, h | .selfClosed .., _, h | .fragment .., _, h => by
      cases h

/-- Where the members of an object have no values, a literal in them is at fault. -/
theorem explained_entriesOf (hlexed : AllLexed source found) {whole : Slice}
    {all : List (Member Form)} (hobject : .form (.object whole all) ∈ found) : ∀ members entries,
    members ⊆ all → occurrencesInMembers members ⊆ found →
    entriesOf entries members = .error failure → Explained found failure
  | [], _, _, _, h => by
      rw [entriesOf] at h
      cases h
  | .property (.word key) value :: rest, entries, hall, hfound, h => by
      have hparts : occurrences value ++ occurrencesInMembers rest ⊆ found := hfound
      obtain ⟨hvalue, hrest⟩ := List.append_subset.mp hparts
      rw [entriesOf] at h
      rcases cases_of_bind_eq_error h with h | ⟨meaning, _, h⟩
      · exact explained_valueOf hlexed value hvalue h
      · exact explained_entriesOf hlexed hobject rest _ (List.cons_subset.mp hall).2 hrest h
  | .property (.quoted key) value :: rest, entries, hall, hfound, h => by
      have hparts : occurrences value ++ occurrencesInMembers rest ⊆ found := hfound
      obtain ⟨hvalue, hrest⟩ := List.append_subset.mp hparts
      have hkey := (List.cons_subset.mp hall).1
      rw [entriesOf] at h
      rcases cases_of_bind_eq_error h with h | ⟨name, _, h⟩
      · exact explained_unquoted (hlexed _ hobject _ hkey) (.key hobject hkey) h
      · rcases cases_of_bind_eq_error h with h | ⟨meaning, _, h⟩
        · exact explained_valueOf hlexed value hvalue h
        · exact explained_entriesOf hlexed hobject rest _ (List.cons_subset.mp hall).2 hrest h
  | .property (.number _) _ :: _, _, _, _, h | .property (.computed _) _ :: _, _, _, _, h
  | .other _ :: _, _, _, _, h => by
      cases h

end

theorem explained_settingOf (hlexed : AllLexed source found) {setting : Setting Form}
    (hfound : occurrencesIn (Rule.settingInside setting) ⊆ found)
    (h : settingOf setting = .error failure) : Explained found failure := by
  cases setting with
  | braces form =>
      rw [Rule.settingInside, occurrencesIn, List.append_subset] at hfound
      exact explained_valueOf hlexed form hfound.1 h
  | _ => cases h

theorem explained_attributesOf (hlexed : AllLexed source found) {attributes : List (Attribute Form)}
    (hfound : occurrencesInAttributes attributes ⊆ found) {entries : Entries Value}
    (h : attributesOf entries attributes = .error failure) : Explained found failure := by
  induction attributes generalizing entries with
  | nil => cases h
  | cons item rest ih =>
      cases item with
      | bare name => exact ih hfound h
      | named name setting =>
          have hparts : occurrencesIn (Rule.settingInside setting) ⊆ found ∧
              occurrencesInAttributes rest ⊆ found := by
            cases setting <;>
              simp_all [Rule.settingInside, occurrencesInAttributes, occurrencesIn]
          rw [attributesOf] at h
          rcases cases_of_bind_eq_error h with h | ⟨value, _, h⟩
          · exact explained_settingOf hlexed hparts.1 h
          · exact ih hparts.2 h
      | spaced inside =>
          rw [occurrencesInAttributes, List.append_subset] at hfound
          exact ih hfound.2 h
      | spread value =>
          rw [occurrencesInAttributes, List.append_subset] at hfound
          exact ih hfound.2 h

theorem exists_of_numberOf?_eq_ok {negative : Bool} {slice : Slice} {number : Number}
    (h : numberOf? negative slice = .ok (some number)) :
    ∃ size, Literal.numberOf? slice.text = .ok (some size) ∧
      number = if negative then size.negate else size := by
  obtain ⟨size?, hsize, h⟩ := exists_of_bind_eq_ok h
  cases size? with
  | none => cases h
  | some size =>
      cases h
      refine ⟨size, ?_, rfl⟩
      cases hliteral : Literal.numberOf? slice.text with
      | error fault =>
          rw [hliteral] at hsize
          cases hsize
      | ok value =>
          rw [hliteral] at hsize
          cases hsize
          rfl

theorem explained_large {negative : Bool} {slice : Slice} {number : Number}
    (hoccurs : .form (.number slice) ∈ found) (h : numberOf? negative slice = .ok (some number))
    (hlarge : number.isWritable = false) : Explained found (.literal .tooManyDigits) := by
  obtain ⟨size, hsize, rfl⟩ := exists_of_numberOf?_eq_ok h
  have hwritable : size.isWritable = false := by
    cases negative with
    | false => exact hlarge
    | true =>
        cases size with
        | integer value => simpa [Number.negate, Number.isWritable] using hlarge
        | real value => exact hlarge
  cases size with
  | real value => cases hwritable
  | integer value =>
      rw [Number.isWritable, decide_eq_false_iff_not, Nat.not_lt] at hwritable
      exact (Faulty.largeValue hoccurs hsize hwritable).explained

/-- A value without a spelling is an integer of too large a value. -/
theorem explained_isWritable {number : Number} (hlarge : number.isWritable = false) : ∀ form,
    occurrences form ⊆ found → valueOf form = .ok (.number number) →
    Explained found (.literal .tooManyDigits)
  | .number slice, hfound, h => by
      rw [valueOf] at h
      obtain ⟨size?, hsize, h⟩ := exists_of_bind_eq_ok h
      cases size? with
      | none => cases h
      | some size =>
          cases h
          exact explained_large (hfound (mem_occurrences_self _)) hsize hlarge
  | .signed _ sign operand, hfound, h => by
      cases operand with
      | number literal =>
          have hoccurs : .form (.number literal) ∈ found := hfound (by simp [occurrences])
          rw [valueOf] at h
          obtain ⟨size?, hsize, h⟩ := exists_of_bind_eq_ok h
          cases size? with
          | none => cases h
          | some size =>
              cases h
              exact explained_large hoccurs hsize hlarge
      | _ => cases h
  | .group _ inner, hfound, h => by
      rw [occurrences] at hfound
      rw [valueOf] at h
      obtain ⟨value, hvalue, h⟩ := exists_of_bind_eq_ok h
      cases value with
      | number size =>
          cases h
          exact explained_isWritable hlarge inner
            (List.Subset.trans (List.subset_cons_self ..) hfound) hvalue
      | _ => cases h
  | .string slice, _, h => by
      rw [valueOf] at h
      obtain ⟨_, _, h⟩ := exists_of_bind_eq_ok h
      cases h
  | .object _ members, _, h => by
      rw [valueOf] at h
      obtain ⟨entries, _, h⟩ := exists_of_bind_eq_ok h
      cases entries <;> cases h
  | .boolean _, _, h | .plain .., _, h | .function .., _, h | .block .., _, h | .returned .., _, h
  | .returnedNothing _, _, h | .element .., _, h | .selfClosed .., _, h | .fragment .., _, h => by
      cases h

theorem explained_contentOf (hlexed : AllLexed source found) {form : Form}
    (hfound : occurrences form ⊆ found) (h : contentOf form = .error failure) :
    Explained found failure := by
  have hinner : occurrences form.unwrapped ⊆ found :=
    List.Subset.trans (covered_occurrences form _ (mem_occurrences_unwrapped form)) hfound
  rcases cases_of_bind_eq_error h with h | ⟨value, hvalue, h⟩
  · exact explained_valueOf hlexed _ hinner h
  · cases value with
    | number number =>
        simp only at h
        split at h
        next => cases h
        next hlarge =>
          cases h
          exact explained_isWritable (Bool.not_eq_true _ ▸ hlarge) _ hinner hvalue
    | _ => cases h

/-- A limit on levels is reported, and else the rest fails. -/
theorem explained_levels {α : Type} {levels : Nat} {rest : Except Failure α}
    (h : (do
      if levels = 0 then .error (.diagnostic .tooDeep)
      rest) = Except.error failure)
    (hrest : rest = .error failure → Explained found failure) : Explained found failure := by
  split at h
  · cases h
    exact explained_diagnostic _
  · exact hrest h

mutual

/-- Where markup has no node, it is nested too deeply or a literal in it is at fault. -/
theorem explained_nodeOf (hlexed : AllLexed source found) : ∀ form (levels : Nat) (supply : Supply),
    occurrences form ⊆ found → nodeOf levels supply form = .error failure →
    Explained found failure
  | .element _ _ attributes children _, levels, supply, hfound, h => by
      rw [occurrences, List.cons_subset, List.append_subset] at hfound
      rw [nodeOf] at h
      refine explained_levels h fun h => ?_
      rcases cases_of_bind_eq_error h with h | ⟨entries, _, h⟩
      · exact explained_attributesOf hlexed hfound.2.1 h
      · rcases cases_of_bind_eq_error h with h | ⟨contents, _, h⟩
        · exact explained_contentsOf hlexed children _ _ hfound.2.2 h
        · cases h
  | .selfClosed _ _ attributes, levels, supply, hfound, h => by
      rw [occurrences, List.cons_subset] at hfound
      rw [nodeOf] at h
      refine explained_levels h fun h => ?_
      rcases cases_of_bind_eq_error h with h | ⟨entries, _, h⟩
      · exact explained_attributesOf hlexed hfound.2 h
      · cases h
  | .fragment _ children, levels, supply, hfound, h => by
      rw [occurrences, List.cons_subset] at hfound
      rw [nodeOf] at h
      refine explained_levels h fun h => ?_
      rcases cases_of_bind_eq_error h with h | ⟨contents, _, h⟩
      · exact explained_contentsOf hlexed children _ _ hfound.2 h
      · cases h
  | .plain .., _, _, _, h | .string _, _, _, _, h | .number _, _, _, _, h | .boolean _, _, _, _, h
  | .signed .., _, _, _, h | .group .., _, _, _, h | .object .., _, _, _, h
  | .function .., _, _, _, h | .block .., _, _, _, h | .returned .., _, _, _, h
  | .returnedNothing _, _, _, _, h => by
      cases h
      exact explained_diagnostic _

theorem explained_contentsOf (hlexed : AllLexed source found) : ∀ children (levels : Nat)
    (supply : Supply), occurrencesInChildren children ⊆ found →
    contentsOf levels supply children = .error failure → Explained found failure
  | [], _, _, _, h => by
      cases h
  | .text _ :: rest, levels, supply, hfound, h => by
      rw [contentsOf] at h
      rcases cases_of_bind_eq_error h with h | ⟨_, _, h⟩
      · exact explained_contentsOf hlexed rest _ _ hfound h
      · cases h
  | .markup form :: rest, levels, supply, hfound, h => by
      rw [occurrencesInChildren, List.append_subset] at hfound
      rw [contentsOf] at h
      rcases cases_of_bind_eq_error h with h | ⟨_, _, h⟩
      · exact explained_nodeOf hlexed form _ _ hfound.1 h
      · rcases cases_of_bind_eq_error h with h | ⟨_, _, h⟩
        · exact explained_contentsOf hlexed rest _ _ hfound.2 h
        · cases h
  | .braces form :: rest, levels, supply, hfound, h => by
      rw [occurrencesInChildren, List.append_subset] at hfound
      rw [contentsOf] at h
      rcases cases_of_bind_eq_error h with h | ⟨_, _, h⟩
      · exact explained_contentOf hlexed hfound.1 h
      · rcases cases_of_bind_eq_error h with h | ⟨_, _, h⟩
        · exact explained_contentsOf hlexed rest _ _ hfound.2 h
        · cases h
  | .emptyBraces :: rest, levels, supply, hfound, h => by
      rw [contentsOf] at h
      exact explained_contentsOf hlexed rest _ _ hfound h
  | .spread form :: rest, levels, supply, hfound, h => by
      rw [occurrencesInChildren, List.append_subset] at hfound
      rw [contentsOf] at h
      rcases cases_of_bind_eq_error h with h | ⟨_, _, h⟩
      · exact explained_contentsOf hlexed rest _ _ hfound.2 h
      · cases h

end

end Convert

end EditableMarkup.Source
