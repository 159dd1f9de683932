import EditableMarkup.Proofs.Reading.Edges
import EditableMarkup.Proofs.Reading.Sound
import EditableMarkup.Proofs.Source.Occurrences

/-!
# Spans

What a reader reads from a text spans some first characters of it: the skipped
ones, and behind them a tight part, unless nothing is read at all.  Two spans
one behind the other make up a span.  A form that is read at a span has the
tight part as its slice.
-/

namespace EditableMarkup.Grammar

open EditableMarkup.Source

variable {text : List Char} {lead used lead' used' : Nat}

/-- A reading spans some first characters of a text; those that are not skipped in front are tight,
unless nothing is read. -/
structure Spans (text : List Char) (lead used : Nat) : Prop where
  used_le : used ≤ text.length
  lead_lt : 0 < used → lead < used
  tight : 0 < used → Text.Tight ((text.take used).drop lead)

namespace Spans

theorem zero (text : List Char) (lead : Nat) : Spans text lead 0 where
  used_le := Nat.zero_le _
  lead_lt h := absurd h (Nat.lt_irrefl 0)
  tight h := absurd h (Nat.lt_irrefl 0)

/-- A lexeme behind a gap. -/
theorem of_front (hlead : lead ≤ text.length) {length : Nat}
    (h : Lexeme.Front (text.drop lead) length Text.Tight) : Spans text lead (lead + length) := by
  obtain ⟨front, rest, hsplit, rfl, tight⟩ := h
  have hpositive := List.length_pos_iff.mpr tight.ne_nil
  have hlength := congrArg List.length hsplit
  rw [List.length_drop, List.length_append] at hlength
  refine ⟨by omega, fun _ => by omega, fun _ => ?_⟩
  rw [List.drop_take, hsplit, Nat.add_sub_cancel_left, List.take_left]
  exact tight

/-- A span behind some characters of a text. -/
theorem shift {count : Nat} (h : Spans (text.drop count) lead used) (hused : 0 < used) :
    Spans text (count + lead) (count + used) := by
  have hle := h.used_le
  rw [List.length_drop] at hle
  refine ⟨by omega, fun _ => Nat.add_lt_add_left (h.lead_lt hused) count, fun _ => ?_⟩
  have htight := h.tight hused
  rwa [List.take_drop, List.drop_drop] at htight

/-- Two spans one behind the other. -/
theorem followedBy (h : Spans text lead used) (h' : Spans (text.drop used) lead' used') :
    Spans text (if used = 0 then lead' else lead) (used + used') := by
  rcases Nat.eq_zero_or_pos used with rfl | hused
  · rw [if_pos rfl, Nat.zero_add]
    exact h'
  · rw [if_neg (Nat.ne_of_gt hused)]
    rcases Nat.eq_zero_or_pos used' with rfl | hused'
    · exact h
    · have hle := h.used_le
      have hshift := h'.shift hused'
      have hlead := h.lead_lt hused
      refine ⟨hshift.used_le, fun _ => by omega, fun _ => ?_⟩
      -- the gap between the two stands between their tight parts
      have hbehind : (text.take (used + used')).drop used =
          (text.drop used).take lead' ++ (text.take (used + used')).drop (used + lead') := by
        have hsecond : (text.take (used + used')).drop used = (text.drop used).take used' := by
          rw [List.drop_take, Nat.add_sub_cancel_left]
        have hparts := List.take_append_drop lead' ((text.drop used).take used')
        rw [List.take_take, Nat.min_eq_left (h'.lead_lt hused').le] at hparts
        rw [← List.drop_drop, hsecond, hparts]
      have hsplit : (text.take (used + used')).drop lead =
          (text.take used).drop lead ++ (text.drop used).take lead' ++
            (text.take (used + used')).drop (used + lead') := by
        have hfront : (text.take (used + used')).take used = text.take used := by
          rw [List.take_take, Nat.min_eq_left (Nat.le_add_right ..)]
        rw [List.append_assoc, ← hbehind, ← hfront,
          ← List.drop_append_of_le_length (by simp; omega), List.take_append_drop]
      rw [hsplit]
      exact (h.tight hused).append _ (hshift.tight (by omega))

end Spans

/-- Something is read from a text that an expression may start with. -/
structure Leading (text : List Char) (lead used : Nat) : Prop where
  pos : 0 < used
  noSlash : (text.drop lead).head? ≠ some '/'
  noDots : ¬ ['.', '.', '.'] <+: text.drop lead

/-- What is read goes on as it began. -/
theorem Leading.followedBy (h : Leading text lead used) (lead' used' : Nat) :
    Leading text (if used = 0 then lead' else lead) (used + used') := by
  rw [if_neg (Nat.ne_of_gt h.pos)]
  exact ⟨Nat.add_pos_left h.pos _, h.noSlash, h.noDots⟩

/-! ## Forms at a span -/

variable {window : Window}

/-- The slice of a span is cut from its part of the source. -/
theorem Slice.cutFrom_of_spans (hsuffix : text <:+ window.source) (spans : Spans text lead used)
    (leading : Leading text lead used) (hlimit : used + window.left ≤ text.length) :
    Slice.CutFrom window ⟨text.drop lead, used - lead⟩ where
  suffix := (List.drop_suffix lead text).trans hsuffix
  length_le := by
    have := spans.lead_lt leading.pos
    simp only [List.length_drop]
    omega
  tight := by
    rw [Slice.chars, ← List.drop_take]
    exact spans.tight leading.pos
  noSlash := leading.noSlash
  noDots := leading.noDots

/-- A sound form that is read from a text at a span. -/
structure Form.ReadAt (window : Window) (text : List Char) (lead used : Nat) (form : Form) :
    Prop where
  slice_eq : form.slice = ⟨text.drop lead, used - lead⟩
  used_le : used ≤ text.length
  sound : form.Sound window

namespace Form.ReadAt

variable {form : Form}

theorem cut (h : form.ReadAt window text lead used) :
    Slice.CutFrom window ⟨text.drop lead, used - lead⟩ :=
  h.slice_eq ▸ (h.sound form (mem_occurrences_self form)).cut

theorem lead_lt (h : form.ReadAt window text lead used) : lead < used := by
  have hne := h.cut.tight.ne_nil
  rw [Slice.chars, Ne, List.take_eq_nil_iff] at hne
  simp only [not_or] at hne
  omega

theorem spans (h : form.ReadAt window text lead used) : Spans text lead used where
  used_le := h.used_le
  lead_lt _ := h.lead_lt
  tight _ := by
    rw [List.drop_take]
    exact h.cut.tight

theorem leading (h : form.ReadAt window text lead used) : Leading text lead used where
  pos := Nat.zero_lt_of_lt h.lead_lt
  noSlash := h.cut.noSlash
  noDots := h.cut.noDots

/-- A form that some forms behind it join. -/
theorem extend (h : form.ReadAt window text lead used) (hsuffix : text <:+ window.source)
    (spans : Spans (text.drop used) lead' used') {inside : List Form}
    (hinside : FormsSound window inside) (hlimit : used + used' + window.left ≤ text.length) :
    (plain (form.slice.extend used') (form :: inside)).ReadAt window text
      (if used = 0 then lead' else lead) (used + used') := by
  have hspans := h.spans.followedBy spans
  have hlead := h.lead_lt
  have hslice : form.slice.extend used' = ⟨text.drop lead, used + used' - lead⟩ := by
    rw [h.slice_eq, Slice.extend, Nat.sub_add_comm hlead.le]
  have hleading := h.leading.followedBy lead' used'
  have hcut := Slice.cutFrom_of_spans hsuffix hspans hleading hlimit
  rw [if_neg (by omega)] at hcut ⊢
  refine ⟨hslice, hspans.used_le, Form.sound_plain.mpr ⟨?_, ?_⟩⟩
  · rw [hslice]
    exact hcut
  · exact formsSound_cons.mpr ⟨h.sound, hinside⟩

end Form.ReadAt

end EditableMarkup.Grammar
