import EditableMarkup.Proofs.Reading.Gives

/-!
# What readers of forms give

A reader of forms gives forms that are cut from where they are read.  A
construct that takes its slice is such a form if something is read of it that an
expression may start with, neither the slash of a comment nor the dots of a spread;
and a form that is joined by what is read behind it is one again.
-/

namespace EditableMarkup.Grammar

variable {α β : Type} {window : Window}

/-! ## What a construct opens with -/

namespace Reading

/-- Something is read that an expression may start with. -/
def IsLeading : ReadingLaw α := fun text reading => Leading text reading.lead reading.used

/-- An expression may start with what is read, if anything is. -/
def MayBeLeading : ReadingLaw α := fun text reading =>
  reading.used = 0 ∨ Leading text reading.lead reading.used

end Reading

namespace Reader

open Reading

/-- A reader reads something that an expression may start with. -/
def LeadsIn (window : Window) (reader : Reader α) : Prop :=
  Yields window Reading.IsLeading reader

/-- A reader reads nothing or something that an expression may start with. -/
def MayLeadIn (window : Window) (reader : Reader α) : Prop :=
  Yields window Reading.MayBeLeading reader

namespace LeadsIn

variable {reader : Reader α}

theorem oneOf {readers : List (Reader α)} (leads : readers.Forall (LeadsIn window)) :
    LeadsIn window (Reader.oneOf readers) :=
  Yields.oneOf leads

theorem either {other : Reader α} (leads : LeadsIn window reader) (leads' : LeadsIn window other) :
    LeadsIn window (Reader.oneOf [reader, other]) :=
  oneOf ⟨leads, leads'⟩

/-- What a construct opens with opens all that goes on with it. -/
theorem bind (leads : LeadsIn window reader) {second : α → Reader β} :
    LeadsIn window (reader >>= second) := by
  intro place sound reading hreading hlimit
  obtain ⟨before, hbefore, after, hafter, rfl⟩ := exists_of_reads_bind hreading
  rw [followedBy_used] at hlimit
  exact Leading.followedBy (leads place sound before hbefore (by omega)) _ _

/-- A construct behind a part that may be missing. -/
theorem behind (may : MayLeadIn window reader) {second : α → Reader β}
    (leads : ∀ value, LeadsIn window (second value)) : LeadsIn window (reader >>= second) := by
  refine Yields.bind may (fun value _ => leads value) fun text before after hbefore hafter => ?_
  rcases hbefore with hnone | hleading
  · have hsame : text.drop before.used = text := by rw [hnone, List.drop_zero]
    rw [hsame] at hafter
    simpa [Reading.IsLeading, Reading.followedBy, hnone] using hafter
  · exact hleading.followedBy _ _

theorem lexeme {taken : Lexeme} (tight : taken.Tight) (mayLead : taken.MayLead) :
    LeadsIn window (Reader.lexeme taken) := by
  intro place sound reading hreading _
  obtain ⟨gap, _, length, hlength, rfl⟩ := exists_of_reads_lexeme hreading
  rw [sound.advance_text] at hlength
  obtain ⟨front, rest, _, hfront, htight⟩ := tight _ _ hlength
  refine ⟨?_, fun hhead => ?_, fun hdots => ?_⟩
  · have hpositive := List.length_pos_iff.mpr htight.ne_nil
    show 0 < gap + length
    omega
  · obtain ⟨behind, hbehind⟩ := List.head?_eq_some_iff.mp hhead
    rw [hbehind, mayLead.slash] at hlength
    cases hlength
  · obtain ⟨behind, hbehind⟩ := hdots
    rw [← hbehind] at hlength
    cases (mayLead.dots behind).symm.trans hlength

theorem sign {spelling : String} (h : Lexeme.opensExpression spelling = true) :
    LeadsIn window (Reader.sign spelling) :=
  bind (lexeme (Lexeme.tight_sign (Lexeme.tight_of_opensExpression h)) (Lexeme.mayLead_sign h))

theorem keyword {spelling : String} (h : Lexeme.opensExpression spelling = true) :
    LeadsIn window (Reader.keyword spelling) :=
  bind (lexeme (Lexeme.tight_keyword (Lexeme.tight_of_opensExpression h)) (Lexeme.mayLead_keyword h))

theorem counted (leads : LeadsIn window reader) : LeadsIn window (Reader.counted reader) := by
  intro place sound reading hreading hlimit
  obtain ⟨before, hbefore, rfl⟩ := reads_counted.mp hreading
  exact leads place sound before hbefore hlimit

end LeadsIn

namespace MayLeadIn

theorem nothing {value : α} : MayLeadIn window (Reader.nothing value) := by
  intro place _ reading hreading _
  rw [reads_nothing.mp hreading]
  exact Or.inl rfl

/-- A construct that may be missing. -/
theorem orNothing {reader : Reader α} (leads : LeadsIn window reader) {value : α} :
    MayLeadIn window (Reader.oneOf [reader, Reader.nothing value]) :=
  Yields.oneOf ⟨Yields.imp leads fun _ _ h => Or.inr h, nothing⟩

theorem many {reader : Reader α} (leads : LeadsIn window reader) :
    MayLeadIn window (Reader.many reader) := by
  intro place sound reading hreading
  refine iterate_induction
    (fun reading => reading.used + window.left ≤ place.text.length → reading.MayBeLeading place.text)
    (fun reading hreading hlimit => nothing place sound reading hreading hlimit) ?_ hreading
  intro before after hbefore hafter hlimit
  rw [followedBy_used] at hlimit
  have hstep := LeadsIn.bind leads _ (sound.advance _) after hafter
    (by rw [sound.advance_text, List.length_drop]; omega)
  rcases hbefore (by omega) with hnone | hleading
  · rw [sound.advance_text, hnone, List.drop_zero] at hstep
    right
    simpa [Reading.IsLeading, Reading.followedBy, hnone] using hstep
  · exact Or.inr (hleading.followedBy _ _)

end MayLeadIn

/-! ## Forms -/

/-- A reader gives forms that are sound and cut from where they are read. -/
def GivesForm (window : Window) (reader : Reader Form) : Prop :=
  Yields window (IsForm window) reader

/-- A reader gives elements and fragments that are sound and cut from where they are read. -/
def GivesTagged (window : Window) (reader : Reader Tagged) : Prop :=
  Yields window (IsTagged window) reader

/-- A form with a certain slice is sound if the slice is cut from a part of a source. -/
structure SoundWith (window : Window) (slice : Slice) (form : Form) : Prop where
  slice_eq : form.slice = slice
  sound : slice.CutFrom window → form.Sound window

/-- A reading of a construct that takes its slice. -/
theorem readAt_sliced {place : Place} (sound : place.Sound window) {reading : Reading (Slice → α)}
    {form : α → Form} (hlimit : reading.used + window.left ≤ place.text.length)
    (leading : reading.IsLeading place.text)
    (hof : reading.Of (fun make => ∀ slice, SoundWith window slice (form (make slice))) place.text) :
    (form (reading.value (sliceOf place reading))).ReadAt window place.text reading.lead
      reading.used := by
  have hslice : sliceOf place reading = ⟨place.text.drop reading.lead, reading.used - reading.lead⟩ := by
    rw [sliceOf, sound.advance_text]
  rw [hslice]
  have hcut := Slice.cutFrom_of_spans sound.text_suffix hof.spans leading hlimit
  exact ⟨(hof.kind _).slice_eq, hof.spans.used_le, (hof.kind _).sound hcut⟩

/-- A form that is made of what is read. -/
theorem isForm_followedBy_pure {text : List Char} {before : Reading α} {form : Form}
    (h : form.ReadAt window text before.lead before.used) :
    IsForm window text (before.followedBy ⟨form, 0, 0, 0⟩) := by
  have hused : before.used ≠ 0 := Nat.ne_of_gt h.leading.pos
  simpa [IsForm, Reading.followedBy, hused] using h

namespace GivesForm

variable {reader : Reader Form}

theorem oneOf {readers : List (Reader Form)} (forms : readers.Forall (GivesForm window)) :
    GivesForm window (Reader.oneOf readers) :=
  Yields.oneOf forms

theorem either {other : Reader Form} (forms : GivesForm window reader)
    (forms' : GivesForm window other) : GivesForm window (Reader.oneOf [reader, other]) :=
  oneOf ⟨forms, forms'⟩

theorem gives (forms : GivesForm window reader) : Gives window (Form.Sound window) reader :=
  Yields.imp forms fun _ _ h => ⟨h.spans, h.sound⟩

theorem leads (forms : GivesForm window reader) : LeadsIn window reader :=
  Yields.imp forms fun _ _ h => h.leading

theorem lexeme {taken : Lexeme} {form : Slice → Form} (tight : taken.Tight)
    (mayLead : taken.MayLead)
    (h : ∀ slice, Takes window.source taken slice → SoundWith window slice (form slice)) :
    GivesForm window (form <$> Reader.lexeme taken) := by
  intro place sound reading hreading hlimit
  obtain ⟨before, hbefore, after, hafter, rfl⟩ := exists_of_reads_bind hreading
  rw [reads_pure.mp hafter] at hlimit ⊢
  have hof := Gives.lexeme tight place sound before hbefore hlimit
  have hleading := LeadsIn.lexeme tight mayLead place sound before hbefore hlimit
  have hcut := Slice.cutFrom_of_spans sound.text_suffix hof.spans hleading hlimit
  have hsound := h before.value hof.kind
  have hvalue : before.value = ⟨place.text.drop before.lead, before.used - before.lead⟩ := by
    obtain ⟨gap, _, length, _, rfl⟩ := exists_of_reads_lexeme hbefore
    rw [sound.advance_text, Nat.add_sub_cancel_left]
  exact isForm_followedBy_pure
    ⟨hsound.slice_eq.trans hvalue, hof.spans.used_le, hsound.sound (hvalue ▸ hcut)⟩

theorem sliced {reader : Reader (Slice → Form)} (leads : LeadsIn window reader)
    (gives : Gives window (fun make => ∀ slice, SoundWith window slice (make slice)) reader) :
    GivesForm window (Reader.sliced reader) := by
  intro place sound reading hreading hlimit
  obtain ⟨before, hbefore, rfl⟩ := reads_sliced.mp hreading
  exact @readAt_sliced _ window place sound _ id hlimit (leads place sound before hbefore hlimit)
    (gives place sound before hbefore hlimit)

/-- A form goes on with forms that join it. -/
theorem readAt_followedBy {tail : Reader (List Form)} (gives : Gives window (FormsSound window) tail)
    {place : Place} (sound : place.Sound window) {before after : Reading Form}
    (hbefore : IsForm window place.text before)
    (hafter : Reads (Reader.extending before.value tail) (place.advance before.used) after)
    (hlimit : before.used + after.used + window.left ≤ place.text.length) :
    IsForm window place.text (before.followedBy after) := by
  obtain ⟨behind, hbehind, rfl⟩ := reads_extending.mp hafter
  have hjoined : before.used + behind.used + window.left ≤ place.text.length := hlimit
  have hof := gives _ (sound.advance _) behind hbehind
    (by rw [sound.advance_text, List.length_drop]; omega)
  rw [sound.advance_text] at hof
  exact hbefore.extend sound.text_suffix hof.spans hof.kind hjoined

/-- A form and then what joins it. -/
theorem extending (forms : GivesForm window reader) {tail : Reader (List Form)}
    (gives : Gives window (FormsSound window) tail) :
    GivesForm window (reader >>= fun form => Reader.extending form tail) := by
  intro place sound reading hreading hlimit
  obtain ⟨before, hbefore, after, hafter, rfl⟩ := exists_of_reads_bind hreading
  rw [followedBy_used] at hlimit
  exact readAt_followedBy gives sound (forms place sound before hbefore (by omega)) hafter hlimit

theorem maybeMore (forms : GivesForm window reader) {tail : Reader (List Form)}
    (gives : Gives window (FormsSound window) tail) :
    GivesForm window (Reader.maybeMore reader fun form => Reader.extending form tail) := by
  intro place sound reading hreading hlimit
  obtain ⟨found, hfound, hreads⟩ := exists_of_reads_oneOf hreading
  rcases List.mem_cons.mp hfound with rfl | hfound
  · exact forms place sound reading hreads hlimit
  · rw [List.mem_singleton.mp hfound] at hreads
    obtain ⟨before, hbefore, after, hafter, rfl⟩ :=
      @exists_of_reads_bind _ _ (fun _ => reader place) (fun form => Reader.extending form tail)
        place reading hreads
    rw [followedBy_used] at hlimit
    exact readAt_followedBy gives sound (forms place sound before hbefore (by omega)) hafter hlimit

theorem iterate (forms : GivesForm window reader) {tail : Reader (List Form)}
    (gives : Gives window (FormsSound window) tail) :
    GivesForm window (Reader.iterate reader fun form => Reader.extending form tail) := by
  intro place sound reading hreading
  refine iterate_induction
    (fun reading => reading.used + window.left ≤ place.text.length →
      IsForm window place.text reading) (forms place sound) ?_ hreading
  intro before after hbefore hafter hlimit
  rw [followedBy_used] at hlimit
  exact readAt_followedBy gives sound (hbefore (by omega)) hafter hlimit

theorem object : GivesForm window Reader.object :=
  Yields.held fun _ sound => sound.object

theorem block : GivesForm window Reader.block :=
  Yields.held fun _ sound => sound.block

theorem call : GivesForm window Reader.call :=
  Yields.held fun _ sound => sound.call

theorem unary : GivesForm window Reader.unary :=
  Yields.held fun _ sound => sound.unary

theorem operand : GivesForm window Reader.operand :=
  Yields.held fun _ sound => sound.operand

theorem assignment : GivesForm window Reader.assignment :=
  Yields.held fun _ sound => sound.assignment

theorem expression : GivesForm window Reader.expression :=
  Yields.held fun _ sound => sound.expression

theorem statement : GivesForm window Reader.statement :=
  Yields.held fun _ sound => sound.statement

end GivesForm

namespace GivesTagged

theorem tagged : GivesTagged window Reader.tagged :=
  Yields.held fun _ sound => sound.markup

theorem sliced {reader : Reader (Slice → Tagged)} (leads : LeadsIn window reader)
    (gives : Gives window (fun make => ∀ slice, (make slice).form.isMarkup = true ∧
      SoundWith window slice (make slice).form) reader) :
    GivesTagged window (Reader.sliced reader) := by
  intro place sound reading hreading hlimit
  obtain ⟨before, hbefore, rfl⟩ := reads_sliced.mp hreading
  have hof := gives place sound before hbefore hlimit
  exact ⟨(hof.kind _).1, readAt_sliced sound hlimit (leads place sound before hbefore hlimit)
    ⟨hof.spans, fun slice => (hof.kind slice).2⟩⟩

theorem gives {reader : Reader Tagged} (markup : GivesTagged window reader) :
    Gives window (fun tagged => tagged.form.isMarkup = true ∧ tagged.form.Sound window) reader :=
  Yields.imp markup fun _ _ h => ⟨h.2.spans, h.1, h.2.sound⟩

end GivesTagged

theorem GivesForm.markup : GivesForm window Reader.markup := by
  intro place sound reading hreading hlimit
  obtain ⟨before, hbefore, after, hafter, rfl⟩ := exists_of_reads_bind hreading
  rw [reads_pure.mp hafter] at hlimit ⊢
  exact isForm_followedBy_pure (GivesTagged.tagged place sound before hbefore hlimit).2

namespace Gives

theorem block : Gives window (Form.Sound window) Reader.block :=
  GivesForm.block.gives

theorem call : Gives window (Form.Sound window) Reader.call :=
  GivesForm.call.gives

theorem unary : Gives window (Form.Sound window) Reader.unary :=
  GivesForm.unary.gives

theorem operand : Gives window (Form.Sound window) Reader.operand :=
  GivesForm.operand.gives

theorem assignment : Gives window (Form.Sound window) Reader.assignment :=
  GivesForm.assignment.gives

theorem expression : Gives window (Form.Sound window) Reader.expression :=
  GivesForm.expression.gives

theorem statement : Gives window (Form.Sound window) Reader.statement :=
  GivesForm.statement.gives

theorem tagged :
    Gives window (fun tagged => tagged.form.isMarkup = true ∧ tagged.form.Sound window)
      Reader.tagged :=
  GivesTagged.tagged.gives

theorem markup : Gives window (Form.Sound window) Reader.markup :=
  GivesForm.markup.gives

end Gives

end Reader

end EditableMarkup.Grammar
