import EditableMarkup.Proofs.Reading.Iterate
import EditableMarkup.Proofs.Reading.Spans
import Mathlib.Data.List.Basic

/-!
# What readers give

A reader gives values of some kind if whatever it reads in a part of a source
spans some characters there and is of the kind, provided that the rows it reads
from hold sound constructs only.  A reader of forms gives forms that are cut
from where they are read.  What a composed reader gives follows from what its
parts give, whatever the places are that the parts are read from.
-/

namespace EditableMarkup.Grammar

variable {α β : Type} {window : Window}

/-- What a reading of a text is like. -/
abbrev ReadingLaw (α : Type) := List Char → Reading α → Prop

namespace Reading

/-- A reading spans some characters and has a value of a kind. -/
structure Of (kind : α → Prop) (text : List Char) (reading : Reading α) : Prop where
  spans : Spans text reading.lead reading.used
  kind : kind reading.value

theorem Of.followedBy {kind : α → Prop} {kind' : β → Prop} {text : List Char} {before : Reading α}
    {after : Reading β} (h : before.Of kind text) (h' : after.Of kind' (text.drop before.used)) :
    (before.followedBy after).Of kind' text :=
  ⟨h.spans.followedBy h'.spans, h'.kind⟩

/-- A reading has a value of a kind, whatever it spans. -/
def IsOf (kind : α → Prop) : ReadingLaw α := fun _ reading => kind reading.value

/-- A form is read where it is cut from. -/
def IsForm (window : Window) : ReadingLaw Form := fun text reading =>
  reading.value.ReadAt window text reading.lead reading.used

/-- An element or a fragment is read where its form is cut from. -/
def IsTagged (window : Window) : ReadingLaw Tagged := fun text reading =>
  reading.value.form.isMarkup = true ∧
    reading.value.form.ReadAt window text reading.lead reading.used

end Reading

open Reading

/-! ## Rows -/

/-- All readings of a column within a part of the source obey a law. -/
def Row.Holds (window : Window) (row : Row) (law : ReadingLaw α) (column : Thunk (Outcome α)) :
    Prop :=
  ∀ reading ∈ column.get.readings, reading.used + window.left ≤ row.text.length →
    law row.text reading

theorem Row.holds_none {row : Row} {law : ReadingLaw α} :
    row.Holds window law (Thunk.pure Outcome.none) :=
  fun _ h => absurd h List.not_mem_nil

/-- A row starts in a source and holds sound constructs only. -/
structure Row.Sound (window : Window) (row : Row) : Prop where
  suffix : row.text <:+ window.source
  pattern : row.Holds window (Of (FormsSound window)) row.pattern
  type : row.Holds window (Of (FormsSound window)) row.type
  object : row.Holds window (IsForm window) row.object
  block : row.Holds window (IsForm window) row.block
  markup : row.Holds window (IsTagged window) row.markup
  call : row.Holds window (IsForm window) row.call
  unary : row.Holds window (IsForm window) row.unary
  operand : row.Holds window (IsForm window) row.operand
  assignment : row.Holds window (IsForm window) row.assignment
  expression : row.Holds window (IsForm window) row.expression
  statement : row.Holds window (IsForm window) row.statement

namespace Place

/-- A place shows its text, and all of its rows are sound. -/
structure Sound (window : Window) (place : Place) : Prop where
  shows_ : place.Shows place.text
  rows : ∀ row ∈ place, row.Sound window

namespace Sound

variable {place : Place}

theorem advance_text (sound : place.Sound window) (count : Nat) :
    (place.advance count).text = place.text.drop count :=
  sound.shows_.advance_text count

theorem advance (sound : place.Sound window) (count : Nat) :
    (place.advance count).Sound window where
  shows_ := by
    rw [sound.advance_text]
    exact sound.shows_.advance_shows count
  rows row hrow := sound.rows row (List.mem_of_mem_drop hrow)

theorem text_suffix (sound : place.Sound window) : place.text <:+ window.source := by
  cases place with
  | nil => exact List.nil_suffix
  | cons row later => exact (sound.rows row (List.mem_cons_self ..)).suffix

/-- The first row of a place may be replaced by a sound one with the same characters and gaps. -/
theorem replace {row other : Row} {later : Place} (sound : Sound window (row :: later))
    (hother : other.Sound window) (htext : other.text = row.text) (hgaps : other.gaps = row.gaps) :
    Sound window (other :: later) where
  shows_ := by
    have hshows := sound.shows_
    change Shows (other :: later) other.text
    rw [htext]
    exact ⟨hshows.length_eq, htext, hgaps.trans hshows.gaps_eq, hshows.advance_eq⟩
  rows := List.forall_mem_cons.mpr ⟨hother, (List.forall_mem_cons.mp sound.rows).2⟩

end Sound

end Place

namespace Reader

/-! ## Laws of readings -/

/-- All readings within a part of a source obey a law. -/
def Yields (window : Window) (law : ReadingLaw α) (reader : Reader α) : Prop :=
  ∀ place : Place, place.Sound window → ∀ reading, Reads reader place reading →
    reading.used + window.left ≤ place.text.length → law place.text reading

namespace Yields

variable {law : ReadingLaw α} {reader : Reader α}

theorem imp {other : ReadingLaw α} (yields : Yields window law reader)
    (h : ∀ text reading, law text reading → other text reading) : Yields window other reader :=
  fun place sound reading hreading hlimit => h _ _ (yields place sound reading hreading hlimit)

/-- A choice yields what all of its readers yield. -/
theorem oneOf {readers : List (Reader α)} (yields : readers.Forall (Yields window law)) :
    Yields window law (Reader.oneOf readers) := by
  intro place sound reading hreading
  obtain ⟨found, hfound, hreads⟩ := exists_of_reads_oneOf hreading
  exact List.forall_iff_forall_mem.mp yields found hfound place sound reading hreads

theorem held {column : Row → Thunk (Outcome α)}
    (h : ∀ row : Row, row.Sound window → row.Holds window law (column row)) :
    Yields window law (Reader.held column) := by
  intro place sound reading hreading
  cases place with
  | nil => exact absurd hreading List.not_mem_nil
  | cons row later => exact h row (sound.rows row (List.mem_cons_self ..)) reading hreading

/-- Two readings one behind the other lie within a part of a source if their whole does. -/
theorem bind {second : α → Reader β} {law' law'' : ReadingLaw β} (yields : Yields window law reader)
    (next : ∀ value, (∃ text reading, law text reading ∧ reading.value = value) →
      Yields window law' (second value))
    (join : ∀ text before after, law text before → law' (text.drop before.used) after →
      law'' text (before.followedBy after)) : Yields window law'' (reader >>= second) := by
  intro place sound reading hreading hlimit
  obtain ⟨before, hbefore, after, hafter, rfl⟩ := exists_of_reads_bind hreading
  rw [followedBy_used] at hlimit
  have hfirst := yields place sound before hbefore (by omega)
  have hsecond := next before.value ⟨_, before, hfirst, rfl⟩ _ (sound.advance _) after hafter
    (by rw [sound.advance_text, List.length_drop]; omega)
  rw [sound.advance_text] at hsecond
  exact join _ before after hfirst hsecond

end Yields

/-! ## Values of a kind -/

/-- Whatever a reader reads in a part of a source spans characters of it and is of a kind. -/
def Gives (window : Window) (kind : α → Prop) (reader : Reader α) : Prop :=
  Yields window (Of kind) reader

/-- The kind of what is given, wherever it is read. -/
theorem Yields.of_gives {kind : α → Prop} {reader : Reader α} (gives : Gives window kind reader) :
    Yields window (IsOf kind) reader :=
  Yields.imp gives fun _ _ hreading => hreading.kind

/-- A reader gives something. -/
abbrev GivesAny (window : Window) (reader : Reader α) : Prop :=
  Gives window (fun _ => True) reader

namespace Gives

variable {kind : α → Prop} {kind' : β → Prop} {reader : Reader α}

theorem imp {other : α → Prop} (gives : Gives window kind reader)
    (h : ∀ value, kind value → other value) : Gives window other reader :=
  Yields.imp gives fun _ _ hreading => ⟨hreading.spans, h _ hreading.kind⟩

theorem any (gives : Gives window kind reader) : GivesAny window reader :=
  gives.imp fun _ _ => trivial

/-! ### Combined readers -/

theorem pure {value : α} (h : kind value) : Gives window kind (Pure.pure value) := by
  intro place _ reading hreading _
  rw [reads_pure.mp hreading]
  exact ⟨.zero _ _, h⟩

theorem nothing {value : α} (h : kind value) : Gives window kind (Reader.nothing value) :=
  pure h

theorem bind (gives : Gives window kind reader) {second : α → Reader β}
    (next : ∀ value, kind value → Gives window kind' (second value)) :
    Gives window kind' (reader >>= second) := by
  refine Yields.bind gives ?_ fun _ _ _ => Of.followedBy
  rintro _ ⟨_, reading, hreading, rfl⟩
  exact next reading.value hreading.kind

/-- What is read first is of no interest. -/
theorem skip (gives : GivesAny window reader) {second : α → Reader β}
    (next : ∀ value, Gives window kind' (second value)) :
    Gives window kind' (reader >>= second) :=
  gives.bind fun value _ => next value

theorem oneOf {readers : List (Reader α)} (gives : readers.Forall (Gives window kind)) :
    Gives window kind (Reader.oneOf readers) :=
  Yields.oneOf gives

theorem either {other : Reader α} (gives : Gives window kind reader)
    (gives' : Gives window kind other) : Gives window kind (Reader.oneOf [reader, other]) :=
  oneOf ⟨gives, gives'⟩

theorem map {f : α → β} (gives : Gives window kind reader)
    (h : ∀ value, kind value → kind' (f value)) : Gives window kind' (f <$> reader) :=
  gives.bind fun value hvalue => pure (h value hvalue)

theorem optional (gives : Gives window kind reader) :
    Gives window (fun value => ∀ found, value = some found → kind found)
      (Reader.optional reader) := by
  refine either (gives.map ?_) (nothing ?_)
  · rintro value hvalue found ⟨⟩
    exact hvalue
  · rintro found ⟨⟩

theorem iterate {step : α → Reader α} (gives : Gives window kind reader)
    (next : ∀ value, kind value → Gives window kind (step value)) :
    Gives window kind (Reader.iterate reader step) := by
  intro place sound reading hreading
  refine iterate_induction
    (fun reading => reading.used + window.left ≤ place.text.length → reading.Of kind place.text)
    (gives place sound) ?_ hreading
  intro before after hbefore hafter hlimit
  rw [followedBy_used] at hlimit
  have hfirst := hbefore (by omega)
  have hsecond := next before.value hfirst.kind _ (sound.advance _) after hafter
    (by rw [sound.advance_text, List.length_drop]; omega)
  rw [sound.advance_text] at hsecond
  exact hfirst.followedBy hsecond

/-- More of a kind is read behind values of the kind. -/
theorem another (gives : Gives window kind reader) (values : List α)
    (hvalues : ∀ value ∈ values, kind value) :
    Gives window (fun values => ∀ value ∈ values, kind value)
      (do return values ++ [← reader]) := by
  refine gives.bind fun value hvalue => pure ?_
  simpa [or_imp, forall_and] using ⟨hvalues, hvalue⟩

theorem many (gives : Gives window kind reader) :
    Gives window (fun values => ∀ value ∈ values, kind value) (Reader.many reader) :=
  iterate (nothing (by simp)) gives.another

theorem separatedBy (gives : Gives window kind reader) {separator : Reader β}
    (gives' : GivesAny window separator) :
    Gives window (fun values => ∀ value ∈ values, kind value)
      (Reader.separatedBy separator reader) := by
  refine iterate (gives.bind fun value hvalue => pure ?_) fun values hvalues =>
    skip gives' fun _ => gives.another values hvalues
  simpa using hvalue

/-! ### Lexemes, slices and rows -/

theorem lexeme {taken : Lexeme} (tight : taken.Tight) :
    Gives window (Takes window.source taken) (Reader.lexeme taken) := by
  intro place sound reading hreading _
  obtain ⟨gap, _, length, hlength, rfl⟩ := exists_of_reads_lexeme hreading
  refine ⟨?_, (sound.advance gap).text_suffix, hlength⟩
  rw [sound.advance_text] at hlength
  have hfront := tight _ _ hlength
  have hgap : gap ≤ place.text.length := by
    obtain ⟨front, rest, hsplit, _, htight⟩ := hfront
    have hfull := congrArg List.length hsplit
    have hpositive := List.length_pos_iff.mpr htight.ne_nil
    rw [List.length_drop, List.length_append] at hfull
    omega
  exact .of_front hgap hfront

theorem sign {spelling : String} (h : decide (Text.Tight spelling.toList) = true) :
    GivesAny window (Reader.sign spelling) :=
  skip (lexeme (Lexeme.tight_sign (of_decide_eq_true h))).any fun _ => pure trivial

theorem keyword {spelling : String} (h : decide (Text.Tight spelling.toList) = true) :
    GivesAny window (Reader.keyword spelling) :=
  skip (lexeme (Lexeme.tight_keyword (of_decide_eq_true h))).any fun _ => pure trivial

/-- A slice that is of no interest. -/
theorem sliced {reader : Reader (Slice → α)}
    (gives : Gives window (fun make => ∀ slice, kind (make slice)) reader) :
    Gives window kind (Reader.sliced reader) := by
  intro place sound reading hreading hlimit
  obtain ⟨before, hbefore, rfl⟩ := reads_sliced.mp hreading
  have hof := gives place sound before hbefore hlimit
  exact ⟨hof.spans, hof.kind _⟩

theorem counted (gives : Gives window kind reader) :
    Gives window kind (Reader.counted reader) := by
  intro place sound reading hreading hlimit
  obtain ⟨before, hbefore, rfl⟩ := reads_counted.mp hreading
  have hof := gives place sound before hbefore hlimit
  exact ⟨hof.spans, hof.kind⟩

theorem pattern : Gives window (FormsSound window) Reader.pattern :=
  Yields.held fun _ sound => sound.pattern

theorem type : Gives window (FormsSound window) Reader.type :=
  Yields.held fun _ sound => sound.type

end Gives

end Reader

end EditableMarkup.Grammar
