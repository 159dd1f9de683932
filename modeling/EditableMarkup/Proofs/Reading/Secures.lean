import EditableMarkup.Proofs.Reading.Gaps
import EditableMarkup.Proofs.Reading.Passes

/-!
# Readings that are secured

A construct around a text has to keep the reading of the text for its own end,
and all its other readings have to lead into the last part of the source.  Both
go from a construct to the construct around it: the words and signs in front
leave no choice, and in front of the sign behind it no comment can end.
-/

namespace EditableMarkup.Grammar.Reader

open Reading Place

variable {α β : Type}

/-- A reader secures a reading: it keeps it, and all its readings lead into a part of the text. -/
structure Secures (reader : Reader α) (place : Place) (used : Nat) (kind : α → Prop)
    (part : Nat → Prop) : Prop where
  keeps : Keeps reader place used 0 kind
  passes : Passes reader place part

section Secures

variable {reader : Reader α} {place : Place} {used used' : Nat} {kind : α → Prop}
  {kind' : β → Prop} {part : Nat → Prop}

theorem Secures.imp {kind' : α → Prop} (secures : Secures reader place used kind part)
    (h : ∀ value, kind value → kind' value) : Secures reader place used kind' part :=
  ⟨secures.keeps.imp h, secures.passes⟩

/-- The same readings from another place of the same length. -/
theorem Secures.transfer (secures : Secures reader place used kind part) {reader' : Reader α}
    {place' : Place} (h : reader' place' = reader place) (hlength : place'.length = place.length) :
    Secures reader' place' used kind part :=
  ⟨secures.keeps.transfer h, secures.passes.transfer h hlength⟩

theorem Secures.sliced {reader : Reader (Slice → α)} {kind : α → Prop}
    (secures : Secures reader place used (fun make => ∀ slice, kind (make slice)) part) :
    Secures (Reader.sliced reader) place used kind part :=
  ⟨secures.keeps.sliced, secures.passes.sliced⟩

/-- What settles in front of the part is secured. -/
theorem Offers.secures (settles : Settles True reader place used kind)
    (h : part (place.length - used)) :
    Secures reader place used kind part :=
  ⟨settles.keeps, settles.passes h⟩

/-- Behind a reader without a choice, what the second reader secures is secured. -/
theorem Offers.bindSecures (settles : Settles True reader place used kind) {second : α → Reader β}
    (next : ∀ value, kind value →
      Secures (second value) (place.advance used) used' kind' part) :
    Secures (reader >>= second) place (used + used') kind' part :=
  ⟨settles.bindKeeps fun value hvalue => (next value hvalue).keeps,
    settles.bindPasses fun value hvalue => (next value hvalue).passes⟩

theorem Secures.returning (closing : Closing part) (secures : Secures reader place used kind part)
    {f : α → β} (h : ∀ value, kind value → kind' (f value)) :
    Secures (reader >>= fun value => Pure.pure (f value)) place used kind' part :=
  ⟨secures.keeps.returning h, secures.passes.bind closing⟩

/-- What one of several readers secures is secured, if all others fail. -/
theorem Secures.choose {readers : List (Reader α)} (secures : Secures reader place used kind part)
    (hreader : reader ∈ readers)
    (hothers : ∀ other ∈ readers, other = reader ∨ Fails other place) :
    Secures (Reader.oneOf readers) place used kind part := by
  refine ⟨secures.keeps.choose hreader hothers, passes_oneOf fun other hother => ?_⟩
  rcases hothers other hother with rfl | hfails
  · exact secures.passes
  · exact hfails.passes

end Secures

/-! ## In front of a sign -/

section Sign

variable {reader : Reader α} {place : Place} {used : Nat} {kind : α → Prop} {kind' : β → Prop}
  {before blank rest : List Char} {c d : Char} {spelling : String}

/-- Behind some characters, a mark stands in front of another one in the same line. -/
structure Marks (before : List Char) (c : Char) (blank : List Char) (d : Char) : Prop where
  first : IsMark c
  blank : ∀ e ∈ blank, e = ' '
  last : IsMark d

variable (marks : Marks before c blank d)
  (shows_ : place.Shows (before ++ (c :: (blank ++ [d]) ++ rest)))
  (hspelling : spelling.toList = [d])

include marks shows_ hspelling

theorem Marks.settles_sign :
    Settles True (sign spelling) (place.advance (before.length + 1)) (blank.length + 1)
      fun _ => True := by
  have hspaces : ∀ e ∈ blank, Lexeme.isSpace e = true := by
    intro e he
    rw [marks.blank e he]
    rfl
  have hshown : (before ++ (c :: (blank ++ [d]) ++ rest)).drop (before.length + 1) =
      blank ++ (d :: rest) := by
    have hsplit : before ++ (c :: (blank ++ [d]) ++ rest) =
        (before ++ [c]) ++ (blank ++ (d :: rest)) := by simp
    rw [hsplit, show before.length + 1 = (before ++ [c]).length by simp, List.drop_left]
  have hfaces : (place.advance (before.length + 1)).Faces blank.length (d :: rest) := by
    rw [shows_.advance (by omega), hshown]
    exact .of_spaces hspaces (Lexeme.skipped_cons_eq_none marks.last.space marks.last.slash _)
  have hsign : Lexeme.sign spelling (d :: rest) = some 1 := by
    refine Lexeme.spelled_eq_some_iff.mpr ⟨?_, ?_⟩
    · rw [hspelling]
      exact ⟨rest, rfl⟩
    · rw [hspelling]
      rfl
  have hvisible : Lexeme.Visible spelling := by
    rw [Lexeme.Visible, hspelling]
    simp [marks.last.space]
  exact Reader.settles_sign hfaces hvisible hsign

/-- A sign behind a mark is read after what ends with the mark, and after nothing shorter. -/
theorem Keeps.closedBy (keeps : Keeps reader place used 0 kind) (hused : used = before.length + 1)
    {f : α → β} (h : ∀ value, kind value → kind' (f value)) :
    Keeps (reader >>= fun value => sign spelling >>= fun _ => Pure.pure (f value)) place
      (used + (blank.length + 1)) 0 kind' := by
  subst hused
  refine keeps.bind (fun value hvalue => ?_) fun nearer _ hless other hother => ?_
  · exact ((marks.settles_sign shows_ hspelling).returning fun _ _ => h value hvalue).keeps
  · obtain ⟨sign, hsign, hused, _⟩ := exists_of_reads_returning hother
    rw [hused]
    exact used_ne_of_mark marks.first marks.blank marks.last shows_ (by rw [hspelling]; rfl)
      (Nat.le_of_lt_succ hless) hsign

/-- The same for a sign that could be missing. -/
theorem Keeps.endedBy (keeps : Keeps reader place used 0 kind) (hused : used = before.length + 1)
    {f : α → β} (h : ∀ value, kind value → kind' (f value)) :
    Keeps (reader >>= fun value => Rule.optionalSign spelling >>= fun _ => Pure.pure (f value)) place
      (used + (blank.length + 1)) 0 kind' := by
  subst hused
  have hoptional : Keeps (Rule.optionalSign spelling) (place.advance (before.length + 1))
      (blank.length + 1) 0 fun _ => True :=
    (marks.settles_sign shows_ hspelling).keeps.first
  refine keeps.bind (fun value hvalue => ?_) fun nearer _ hless other hother => ?_
  · exact hoptional.returning fun _ _ => h value hvalue
  · obtain ⟨sign, hsign, hused, _⟩ := exists_of_reads_returning hother
    obtain ⟨reader, hreader, hreads⟩ := exists_of_reads_oneOf hsign
    simp only [List.mem_cons, List.not_mem_nil, or_false] at hreader
    rw [hused]
    rcases hreader with rfl | rfl
    · exact used_ne_of_mark marks.first marks.blank marks.last shows_ (by rw [hspelling]; rfl)
        (Nat.le_of_lt_succ hless) hreads
    · rw [reads_nothing.mp hreads]
      change nearer.used + 0 ≠ _
      omega

end Sign

end EditableMarkup.Grammar.Reader
