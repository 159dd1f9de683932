import EditableMarkup.Proofs.Reading.Columns
import EditableMarkup.Proofs.Source.Meaning

/-!
# Expressions that stand alone

An expression is printed word for word, so it is read back only if nothing but
itself can be read from its text.  Such a text spells a value: in front of a
comma or a closing sign it is read up to its end with the value as its meaning,
and any shorter reading stops where no sign closes it.
-/

namespace EditableMarkup.Source

open EditableMarkup.Grammar EditableMarkup.Grammar.Reader EditableMarkup.Grammar.Place

variable {free : Prop}

/-- A text starts with a visible sign that neither closes brackets nor spreads a value. -/
structure Opening (front : List Char) : Prop where
  firm : ∀ rest, Lexeme.skipped (front ++ rest) = none
  barred : ∀ rest, Barred [Lexeme.sign "\x7d", Lexeme.sign ")", Lexeme.sign "..."] (front ++ rest)

theorem opening_of_head {c : Char} {front : List Char}
    (h : Lexeme.isSpace c = false ∧ c ≠ '/' ∧ c ≠ '\x7d' ∧ c ≠ ')' ∧ c ≠ '.') :
    Opening (c :: front) where
  firm rest := Lexeme.skipped_cons_eq_none h.1 h.2.1 _
  barred rest := by
    obtain ⟨_, _, hbrace, hparen, hpoint⟩ := h
    have hsign {spelling : String} {d : Char} (hd : spelling.toList.head?.any (· == d) = true)
        (hother : c ≠ d) : Lexeme.sign spelling (c :: (front ++ rest)) = none :=
      Lexeme.sign_eq_none_of_head hd (beq_eq_false_iff_ne.mpr hother)
    simp only [List.cons_append, barred_cons, barred_nil, and_true]
    exact ⟨hsign rfl hbrace, hsign rfl hparen, hsign rfl hpoint⟩

theorem Opening.ne_nil {front : List Char} (h : Opening front) : front ≠ [] := by
  rintro rfl
  exact absurd (h.firm [' ']) (by decide)

/-- A text spells a value: behind any spaces and in front of a comma or a closing sign it is read as
a form that means the value, or else up to a place where no sign closes it. -/
structure Spells (free : Prop) (text : List Char) (value : Value) : Prop where
  opening : Opening text
  offers : ∀ blank rest : List Char, (∀ c ∈ blank, Lexeme.isSpace c = true) → Closed rest →
    rest ≠ [] → Offers free Reader.assignment (of (blank ++ text ++ rest)) (blank ++ text).length
      (Means · value) Unclosed

/-- A text holds an expression: behind any spaces and in front of a comma or a closing sign it is
read as a form that obeys the rules on markup, or else up to a place where no sign closes it. -/
structure Holds (free : Prop) (text : List Char) : Prop where
  opening : Opening text
  offers : ∀ blank rest : List Char, (∀ c ∈ blank, Lexeme.isSpace c = true) → Closed rest →
    rest ≠ [] → Offers free Reader.assignment (of (blank ++ text ++ rest)) (blank ++ text).length
      Tidy Unclosed

theorem Spells.holds {text : List Char} {value : Value} (spells : Spells free text value) :
    Holds free text where
  opening := spells.opening
  offers blank rest hblank closed hne :=
    (spells.offers blank rest hblank closed hne).imp fun _ hform => hform.tidy

/-- An expression stands alone: its text spells nothing but itself. -/
abbrev StandsAlone (free : Prop) (source : String) : Prop :=
  Spells free source.toList (.expression source)

/-- What is read up to a closed end or in front of a sign that goes on with a call is read up to a
closed end. -/
theorem Offers.unclosed {α : Type} {reader : Reader α} {front rest : List Char} {kind : α → Prop}
    (offers : Offers free reader (of (front ++ rest)) front.length kind Linked)
    (closed : Closed rest)
    (hne : rest ≠ []) : Offers free reader (of (front ++ rest)) front.length kind Unclosed := by
  refine offers.deader (fun _ => Linked.unclosed) ?_
  rw [advance_of, List.drop_left]
  exact closed.not_unclosed hne

end EditableMarkup.Source

namespace EditableMarkup

open Source

/-- A value whose numbers are finite and can be written and whose expressions stand alone. -/
abbrev Value.Legible (free : Prop) : Value → Prop := Value.PrintableWith (StandsAlone free)

/-- The attributes of a node with a tag are printable, with expressions that stand alone. -/
abbrev AttributesLegible (free : Prop) (tag : Tag) (attributes : Entries Value) : Prop :=
  AttributesPrintableWith (StandsAlone free) tag attributes

/-- A node whose tag, attributes and children are printable, with expressions that stand alone. -/
abbrev Node.Legible (free : Prop) : Node → Prop := Node.PrintableWith (StandsAlone free)

/-- Children that are no blank texts, whose expressions stand alone and whose nodes are legible. -/
abbrev Node.ChildrenLegible (free : Prop) : List (Content Node) → Prop :=
  Node.ChildrenPrintableWith (StandsAlone free)

end EditableMarkup
