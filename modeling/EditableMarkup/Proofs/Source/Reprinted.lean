import EditableMarkup.Proofs.Source.Callbacks
import EditableMarkup.Proofs.Source.Parsed
import EditableMarkup.Proofs.Source.Reparsed

/-!
# Parsed trees are parsed back

The tree of a source is printed, and its text is parsed as the same tree without
the attributes that are off.  Three things that parsing lets through are not
printed so that they can be read back: a number beyond all doubles is printed as a
name, an integer with too many digits is not printed at all, and an expression that
does not stand alone may be read in another way in the line that it is printed in.
Statements in an expression count as a cost, which matters only where the text may
be read as an arrow function as well.
-/

namespace EditableMarkup.Source

section Reprinted

variable {levels : Nat} {text : String} {supply after : Supply} {tree : Node}

/-- The tree of a source is printable, if it is simple and can be written. -/
theorem printable_of_parseWithin {accepts : String → Prop}
    (hparse : parseWithin levels text supply = .ok (tree, after))
    (simple : SimpleWith accepts tree) (hwritable : tree.isWritable = true) :
    tree.PrintableWith accepts :=
  have parsed := parsed_of_parseWithin hparse
  printable_of_regular parsed.built parsed.regular simple hwritable

end Reprinted

/-- Two texts are parsed as trees that are not the same, and the first tree is printed as the second
text. -/
def isChanged (text printed : String) : Bool :=
  isParsed text fun tree =>
    tree.isWritable && tree.print 2 == printed &&
      isParsed printed fun found => !found.same tree.withoutOff

theorem exists_of_isChanged {text printed : String} (h : isChanged text printed = true) :
    ∃ tree after, parse text ⟨0⟩ = .ok (tree, after) ∧ tree.serialize 2 = .ok printed ∧
      ∃ found later, parse printed ⟨0⟩ = .ok (found, later) ∧
        found.same tree.withoutOff = false := by
  unfold isChanged isParsed at h
  split at h
  · next tree after hparse =>
      split at h
      · next found later hagain =>
          simp only [Bool.and_eq_true, Bool.not_eq_true', beq_iff_eq] at h
          obtain ⟨⟨hwritable, hprint⟩, hsame⟩ := h
          refine ⟨tree, after, hparse, ?_, found, later, hagain, hsame⟩
          rw [Node.serialize, if_pos hwritable, hprint]
      · simp at h
  · cases h

/-- An expression with an apostrophe in markup, and a string that closes it. -/
def hiddenSource : String :=
  "<p a=\x7b() => \x7bx <b>it's</b> y z \x7d\x7d\nc=\"' \x7d\x7d /> //\"\n/>"

/-- How it is printed: in one line. -/
def hiddenMarkup : String :=
  "<p a=\x7b() => \x7bx <b>it's</b> y z \x7d\x7d c=\"' \x7d\x7d /> //\" />"

/-- In one line, the apostrophes are the quotes of a string, behind which the element ends, and what
is left is a comment. -/
theorem parse_hiddenSource :
    ∃ tree after, parse hiddenSource ⟨0⟩ = .ok (tree, after) ∧
      tree.serialize 2 = .ok hiddenMarkup ∧
      ∃ found later, parse hiddenMarkup ⟨0⟩ = .ok (found, later) ∧
        found.same tree.withoutOff = false :=
  exists_of_isChanged (by decide +kernel)

end EditableMarkup.Source
