import EditableMarkup.Proofs.Source.Elements

/-!
# Printed trees

A printable tree is printed as marked text: an element or a fragment that is
read back as the tree without the attributes that are off.
-/

namespace EditableMarkup.Source

open EditableMarkup.Grammar

variable {free : Prop}

/-! ## Lines of children -/

/-- What stands in front of every line at some depth. -/
def lineGap (indent : Int) (depth : Nat) : List Char :=
  '\n' :: (margin indent depth).toList

/-- Lines, each behind a line end. -/
def lineChars (lines : List String) : List Char :=
  lines.flatMap fun line => '\n' :: line.toList

theorem isSpace_lineGap (indent : Int) (depth : Nat) :
    ∀ c ∈ lineGap indent depth, Lexeme.isSpace c = true := by
  intro c hc
  rw [lineGap, margin, String.toList_ofList] at hc
  rcases List.mem_cons.mp hc with rfl | hc
  · rfl
  · rw [(List.mem_replicate.mp hc).2]
    rfl

theorem toList_intercalate_lines (first : String) (rest : List String) :
    '\n' :: ("\n".intercalate (first :: rest)).toList = lineChars (first :: rest) := by
  induction rest generalizing first with
  | nil => simp [lineChars]
  | cons second rest ih =>
      have hrest := ih second
      rw [String.intercalate_cons_cons, String.toList_append, String.toList_append]
      rw [lineChars, List.flatMap_cons, ← lineChars, ← hrest]
      simp

/-- A text is one line, as it stands or in braces. -/
theorem lines_text {behind gap chars : List Char} (hgap : ∀ c ∈ gap, Lexeme.isSpace c = true)
    {kinds : List (Child Form → Prop)} {text : String} (hblank : Text.isBlankText text = false)
    (lines : LinesBefore free behind true chars kinds) (behindText : Bool) :
    LinesBefore free behind behindText
      (gap ++ ((if behindText then braced (Literal.quoted text) else printText text).toList ++ chars))
      ((ChildMeans · (.text text)) :: kinds) := by
  have hbraced : LinesBefore free behind behindText
      (gap ++ ((braced (Literal.quoted text)).toList ++ chars))
      ((ChildMeans · (.text text)) :: kinds) := by
    have hstring := @LinesBefore.braces free behind gap hgap behindText true (.string text)
      (ChildMeans · (.text text)) _ _ trivial
      (fun form hform => childMeans_string hform) lines
    simpa [braced, Value.print] using hstring
  cases behindText with
  | true => exact hbraced
  | false =>
      rw [if_neg Bool.false_ne_true, printText]
      split
      · exact hbraced
      · next hsafe =>
          exact .text hgap (raw_of_isUnsafeText (Bool.eq_false_iff.mpr hsafe)) hblank lines

/-! ## Layouts -/

/-- The node has children that do not stand on one line with it. -/
theorem printAt_lines {indent : Int} {depth : Nat} {tag : Tag} {attributes : Entries Value}
    {contents : List (Content Node)} {id : String} (hne : contents ≠ [])
    (hsingle : ∀ name text, tag = .named name → contents ≠ [.text text]) :
    Node.printAt indent depth ⟨tag, attributes, contents, id⟩ =
      margin indent depth ++ Node.opening tag attributes ++ ">\n" ++
        "\n".intercalate (Node.printChildren indent (depth + 1) false contents) ++ "\n" ++
        margin indent depth ++ Node.closing tag := by
  rw [Node.printAt]
  · exact hne
  · intro name text htag hcontents
    exact hsingle name text htag hcontents

/-- The lines of children that are there, behind one line end. -/
theorem toList_printLines {contents : List (Content Node)} (hne : contents ≠ []) {indent : Int}
    {depth : Nat} {behindText : Bool} :
    '\n' :: ("\n".intercalate (Node.printChildren indent depth behindText contents)).toList =
      lineChars (Node.printChildren indent depth behindText contents) := by
  obtain ⟨child, rest, rfl⟩ := List.exists_cons_of_ne_nil hne
  cases child with
  | node node => exact toList_intercalate_lines _ _
  | text text => exact toList_intercalate_lines _ _
  | expression source => exact toList_intercalate_lines _ _

theorem toList_opening {name : String} {attributes : Entries Value}
    (hattributes : AttributesLegible free (.named name) attributes) :
    (Node.opening (.named name) attributes).toList =
      '<' :: (name.toList ++ (Entries.kept attributes).flatMap attributeChars) := by
  rw [Node.opening, String.toList_append, String.toList_append,
    toList_printAttributes hattributes.names]
  rfl

section Layout

variable {attributes : Entries Value} {contents : List (Content Node)} {id : String}

/-- A fragment is printed as marked text, if its children are. -/
theorem exists_marked_fragment
    (hlegible : Node.Legible free ⟨.fragment, attributes, contents, id⟩) {indent : Int}
    {depth : Nat}
    (lines : Lines free false
      (lineChars (Node.printChildren indent (depth + 1) false contents)) contents) :
    ∃ front, (Node.printAt indent depth ⟨.fragment, attributes, contents, id⟩).toList =
        (margin indent depth).toList ++ front ∧
      Marked free front ⟨.fragment, attributes, contents, id⟩ := by
  by_cases hne : contents = []
  · subst hne
    have hmarked := marked_fragment hlegible
      (@Lines.enclosed free false [] [] .nil [] (by simp))
    refine ⟨_, ?_, hmarked⟩
    rw [Node.printAt, String.toList_append]
    simp [Node.printEmpty]
  · have hmarked := marked_fragment hlegible
      (lines.enclosed (isSpace_lineGap indent depth))
    refine ⟨_, ?_, hmarked⟩
    rw [printAt_lines hne (by simp), ← toList_printLines hne]
    simp [Node.opening, Node.closing, lineGap]

/-- Between the tags of a printed element stand its children: a text on one line with the tags, or
lines in front of the line of the closing tag. -/
theorem exists_enclosed {name : String}
    (hlegible : Node.Legible free ⟨.named name, attributes, contents, id⟩) (hne : contents ≠ [])
    {indent : Int} {depth : Nat} (lines : Lines free false
      (lineChars (Node.printChildren indent (depth + 1) false contents)) contents) :
    ∃ inner, (Node.printAt indent depth ⟨.named name, attributes, contents, id⟩).toList =
        (margin indent depth).toList ++ '<' :: (name.toList ++
          ((Entries.kept attributes).flatMap attributeChars ++
            '>' :: (inner ++ '<' :: '/' :: (name.toList ++ ['>'])))) ∧
      Enclosed free inner contents ∧
      ((∃ text, inner = (printText text).toList) ∨ ∃ front, inner = front ++ lineGap indent depth) := by
  have hopening := toList_opening hlegible.2.1
  by_cases hsingle : ∃ text, contents = [.text text]
  · obtain ⟨text, rfl⟩ := hsingle
    have hblank : Text.isBlankText text = false := hlegible.2.2.1
    have hline : Lines free false ([] ++ ((printText text).toList ++ [])) [.text text] :=
      fun behind => @lines_text free behind [] [] (by simp) [] text hblank .nil false
    have henclosed : Enclosed free ((printText text).toList) [.text text] := by
      simpa using @Lines.enclosed free _ _ _ hline [] (by simp)
    refine ⟨_, ?_, henclosed, .inl ⟨text, rfl⟩⟩
    rw [Node.printAt]
    simp only [String.toList_append, hopening, Node.closing]
    simp
  · refine ⟨_, ?_, lines.enclosed (isSpace_lineGap indent depth), .inr ⟨_, rfl⟩⟩
    rw [printAt_lines hne fun _ text _ heq => hsingle ⟨text, heq⟩]
    simp only [String.toList_append, hopening, Node.closing]
    rw [← toList_printLines hne]
    simp [lineGap]

/-- An element is printed as marked text, if its children are. -/
theorem exists_marked_element {name : String}
    (hlegible : Node.Legible free ⟨.named name, attributes, contents, id⟩) {indent : Int}
    {depth : Nat} (lines : Lines free false
      (lineChars (Node.printChildren indent (depth + 1) false contents)) contents) :
    ∃ front, (Node.printAt indent depth ⟨.named name, attributes, contents, id⟩).toList =
      (margin indent depth).toList ++ front ∧
      Marked free front ⟨.named name, attributes, contents, id⟩ := by
  by_cases hne : contents = []
  · subst hne
    refine ⟨_, ?_, marked_selfClosed hlegible⟩
    rw [Node.printAt, String.toList_append, Node.printEmpty, String.toList_append,
      toList_opening hlegible.2.1]
    simp
  · obtain ⟨inner, hprint, henclosed, _⟩ := exists_enclosed hlegible hne lines
    exact ⟨_, hprint, marked_element hlegible henclosed⟩

end Layout

/-! ## Trees -/

mutual

/-- A printable node is printed as marked text behind its margin. -/
theorem exists_marked : (node : Node) → node.Legible free → ∀ indent depth,
    ∃ front, (node.printAt indent depth).toList = (margin indent depth).toList ++ front ∧
      Marked free front node
  | ⟨.fragment, _, contents, _⟩, hlegible, indent, depth => by
    refine exists_marked_fragment hlegible fun behind => ?_
    have hlines := @lines_printChildren contents hlegible.2.2 indent (depth + 1) false behind [] []
      fun _ => .nil
    rwa [List.append_nil, List.append_nil] at hlines
  | ⟨.named _, _, contents, _⟩, hlegible, indent, depth => by
    refine exists_marked_element hlegible fun behind => ?_
    have hlines := @lines_printChildren contents hlegible.2.2 indent (depth + 1) false behind [] []
      fun _ => .nil
    rwa [List.append_nil, List.append_nil] at hlines

/-- Printable children are printed as lines in front of other lines. -/
theorem lines_printChildren : (contents : List (Content Node)) →
    Node.ChildrenLegible free contents → ∀ indent depth behindText {behind chars : List Char}
    {kinds : List (Child Form → Prop)}, (∀ flag, LinesBefore free behind flag chars kinds) →
    LinesBefore free behind behindText
      (lineChars (Node.printChildren indent depth behindText contents) ++ chars)
      (meanings contents ++ kinds)
  | [], _, _, _, behindText, _, _, _, lines => lines behindText
  | .text text :: rest, hlegible, indent, depth, behindText, _, _, _, lines => by
    have hrest := lines_printChildren rest hlegible.2 indent depth true lines
    have hlines := lines_text (isSpace_lineGap indent depth) hlegible.1 hrest behindText
    rw [Node.printChildren, lineChars, List.flatMap_cons, ← lineChars, meanings_cons]
    simpa [lineGap] using hlines
  | .expression source :: rest, hlegible, indent, depth, behindText, _, _, _, lines => by
    have hrest := lines_printChildren rest hlegible.2 indent depth false lines
    have hlines := @LinesBefore.braces free _ _ (isSpace_lineGap indent depth) behindText false
      (.expression source) (ChildMeans · (.expression source)) _ _ hlegible.1
      (fun form hform => childMeans_expression hform) hrest
    rw [Node.printChildren, lineChars, List.flatMap_cons, ← lineChars, meanings_cons]
    simpa [lineGap, braced, Value.print] using hlines
  | .node node :: rest, hlegible, indent, depth, behindText, behind, _, _, lines => by
    have hrest := lines_printChildren rest hlegible.2 indent depth false lines
    obtain ⟨front, hfront, hmarked⟩ := exists_marked node hlegible.1 indent depth
    have hlines := @LinesBefore.markup free behind _ (isSpace_lineGap indent depth) behindText _ _ _
      (ChildMeans · (.node node)) _ _ (hmarked _) (fun _ => .markup) hrest
    rw [Node.printChildren, lineChars, List.flatMap_cons, ← lineChars, hfront, meanings_cons]
    simpa [lineGap] using hlines

end

/-- Printable children are printed as lines. -/
theorem lines_of_printable {contents : List (Content Node)}
    (hlegible : Node.ChildrenLegible free contents) (indent : Int) (depth : Nat)
    (behindText : Bool) :
    Lines free behindText (lineChars (Node.printChildren indent depth behindText contents))
      contents := by
  intro behind
  have hlines := @lines_printChildren free contents hlegible indent depth behindText behind [] []
    fun _ => .nil
  rwa [List.append_nil, List.append_nil] at hlines

/-- A printable tree is printed as marked text. -/
theorem marked_print {node : Node} (hlegible : node.Legible free) (indent : Int) :
    Marked free (node.print indent).toList node := by
  obtain ⟨front, hfront, hmarked⟩ := exists_marked node hlegible indent 0
  have hmargin : (margin indent 0).toList = [] := by simp [margin]
  rw [hmargin, List.nil_append] at hfront
  rw [Node.print, hfront]
  exact hmarked

end EditableMarkup.Source
