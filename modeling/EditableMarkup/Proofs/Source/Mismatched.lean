import EditableMarkup.Proofs.Source.Answers
import EditableMarkup.Proofs.Source.Reparsed
import EditableMarkup.Tree.Locate

/-!
# Closing tags with another name

A printed element with children ends with a closing tag.  If the name in this
tag is exchanged for another one, at any depth of a printed tree, the grammar
still reads the text, and the first rule that is violated in it is that of the
exchanged name.  All attempts to read the text end there, so that the diagnostic
is about this name.
-/

namespace EditableMarkup.Source

open EditableMarkup.Grammar EditableMarkup.Grammar.Reader EditableMarkup.Grammar.Place
open EditableMarkup.Grammar.Rule

variable {free : Prop}

/-! ## The first violation -/

/-- Of what occurs, a closing tag of one word is the first to violate a rule: it has another name than
the opening tag. -/
def BreaksAt (opening : String) (closing : Slice) (found : List Occurrence) : Prop :=
  closing.text ≠ opening ∧ ∃ before slice name attributes children behind,
    found = before ++
      .form (.element slice name attributes children (.simple closing)) :: behind ∧
    name.text = opening ∧
    ∀ occurrence ∈ before, ∀ source, violation? source occurrence = none

section Breaks

variable {opening : String} {closing : Slice} {found : List Occurrence}

theorem BreaksAt.append (h : BreaksAt opening closing found) (more : List Occurrence) :
    BreaksAt opening closing (found ++ more) := by
  obtain ⟨hother, before, slice, name, attributes, children, behind, rfl, hname, hbefore⟩ := h
  exact ⟨hother, before, slice, name, attributes, children, behind ++ more, by simp, hname, hbefore⟩

theorem BreaksAt.behind (h : BreaksAt opening closing found) {front : List Occurrence}
    (hfront : ∀ occurrence ∈ front, ∀ source, violation? source occurrence = none) :
    BreaksAt opening closing (front ++ found) := by
  obtain ⟨hother, before, slice, name, attributes, children, behind, rfl, hname, hbefore⟩ := h
  refine ⟨hother, front ++ before, slice, name, attributes, children, behind, by simp, hname, ?_⟩
  exact List.forall_mem_append.mpr ⟨hfront, hbefore⟩

theorem BreaksAt.findSome? (h : BreaksAt opening closing found) (source : List Char) :
    found.findSome? (violation? source) =
      some (.mismatchedClosing (positionOf source closing) opening) := by
  obtain ⟨hother, before, slice, name, attributes, children, behind, rfl, rfl, hbefore⟩ := h
  have hnone : before.findSome? (violation? source) = none :=
    List.findSome?_eq_none_iff.mpr fun occurrence hoccurrence => hbefore occurrence hoccurrence source
  have hnames : ¬ name.text = ElementName.text (.simple closing) := fun heq => hother heq.symm
  rw [List.findSome?_append, hnone, Option.none_or, List.findSome?_cons, violation?, if_neg hnames]
  rfl

/-- Forms that are read but break a rule are refused. -/
theorem formsOf_of_breaksAt {reader : Reader (List Form)} {source : List Char} {forms : List Form}
    (hread : readWhole reader (of source) = .ok forms)
    (h : BreaksAt opening closing (occurrencesIn forms)) :
    formsOf reader source = .error (.mismatchedClosing (positionOf source closing) opening) := by
  rw [formsOf, hread]
  simp only [h.findSome? source]

/-! ## From the inside to the outside -/

/-- A child is markup in which a rule is broken. -/
def ChildBreaks (opening : String) (closing : Slice) (child : Child Form) : Prop :=
  ∃ form, child = .markup form ∧ BreaksAt opening closing (occurrences form)

/-- What is broken in a child behind others is broken in the children. -/
theorem breaksAt_children {front : List (Content Node)} {later : List (Child Form → Prop)}
    {children : List (Child Form)}
    (h : AreOf children (meanings front ++ ChildBreaks opening closing :: later)) :
    BreaksAt opening closing (occurrencesInChildren children) := by
  induction front generalizing children with
  | nil =>
      cases h with
      | cons hchild hrest =>
          obtain ⟨form, rfl, hform⟩ := hchild
          exact hform.append _
  | cons content front ih =>
      rw [meanings_cons] at h
      cases h with
      | cons hchild hrest =>
          have hbelow := ih hrest
          cases hchild with
          | text htext => exact hbelow
          | braces htidy hcontent hplain => exact hbelow.behind htidy
          | markup stands => exact hbelow.behind stands.tidy

theorem breaksAt_fragment {slice : Slice} {children : List (Child Form)}
    (h : BreaksAt opening closing (occurrencesInChildren children)) :
    BreaksAt opening closing (occurrences (.fragment slice children)) := by
  have hform : ∀ occurrence ∈ [Occurrence.form (.fragment slice children)], ∀ source,
      violation? source occurrence = none := List.forall_mem_singleton.mpr fun _ => rfl
  rw [occurrences]
  exact h.behind hform

/-- What is broken in the children of an element with matching tags is broken in the element. -/
theorem breaksAt_element {slice : Slice} {name ending : ElementName} (hsame : name.text = ending.text)
    {forms : List (Attribute Form)} {entries : Entries Value}
    (hforms : List.Forall₂ AttributeMeans forms entries) {children : List (Child Form)}
    (h : BreaksAt opening closing (occurrencesInChildren children)) :
    BreaksAt opening closing (occurrences (.element slice name forms children ending)) := by
  have hform : ∀ occurrence ∈ [Occurrence.form (.element slice name forms children ending)],
      ∀ source, violation? source occurrence = none := by
    refine List.forall_mem_singleton.mpr fun source => ?_
    rw [violation?, if_pos hsame]
  rw [occurrences]
  exact (h.behind (tidy_attributes hforms)).behind hform

end Breaks

end EditableMarkup.Source

/-! ## The text around a node -/

namespace EditableMarkup.Node

open EditableMarkup.Source

/-- The text around the node at the end of a path in a tree that is printed at some depth: what stands
in front of the line of the node, and what stands behind the node. -/
def around (indent : Int) (depth : Nat) : Node → List Nat → List Char × List Char
  | _, [] => ([], [])
  | ⟨tag, attributes, children, _⟩, position :: path =>
    match children[position]? with
    | some (.node child) =>
      ((margin indent depth).toList ++ (opening tag attributes).toList ++ '>' ::
          lineChars (printChildren indent (depth + 1) false (children.take position)) ++
          '\n' :: (around indent (depth + 1) child path).1,
        (around indent (depth + 1) child path).2 ++
          lineChars (printChildren indent (depth + 1) false (children.drop (position + 1))) ++
          '\n' :: (margin indent depth ++ closing tag).toList)
    | _ => ([], [])

theorem printChildren_append {indent : Int} {depth : Nat} {behindText : Bool}
    (front : List (Content Node)) (child : Node) (back : List (Content Node)) :
    printChildren indent depth behindText (front ++ .node child :: back) =
      printChildren indent depth behindText front ++
        child.printAt indent depth :: printChildren indent depth false back := by
  induction front generalizing behindText with
  | nil => rfl
  | cons content front ih =>
      cases content with
      | node first =>
          rw [List.cons_append, printChildren, printChildren, ih]
          rfl
      | text text =>
          rw [List.cons_append, printChildren, printChildren, ih]
          rfl
      | expression source =>
          rw [List.cons_append, printChildren, printChildren, ih]
          rfl

/-- A list is split around one of its elements. -/
theorem split_of_getElem? {contents : List (Content Node)} {position : Nat} {child : Node}
    (h : contents[position]? = some (.node child)) :
    contents = contents.take position ++ .node child :: contents.drop (position + 1) := by
  obtain ⟨hposition, hget⟩ := List.getElem?_eq_some_iff.mp h
  rw [← hget, ← List.drop_eq_getElem_cons hposition, List.take_append_drop]

/-- The nodes in a printable tree are printable. -/
theorem PrintableWith.at? {accepts : String → Prop} {tree node : Node}
    (h : tree.PrintableWith accepts) {path : List Nat}
    (hat : tree.at? path = some node) : node.PrintableWith accepts := by
  induction path generalizing tree with
  | nil =>
      cases hat
      exact h
  | cons position path ih =>
      obtain ⟨tag, attributes, contents, id⟩ := tree
      obtain ⟨child, hchild, hnode⟩ := at?_cons_eq_some_iff.mp hat
      have hchild : contents[position]? = some (.node child) := hchild
      have hcontents : ChildrenPrintableWith accepts contents := h.2.2
      rw [split_of_getElem? hchild, childrenPrintable_append] at hcontents
      exact ih hcontents.2.1 hnode

/-- A node with a node among its children is printed in lines. -/
theorem toList_printAt_lines {indent : Int} {depth : Nat} {tag : Tag} {attributes : Entries Value}
    {contents : List (Content Node)} {id : String} {position : Nat} {child : Node}
    (h : contents[position]? = some (.node child)) :
    (printAt indent depth ⟨tag, attributes, contents, id⟩).toList =
      (margin indent depth).toList ++ (opening tag attributes).toList ++ '>' ::
        (lineChars (printChildren indent (depth + 1) false contents) ++
          '\n' :: (margin indent depth ++ closing tag).toList) := by
  have hne : contents ≠ [] := by
    rintro rfl
    cases h
  have hsingle : ∀ name text, tag = .named name → contents ≠ [.text text] := by
    rintro name text - rfl
    rcases position with _ | position <;> cases h
  rw [printAt_lines hne hsingle, ← toList_printLines hne]
  simp

/-- The lines of children around the line of a node. -/
theorem lineChars_printChildren {indent : Int} {depth : Nat} {contents : List (Content Node)}
    {position : Nat} {child : Node} (h : contents[position]? = some (.node child)) :
    lineChars (printChildren indent depth false contents) =
      lineChars (printChildren indent depth false (contents.take position)) ++
        '\n' :: ((child.printAt indent depth).toList ++
          lineChars (printChildren indent depth false (contents.drop (position + 1)))) := by
  conv_lhs => rw [split_of_getElem? h, printChildren_append]
  simp [lineChars]

/-- The text around a node is around its print. -/
theorem toList_printAt_around {indent : Int} {tree node : Node} {path : List Nat}
    (h : tree.at? path = some node) (depth : Nat) {level : Nat} (hlevel : level = depth + path.length) :
    (tree.printAt indent depth).toList =
      (around indent depth tree path).1 ++
        ((node.printAt indent level).toList ++ (around indent depth tree path).2) := by
  induction path generalizing tree depth with
  | nil =>
      cases h
      obtain rfl : level = depth := hlevel
      rw [around, List.nil_append, List.append_nil]
  | cons position path ih =>
      obtain ⟨tag, attributes, contents, id⟩ := tree
      obtain ⟨child, hchild, hnode⟩ := at?_cons_eq_some_iff.mp h
      have hchild : contents[position]? = some (.node child) := hchild
      have hbelow := ih hnode (depth + 1) (by rw [hlevel, List.length_cons]; omega)
      rw [toList_printAt_lines hchild, lineChars_printChildren hchild, hbelow, around, hchild]
      simp

end EditableMarkup.Node

/-! ## The exchanged name -/

namespace EditableMarkup.Source

open EditableMarkup.Grammar EditableMarkup.Grammar.Reader EditableMarkup.Grammar.Place
open EditableMarkup.Grammar.Rule

/-- What an element with children is printed as behind its margin, up to the closing tag. -/
def elementFront (name : String) (attributes : Entries Value) (inner : List Char) : List Char :=
  '<' :: (name.toList ++ ((Entries.kept attributes).flatMap attributeChars ++ '>' :: inner))

section Exchanged

variable {name other : String} {attributes : Entries Value} {contents : List (Content Node)}
  {id : String} {inner : List Char}

/-- With another name in its closing tag an element is still read, but it breaks a rule. -/
theorem markedBefore_exchanged
    (hlegible : Node.Legible free ⟨.named name, attributes, contents, id⟩)
    (hother : IsMarkupName other) (hne : other ≠ name) (enclosed : Enclosed free inner contents)
    (rest : List Char) :
    MarkedBefore free (elementFront name attributes inner ++ '<' :: '/' :: (other.toList ++ ['>']))
      rest
      (fun form => BreaksAt name ⟨other.toList ++ '>' :: rest, other.toList.length⟩
        (occurrences form)) := by
  have hmarked := @markedBefore_element free inner rest attributes (meanings contents)
    (fun form => BreaksAt name ⟨other.toList ++ '>' :: rest, other.toList.length⟩
      (occurrences form)) name other hlegible.1 hother hlegible.2.1
    (enclosed _ (skipped_slash_markupName hother _)) ?_
  · simpa [elementFront] using hmarked
  · intro slice word forms children hword _ _
    refine ⟨?_, [], slice, .simple word, forms, children, _, rfl, hword, nofun⟩
    rwa [Slice.text_of_append, String.ofList_toList]

/-- What is broken below a node is broken in the node. -/
theorem markedBefore_broken {tag : Tag} {closing : Slice} {opening : String}
    (hlegible : Node.Legible free ⟨tag, attributes, contents, id⟩) {inner rest : List Char}
    {front : List (Content Node)} {later : List (Child Form → Prop)}
    (enclosed : ∀ behind, Lexeme.skipped ('/' :: behind) = none →
      '<' :: '/' :: behind = (Node.closing tag).toList ++ rest →
      EnclosedBefore free inner behind (meanings front ++ ChildBreaks opening closing :: later)) :
    MarkedBefore free ((Node.opening tag attributes).toList ++ '>' ::
      (inner ++ (Node.closing tag).toList))
      rest (fun form => BreaksAt opening closing (occurrences form)) := by
  cases tag with
  | fragment =>
      obtain rfl : attributes = [] := hlegible.2.1.fragment rfl
      exact @markedBefore_fragment free inner rest _
        (fun form => BreaksAt opening closing (occurrences form)) (enclosed ('>' :: rest) rfl rfl)
        fun _ _ hchildren => breaksAt_fragment (breaksAt_children hchildren)
  | named name =>
      have hname : IsMarkupName name := hlegible.1
      have hclosing : '<' :: '/' :: (name.toList ++ '>' :: rest) =
          (Node.closing (.named name)).toList ++ rest := by simp [Node.closing]
      have hmarked := @markedBefore_element free inner rest attributes _
        (fun form => BreaksAt opening closing (occurrences form)) name name hname hname
        hlegible.2.1 (enclosed _ (skipped_slash_markupName hname _) hclosing) ?_
      · rw [toList_opening hlegible.2.1]
        simpa [Node.closing] using hmarked
      · intro slice word forms children hword hforms hchildren
        refine breaksAt_element ?_ hforms (breaksAt_children hchildren)
        change word.text = Slice.text _
        rw [hword, Slice.text_of_append, String.ofList_toList]

/-- What is broken in the line of a child is broken in the node. -/
theorem markedBefore_lines {tag : Tag} {closing : Slice} {opening : String}
    (hlegible : Node.Legible free ⟨tag, attributes, contents, id⟩) (indent : Int) (depth : Nat)
    {position : Nat} {child : Node} (hchild : contents[position]? = some (.node child))
    {front rest : List Char}
    (hmarked : MarkedBefore free front
      (lineChars (Node.printChildren indent (depth + 1) false (contents.drop (position + 1))) ++
        (lineGap indent depth ++ ((Node.closing tag).toList ++ rest)))
      (fun form => BreaksAt opening closing (occurrences form))) :
    MarkedBefore free ((Node.opening tag attributes).toList ++ '>' ::
        (lineChars (Node.printChildren indent (depth + 1) false (contents.take position)) ++
          (lineGap indent (depth + 1) ++ (front ++
            lineChars (Node.printChildren indent (depth + 1) false (contents.drop (position + 1))))) ++
          lineGap indent depth ++ (Node.closing tag).toList))
      rest (fun form => BreaksAt opening closing (occurrences form)) := by
  have hcontents := hlegible.2.2
  rw [Node.split_of_getElem? hchild, Node.childrenPrintable_append] at hcontents
  obtain ⟨hearlier, _, hlater⟩ := hcontents
  refine @markedBefore_broken attributes contents id free tag closing opening hlegible _ rest
    (contents.take position) (meanings (contents.drop (position + 1))) fun behind hfirm hbehind => ?_
  rw [← hbehind] at hmarked
  have hlines := @lines_printChildren free _ hearlier indent (depth + 1) false
    (lineGap indent depth ++ '<' :: '/' :: behind) _ _ fun flag =>
      @LinesBefore.markup free _ _ (isSpace_lineGap indent (depth + 1)) flag false front
        (fun form => BreaksAt opening closing (occurrences form)) (ChildBreaks opening closing) _ _
        hmarked (fun form hform => ⟨form, rfl, hform⟩)
        (lines_of_printable hlater indent (depth + 1) false _)
  exact hlines.enclosed (isSpace_lineGap indent depth) hfirm

/-- In a printed tree with another name in the closing tag of one element, this name breaks a rule. -/
theorem exists_markedBefore_around
    (hlegible : Node.Legible free ⟨.named name, attributes, contents, id⟩)
    (hother : IsMarkupName other) (hne : other ≠ name) (enclosed : Enclosed free inner contents)
    (indent : Int) {level : Nat} {tree : Node} (htree : tree.Legible free) {path : List Nat}
    (hat : tree.at? path = some ⟨.named name, attributes, contents, id⟩) (depth : Nat)
    (hlevel : level = depth + path.length) (rest : List Char) :
    ∃ front, (Node.around indent depth tree path).1 ++ ((margin indent level).toList ++
        (elementFront name attributes inner ++ '<' :: '/' :: (other.toList ++ ['>'])) ++
          (Node.around indent depth tree path).2) = (margin indent depth).toList ++ front ∧
      MarkedBefore free front rest (fun form => BreaksAt name
        ⟨other.toList ++ '>' :: ((Node.around indent depth tree path).2 ++ rest),
          other.toList.length⟩ (occurrences form)) := by
  induction path generalizing tree depth rest with
  | nil =>
      cases hat
      obtain rfl : level = depth := hlevel
      refine ⟨_, ?_, markedBefore_exchanged hlegible hother hne enclosed rest⟩
      rw [Node.around, List.nil_append, List.append_nil]
  | cons position path ih =>
      obtain ⟨tag, attributes', contents', id'⟩ := tree
      obtain ⟨child, hchild, hbelow⟩ := Node.at?_cons_eq_some_iff.mp hat
      have hchild : contents'[position]? = some (.node child) := hchild
      have hcontents := htree.2.2
      rw [Node.split_of_getElem? hchild, Node.childrenPrintable_append] at hcontents
      obtain ⟨front, hfront, hmarked⟩ := ih hcontents.2.1 hbelow (depth + 1)
        (by rw [hlevel, List.length_cons]; omega)
        (lineChars (Node.printChildren indent (depth + 1) false (contents'.drop (position + 1))) ++
          (lineGap indent depth ++ ((Node.closing tag).toList ++ rest)))
      have hslice : (Node.around indent depth ⟨tag, attributes', contents', id'⟩
          (position :: path)).2 ++ rest = (Node.around indent (depth + 1) child path).2 ++
            (lineChars (Node.printChildren indent (depth + 1) false
              (contents'.drop (position + 1))) ++
            (lineGap indent depth ++ ((Node.closing tag).toList ++ rest))) := by
        rw [Node.around, hchild]
        simp [lineGap]
      rw [hslice]
      refine ⟨_, ?_, markedBefore_lines htree indent depth hchild hmarked⟩
      rw [Node.around, hchild]
      have hinside := congrArg (fun text => lineChars (Node.printChildren indent (depth + 1) false
        (contents'.take position)) ++ '\n' :: (text ++ (lineChars (Node.printChildren indent (depth + 1)
          false (contents'.drop (position + 1))) ++
            (lineGap indent depth ++ (Node.closing tag).toList)))) hfront
      simp only [List.append_assoc, List.cons_append] at hinside
      simp [lineGap] at hinside ⊢
      exact hinside

end Exchanged

/-! ## All attempts end at the name -/

/-- The message about a closing tag with another name. -/
theorem message_mismatchedClosing (position : Position) (opening : String) :
    (Diagnostic.mismatchedClosing position opening).message =
      position.text ++ ": Expected corresponding closing tag for <" ++ opening ++ ">" := by
  have hwords : ": Expected corresponding closing tag for <" =
      ": " ++ "Expected corresponding closing tag for <" := by simp
  change position.text ++ ": " ++ ("Expected corresponding closing tag for <" ++ opening ++ ">") = _
  rw [hwords]
  simp only [String.append_assoc]

/-- The position of a slice behind a text is the one behind the text. -/
theorem positionOf_append (front rest : List Char) (length : Nat) :
    positionOf (front ++ rest) ⟨rest, length⟩ = Position.after front := by
  rw [positionOf, List.length_append, Nat.add_sub_cancel, List.take_left]

section Attempts

variable {front : List Char} {opening : String} {closing outer : Slice}

/-- Inside a fragment broken markup is still broken. -/
theorem markedBefore_wrapped
    (marked : MarkedBefore free front ['<', '/', '>']
      fun form => BreaksAt opening closing (occurrences form)) :
    MarkedBefore free (wrapped front) []
      fun form => BreaksAt opening closing (occurrences form) := by
  have hline := @LinesBefore.markup free ['<', '/', '>'] [] (by simp) false false front
    (fun form => BreaksAt opening closing (occurrences form)) (ChildBreaks opening closing) [] []
    (by simpa using marked) (fun form hform => ⟨form, rfl, hform⟩) .nil
  have hinside : EnclosedBefore free (([] ++ (front ++ [])) ++ []) ['>']
      (meanings [] ++ [ChildBreaks opening closing]) :=
    @LinesBefore.enclosed free false _ [] ['>'] _ hline (by simp) rfl
  simpa [wrapped] using markedBefore_fragment hinside
    fun _ _ hchildren => breaksAt_fragment (breaksAt_children hchildren)

/-- Broken markup that is sheltered is refused with the diagnostic of the first attempt. -/
theorem parseTrimmed_of_breaks
    (marked : MarkedBefore True front [] fun form => BreaksAt opening closing (occurrences form))
    (inside : MarkedBefore True front ['<', '/', '>']
      fun form => BreaksAt opening outer (occurrences form))
    (sheltered : Sheltered front) (levels : Nat) (supply : Supply) :
    parseTrimmed levels front supply =
      .error (.diagnostic (.mismatchedClosing (positionOf front closing) opening)) := by
  obtain ⟨c, more, hopens, _⟩ := marked.opens
  have hhead : front.head? = some '<' := by rw [hopens]; rfl
  have halone : formsOf Rule.markupSource front =
      .error (.mismatchedClosing (positionOf front closing) opening) := by
    obtain ⟨form, hread, hbreaks⟩ := marked.readWhole_markupSource
    exact formsOf_of_breaksAt hread (hbreaks.append [])
  have hwrapped : ∃ diagnostic, formsOf Rule.markupSource (wrapped front) = .error diagnostic := by
    obtain ⟨form, hread, hbreaks⟩ := (markedBefore_wrapped inside).readWhole_markupSource
    exact ⟨_, formsOf_of_breaksAt hread (hbreaks.append [])⟩
  have hmodule : formsOf Rule.module front =
      .error (.mismatchedClosing (positionOf front closing) opening) := by
    obtain ⟨slice, form, hread, hbreaks⟩ := marked.readWhole_module (sheltered.unrivalled trivial)
    have hplain : ∀ occurrence ∈ [Occurrence.form (.plain slice [form])], ∀ source,
        violation? source occurrence = none := List.forall_mem_singleton.mpr fun _ => rfl
    exact formsOf_of_breaksAt hread (((hbreaks.append []).behind hplain).append [])
  obtain ⟨diagnostic, hdiagnostic⟩ := hwrapped
  rw [parseTrimmed]
  split
  · rw [hmodule]
    simp only [parseMarkup, if_pos hhead, halone, hdiagnostic, Option.getD_some]
  · simp only [parseMarkup, if_pos hhead, halone, hdiagnostic, Option.getD_none]

end Attempts

/-! ## Exchanged names in printed trees -/

/-- The text of a tree in which the element at the end of a path is closed with a name.  What the
element is printed as in front of its closing tag is given. -/
def closedWith (indent : Int) (tree : Node) (path : List Nat) (front : List Char) (closing : String) :
    List Char :=
  (Node.around indent 0 tree path).1 ++ (front ++
    ('<' :: '/' :: (closing.toList ++ ['>']) ++ (Node.around indent 0 tree path).2))

section Closed

variable {name other : String} {attributes : Entries Value} {contents : List (Content Node)}
  {id : String} {tree : Node} {path : List Nat}

/-- The text of a tree around a node below its root: the tags of the root stand in the first line and
in the last one. -/
theorem exists_closedWith_cons {tag : Tag} {position : Nat} {node : Node} (indent : Int)
    (hat : Node.at? ⟨tag, attributes, contents, id⟩ (position :: path) = some node)
    (front : List Char) (closing : String) :
    ∃ text, closedWith indent ⟨tag, attributes, contents, id⟩ (position :: path) front closing =
      (Node.opening tag attributes).toList ++ '>' :: (text ++ '\n' :: (Node.closing tag).toList) := by
  obtain ⟨child, hchild, _⟩ := Node.at?_cons_eq_some_iff.mp hat
  have hchild : contents[position]? = some (.node child) := hchild
  rw [closedWith, Node.around, hchild]
  refine ⟨lineChars (Node.printChildren indent (0 + 1) false (contents.take position)) ++
    '\n' :: ((Node.around indent (0 + 1) child path).1 ++ (front ++
      ('<' :: '/' :: (closing.toList ++ ['>']) ++ (Node.around indent (0 + 1) child path).2))) ++
    lineChars (Node.printChildren indent (0 + 1) false (contents.drop (position + 1))), ?_⟩
  simp [toList_margin]

/-- A printed tree with another name in one closing tag is sheltered, unless its first attribute begins
with the word `extends`. -/
theorem sheltered_closedWith (htree : tree.Legible free) {indent : Int}
    (hat : tree.at? path = some ⟨.named name, attributes, contents, id⟩)
    (hother : IsMarkupName other) {inner : List Char}
    (hbetween : (∃ text, inner = (printText text).toList) ∨
      ∃ front, inner = front ++ lineGap indent path.length)
    (hopens : opensWithExtends tree = false) :
    Sheltered (closedWith indent tree path
      ((margin indent path.length).toList ++ elementFront name attributes inner) other) := by
  cases path with
  | nil =>
      cases hat
      have hsheltered := sheltered_element htree.1 hother htree.2.1
        (tagTail_of_between hbetween other.toList) hopens
      simpa [closedWith, Node.around, toList_margin, elementFront] using hsheltered
  | cons position path =>
      obtain ⟨tag, attributes', contents', id'⟩ := tree
      obtain ⟨text, htext⟩ := exists_closedWith_cons indent hat
        ((margin indent (path.length + 1)).toList ++ elementFront name attributes inner) other
      rw [List.length_cons, htext]
      cases tag with
      | fragment =>
          rw [Node.opening]
          exact Or.inl (guarded_fragment _)
      | named root =>
          have hroot : IsMarkupName root := htree.1
          have hlines := sheltered_element hroot hroot htree.2.1 (.lines text) hopens
          rw [toList_opening htree.2.1]
          simpa [Node.closing] using hlines

/-- A printed tree with another name in one closing tag is markup in which this name breaks a rule. -/
theorem markedBefore_closedWith (htree : tree.Legible free) (indent : Int)
    (hat : tree.at? path = some ⟨.named name, attributes, contents, id⟩)
    (hother : IsMarkupName other) (hdiffers : other ≠ name) {inner : List Char}
    (enclosed : Enclosed free inner contents) (rest : List Char) :
    MarkedBefore free (closedWith indent tree path
        ((margin indent path.length).toList ++ elementFront name attributes inner) other) rest
      (fun form => BreaksAt name
        ⟨other.toList ++ '>' :: ((Node.around indent 0 tree path).2 ++ rest), other.toList.length⟩
        (occurrences form)) := by
  obtain ⟨front, hfront, hmarked⟩ := exists_markedBefore_around (htree.at? hat) hother hdiffers
    enclosed indent htree hat 0 (Nat.zero_add path.length).symm rest
  rw [toList_margin, List.nil_append] at hfront
  have hclosed : closedWith indent tree path
      ((margin indent path.length).toList ++ elementFront name attributes inner) other = front := by
    rw [← hfront, closedWith]
    simp only [List.append_assoc]
  rwa [hclosed]

/-- In the text of a printable tree the name in the closing tag of any element with children is
exchanged for another name.  The changed text is refused with a message about the tag of the element
at the position of the exchanged name, unless the first attribute begins with the word `extends` and
the changed text trails off behind an arrow. -/
theorem parseWithin_mismatched (htree : tree.Printable) (indent : Int)
    (hat : tree.at? path = some ⟨.named name, attributes, contents, id⟩) (hne : contents ≠ [])
    (hother : IsMarkupName other) (hdiffers : other ≠ name) :
    ∃ front,
      (Node.printAt indent path.length ⟨.named name, attributes, contents, id⟩).toList =
        front ++ '<' :: '/' :: (name.toList ++ ['>']) ∧
      tree.serialize indent = .ok (String.ofList (closedWith indent tree path front name)) ∧
      ((opensWithExtends tree = true → ¬ TrailsOff (closedWith indent tree path front other)) →
        ∃ diagnostic : Diagnostic,
          (∀ levels supply,
            parseWithin levels (String.ofList (closedWith indent tree path front other)) supply =
              .error (.diagnostic diagnostic)) ∧
          diagnostic.message =
            (Position.after ((Node.around indent 0 tree path).1 ++ (front ++ ['<', '/']))).text ++
              ": Expected corresponding closing tag for <" ++ name ++ ">") := by
  have htreeLegible : tree.Legible True := htree.legible
  have hlegible := htreeLegible.at? hat
  obtain ⟨inner, hprint, enclosed, hbetween⟩ := exists_enclosed hlegible hne
    (lines_of_printable hlegible.2.2 indent (path.length + 1) false)
  have helement : (Node.printAt indent path.length ⟨.named name, attributes, contents, id⟩).toList =
      (margin indent path.length).toList ++ elementFront name attributes inner ++
        '<' :: '/' :: (name.toList ++ ['>']) := by
    rw [hprint]
    simp [elementFront]
  refine ⟨_, helement, ?_, fun htrails => ?_⟩
  · have haround := @Node.toList_printAt_around indent _ _ _ hat 0 _ (Nat.zero_add path.length).symm
    rw [htree.serialize_eq, Node.print, ← String.ofList_toList (s := tree.printAt indent 0), haround,
      helement, closedWith, List.append_assoc _ ('<' :: _)]
  · have hmarked (rest : List Char) := markedBefore_closedWith htreeLegible indent hat hother
      hdiffers enclosed rest
    have hsheltered : Sheltered (closedWith indent tree path
        ((margin indent path.length).toList ++ elementFront name attributes inner) other) := by
      cases hopens : opensWithExtends tree with
      | true => exact Or.inr (htrails hopens)
      | false => exact sheltered_closedWith htreeLegible hat hother hbetween hopens
    have hposition : positionOf (closedWith indent tree path
          ((margin indent path.length).toList ++ elementFront name attributes inner) other)
        ⟨other.toList ++ '>' :: ((Node.around indent 0 tree path).2 ++ []), other.toList.length⟩ =
        Position.after ((Node.around indent 0 tree path).1 ++
          ((margin indent path.length).toList ++ elementFront name attributes inner ++ ['<', '/'])) := by
      rw [← positionOf_append _ (other.toList ++ '>' :: ((Node.around indent 0 tree path).2 ++ []))
        other.toList.length, closedWith]
      simp only [List.append_assoc, List.cons_append, List.nil_append, List.append_nil]
    refine ⟨.mismatchedClosing (Position.after ((Node.around indent 0 tree path).1 ++
      ((margin indent path.length).toList ++ elementFront name attributes inner ++ ['<', '/']))) name,
      fun levels supply => ?_, ?_⟩
    · rw [parseWithin, String.toList_ofList, (hmarked []).trim_eq,
        parseTrimmed_of_breaks (hmarked []) (hmarked _) hsheltered, hposition]
    · exact message_mismatchedClosing _ name

end Closed

/-- An element below a text, with words in its text that hint at a component. -/
def nestedElement : Node :=
  ⟨.named "a", [], [.text "class", .node ⟨.named "b", [], [.text "const x"], ""⟩], ""⟩

theorem printable_nestedElement : nestedElement.Printable := by
  have hname : IsMarkupName "a" := by decide
  have hinner : IsMarkupName "b" := by decide
  have hattributes (name : String) : AttributesPrintable (.named name) [] :=
    ⟨by simp [Entries.Distinct], by simp, trivial, fun _ => rfl⟩
  exact ⟨hname, hattributes _, by decide, ⟨hinner, hattributes _, by decide, trivial⟩, trivial⟩

theorem parse_nestedElement :
    nestedElement.Printable ∧
      nestedElement.at? [1] = some ⟨.named "b", [], [.text "const x"], ""⟩ ∧ IsMarkupName "c" ∧
      nestedElement.serialize 2 = .ok "<a>\n  class\n  <b>const x</b>\n</a>" ∧
      ∃ diagnostic : Diagnostic,
        parse "<a>\n  class\n  <b>const x</c>\n</a>" ⟨0⟩ = .error (.diagnostic diagnostic) ∧
        diagnostic.message =
          Position.text ⟨3, 15⟩ ++ ": Expected corresponding closing tag for <" ++ "b" ++ ">" := by
  have hat : nestedElement.at? [1] = some ⟨.named "b", [], [.text "const x"], ""⟩ := rfl
  have hname : IsMarkupName "c" := by decide
  obtain ⟨front, hfront, hserialize, hparse⟩ := parseWithin_mismatched printable_nestedElement 2
    hat (List.cons_ne_nil _ _) hname (by decide)
  obtain rfl : front = "  <b>const x".toList := by
    refine @List.append_cancel_right _ _ "</b>".toList _ (hfront.symm.trans ?_)
    decide
  obtain ⟨diagnostic, hdiagnostic, hmessage⟩ := hparse fun h => absurd h (by decide)
  have hprinted : String.ofList (closedWith 2 nestedElement [1] "  <b>const x".toList "b") =
      "<a>\n  class\n  <b>const x</b>\n</a>" := by decide
  have hchanged : String.ofList (closedWith 2 nestedElement [1] "  <b>const x".toList "c") =
      "<a>\n  class\n  <b>const x</c>\n</a>" := by decide
  refine ⟨printable_nestedElement, hat, hname, hserialize.trans (congrArg _ hprinted), diagnostic, ?_, ?_⟩
  · rw [parse, ← hchanged]
    exact hdiagnostic _ _
  · rw [hmessage]
    rfl

/-- An element with a text whose strings can be taken for an arrow function with a comment behind it. -/
def trailingPair : Node :=
  ⟨.named "a", [("extends", .boolean true), ("b", .string "\\"), ("c", .string ">()=>d // ")],
    [.text "x"], ""⟩

/-- An exchanged name need not be noticed: the closing tag is taken for a comment, and no markup is
found. -/
theorem parse_trailingPair :
    trailingPair.Printable ∧ trailingPair.at? [] = some trailingPair ∧ IsMarkupName "m" ∧
      trailingPair.serialize 2 = .ok "<a extends b=\"\\\" c=\">()=>d // \">x</a>" ∧
      parse "<a extends b=\"\\\" c=\">()=>d // \">x</m>" ⟨0⟩ = .error (.diagnostic .noMarkup) ∧
      ¬ ∃ diagnostic : Diagnostic,
        parse "<a extends b=\"\\\" c=\">()=>d // \">x</m>" ⟨0⟩ = .error (.diagnostic diagnostic) ∧
        diagnostic.message =
          Position.text ⟨1, 36⟩ ++ ": Expected corresponding closing tag for <" ++ "a" ++ ">" := by
  have hname : IsMarkupName "a" := by decide
  have hparse :
      parse "<a extends b=\"\\\" c=\">()=>d // \">x</m>" ⟨0⟩ = .error (.diagnostic .noMarkup) := by
    have hfails : failsWith "<a extends b=\"\\\" c=\">()=>d // \">x</m>" (.diagnostic .noMarkup) =
        true := by decide +kernel
    exact eq_error_of_failsWith hfails
  refine ⟨⟨hname, ⟨by simp [Entries.Distinct], by decide, ⟨trivial, trivial, trivial, trivial⟩, nofun⟩,
    by decide, trivial⟩, rfl, by decide, by decide, hparse, ?_⟩
  rintro ⟨diagnostic, hdiagnostic, hmessage⟩
  obtain rfl : diagnostic = .noMarkup := by
    cases hdiagnostic.symm.trans hparse
    rfl
  exact absurd hmessage (by decide)

end EditableMarkup.Source
