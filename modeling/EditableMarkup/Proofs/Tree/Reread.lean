import EditableMarkup.Proofs.Number.Reread
import EditableMarkup.Proofs.Tree.Alike
import EditableMarkup.Proofs.Tree.Reconcile

/-!
# What a printed tree is read back as

A printed tree is read back as one tree, but for its identifiers: attributes that
are off are gone, and numbers may have changed their kind.  It is alike to the
tree that was printed, and it is printed as the same text again.
-/

namespace EditableMarkup

variable {accepts : String → Prop}

mutual

/-- What a printed tree is read back as, with all identifiers blanked. -/
def Node.reread : Node → Node
  | ⟨tag, attributes, children, _⟩ =>
    ⟨tag, Value.rereadAll (Entries.kept attributes), Node.rereadAll children, ""⟩

/-- What printed children are read back as, with all identifiers blanked. -/
def Node.rereadAll : List (Content Node) → List (Content Node)
  | [] => []
  | .text text :: rest => .text text :: Node.rereadAll rest
  | .expression source :: rest => .expression source :: Node.rereadAll rest
  | .node node :: rest => .node node.reread :: Node.rereadAll rest

end

theorem Node.rereadAll_eq_map (children : List (Content Node)) :
    Node.rereadAll children = children.map (Content.map Node.reread) := by
  induction children with
  | nil => rfl
  | cons content rest ih => cases content <;> simp [Node.rereadAll, Content.map, ih]

theorem Node.reread_eq (tree : Node) :
    tree.reread =
      ⟨tree.tag, Value.rereadAll (Entries.kept tree.attributes),
        tree.children.map (Content.map Node.reread), ""⟩ := by
  obtain ⟨tag, attributes, children, id⟩ := tree
  rw [Node.reread, Node.rereadAll_eq_map]

/-! ## It is alike -/

mutual

theorem Node.alike_unlabelled : (tree other : Node) →
    (tree.unlabelled.Alike other ↔ tree.Alike other)
  | ⟨_, _, children, _⟩, other => by
    rw [Node.unlabelled, Node.Alike, Node.Alike, Node.childrenAlike_unlabelledAll children]

theorem Node.childrenAlike_unlabelledAll : (children others : List (Content Node)) →
    (Node.ChildrenAlike (Node.unlabelledAll children) others ↔ Node.ChildrenAlike children others)
  | [], _ => by rw [Node.unlabelledAll]
  | .text _ :: rest, others => by
    cases others with
    | nil => simp [Node.unlabelledAll, Node.ChildrenAlike]
    | cons other others =>
        cases other <;>
          simp [Node.unlabelledAll, Node.ChildrenAlike, Node.childrenAlike_unlabelledAll rest]
  | .expression _ :: rest, others => by
    cases others with
    | nil => simp [Node.unlabelledAll, Node.ChildrenAlike]
    | cons other others =>
        cases other <;>
          simp [Node.unlabelledAll, Node.ChildrenAlike, Node.childrenAlike_unlabelledAll rest]
  | .node child :: rest, others => by
    cases others with
    | nil => simp [Node.unlabelledAll, Node.ChildrenAlike]
    | cons other others =>
        cases other <;>
          simp [Node.unlabelledAll, Node.ChildrenAlike, Node.alike_unlabelled child,
            Node.childrenAlike_unlabelledAll rest]

end

mutual

/-- A printable tree is read back as an alike one. -/
theorem Node.PrintableWith.alike_reread : {node : Node} → node.PrintableWith accepts →
    node.reread.Alike node.withoutOff
  | ⟨_, _, _, _⟩, ⟨_, hattributes, hchildren⟩ =>
    ⟨rfl, hattributes.kept.values.alike_rereadAll,
      Node.ChildrenPrintableWith.alike_rereadAll hchildren⟩

theorem Node.ChildrenPrintableWith.alike_rereadAll : {children : List (Content Node)} →
    Node.ChildrenPrintableWith accepts children →
    Node.ChildrenAlike (Node.rereadAll children) (Node.withoutOffAll children)
  | [], _ => trivial
  | .text _ :: rest, h => ⟨rfl, (show Node.ChildrenPrintableWith accepts rest from h.2).alike_rereadAll⟩
  | .expression _ :: rest, h => ⟨rfl, (show Node.ChildrenPrintableWith accepts rest from h.2).alike_rereadAll⟩
  | .node _ :: rest, h =>
    ⟨h.1.alike_reread, (show Node.ChildrenPrintableWith accepts rest from h.2).alike_rereadAll⟩

end

theorem Node.PrintableWith.alike_of_unlabelled_eq {found node : Node}
    (hprintable : node.PrintableWith accepts) (h : found.unlabelled = node.reread) : found.Alike node.withoutOff := by
  rw [← Node.alike_unlabelled, h]
  exact hprintable.alike_reread

/-! ## It holds no blank texts -/

theorem Content.isBlankText_map (f : Node → Node) (content : Content Node) :
    (content.map f).isBlankText = content.isBlankText := by
  cases content <;> rfl

theorem Node.unlabelledAll_withoutBlankTexts (children : List (Content Node)) :
    Node.unlabelledAll (Node.withoutBlankTexts children) =
      Node.withoutBlankTexts (Node.unlabelledAll children) := by
  rw [Node.unlabelledAll_eq_map, Node.unlabelledAll_eq_map, Node.withoutBlankTexts,
    Node.withoutBlankTexts, List.filter_map]
  refine congrArg _ (List.filter_congr fun content _ => ?_)
  rw [Function.comp, Content.isBlankText_map]

theorem Node.ChildrenPrintableWith.isBlankText_eq : {children : List (Content Node)} →
    Node.ChildrenPrintableWith accepts children → ∀ content ∈ children, content.isBlankText = false
  | [], _, _, hcontent => nomatch hcontent
  | first :: rest, h, content, hcontent => by
    have hparts : first.isBlankText = false ∧ Node.ChildrenPrintableWith accepts rest := by
      cases first with
      | text text => exact h
      | expression source => exact ⟨rfl, h.2⟩
      | node node => exact ⟨rfl, h.2⟩
    rcases List.mem_cons.mp hcontent with rfl | hcontent
    · exact hparts.1
    · exact hparts.2.isBlankText_eq content hcontent

theorem Node.ChildrenPrintableWith.withoutBlankTexts_rereadAll {children : List (Content Node)}
    (h : Node.ChildrenPrintableWith accepts children) :
    Node.withoutBlankTexts (Node.rereadAll children) = Node.rereadAll children := by
  refine Node.withoutBlankTexts_of_forall fun content hcontent => ?_
  rw [Node.rereadAll_eq_map] at hcontent
  obtain ⟨before, hbefore, rfl⟩ := List.mem_map.mp hcontent
  rw [Content.isBlankText_map]
  exact h.isBlankText_eq before hbefore

/-! ## Its values are printed alike -/

mutual

theorem Value.print_reread : (value : Value) → value.reread.print = value.print
  | .number value => value.literal_reread
  | .mapping entries => by
    rw [Value.reread, Value.print, Value.print, Value.printEntries_rereadAll entries]
  | .string _ => rfl
  | .boolean _ => rfl
  | .expression _ => rfl

theorem Value.printEntries_rereadAll : (entries : List (String × Value)) →
    Value.printEntries (Value.rereadAll entries) = Value.printEntries entries
  | [] => rfl
  | (_, value) :: rest => by
    rw [Value.rereadAll, Value.printEntries, Value.printEntries, Value.print_reread value,
      Value.printEntries_rereadAll rest]

end

mutual

theorem Value.isWritable_reread : (value : Value) → value.reread.isWritable = value.isWritable
  | .number value => value.isWritable_reread
  | .mapping entries => Value.areWritable_rereadAll entries
  | .string _ => rfl
  | .boolean _ => rfl
  | .expression _ => rfl

theorem Value.areWritable_rereadAll : (entries : List (String × Value)) →
    Value.areWritable (Value.rereadAll entries) = Value.areWritable entries
  | [] => rfl
  | (_, value) :: rest => by
    rw [Value.rereadAll, Value.areWritable, Value.areWritable, Value.isWritable_reread value,
      Value.areWritable_rereadAll rest]

end

theorem printAttribute_reread (key : String) (value : Value) :
    printAttribute key value.reread = printAttribute key value := by
  cases value with
  | string _ | boolean _ | expression _ => rfl
  | number number => simp only [Value.reread, printAttribute, Value.print, number.literal_reread]
  | mapping entries =>
      have hprint := Value.print_reread (.mapping entries)
      rw [Value.reread] at hprint
      simp only [Value.reread, printAttribute, hprint]

theorem printAttribute_of_isOff {value : Value} (h : value.isOff = true) (key : String) :
    printAttribute key value = "" := by
  cases value with
  | boolean value =>
      cases value with
      | false => rfl
      | true => cases h
  | _ => cases h

/-- Attributes are printed as what they are read back as. -/
theorem printAttributes_reread (attributes : Entries Value) :
    printAttributes (Value.rereadAll (Entries.kept attributes)) = printAttributes attributes := by
  have hparts : ((Value.rereadAll (Entries.kept attributes)).map
      fun entry => printAttribute entry.1 entry.2).filter (!·.isEmpty) =
      (attributes.map fun entry => printAttribute entry.1 entry.2).filter (!·.isEmpty) := by
    induction attributes with
    | nil => rfl
    | cons entry rest ih =>
        obtain ⟨key, value⟩ := entry
        cases hoff : value.isOff with
        | true =>
            have hkept : Entries.kept ((key, value) :: rest) = Entries.kept rest := by
              simp [Entries.kept, hoff]
            rw [hkept, ih, List.map_cons, printAttribute_of_isOff hoff]
            rfl
        | false =>
            have hkept : Entries.kept ((key, value) :: rest) = (key, value) :: Entries.kept rest := by
              simp [Entries.kept, hoff]
            rw [hkept, Value.rereadAll, List.map_cons, List.map_cons, List.filter_cons,
              List.filter_cons, ih, printAttribute_reread]
  rw [printAttributes, printAttributes, hparts]

theorem areWritable_reread (attributes : Entries Value) :
    Value.areWritable (Value.rereadAll (Entries.kept attributes)) =
      Value.areWritable attributes := by
  rw [Value.areWritable_rereadAll]
  induction attributes with
  | nil => rfl
  | cons entry rest ih =>
      obtain ⟨key, value⟩ := entry
      cases hoff : value.isOff with
      | true =>
          have hvalue : value.isWritable = true := by
            cases value with
            | boolean value => rfl
            | _ => cases hoff
          have hkept : Entries.kept ((key, value) :: rest) = Entries.kept rest := by
            simp [Entries.kept, hoff]
          rw [hkept, ih, Value.areWritable, hvalue, Bool.true_and]
      | false =>
          have hkept : Entries.kept ((key, value) :: rest) = (key, value) :: Entries.kept rest := by
            simp [Entries.kept, hoff]
          rw [hkept, Value.areWritable, Value.areWritable, ih]

/-! ## It is printed alike -/

namespace Node

section Map

variable {f : Node → Node} {children : List (Content Node)} {indent : Int}

/-- Children are printed alike if the nodes among them are. -/
theorem printChildren_map
    (h : ∀ child, .node child ∈ children → ∀ depth,
      (f child).printAt indent depth = child.printAt indent depth)
    (depth : Nat) (behindText : Bool) :
    printChildren indent depth behindText (children.map (Content.map f)) =
      printChildren indent depth behindText children := by
  induction children generalizing behindText with
  | nil => rfl
  | cons content rest ih =>
      have hrest := fun behindText =>
        ih (fun child hchild => h child (List.mem_cons_of_mem _ hchild)) behindText
      cases content with
      | text text => rw [List.map_cons, Content.map, printChildren, printChildren, hrest]
      | expression source => rw [List.map_cons, Content.map, printChildren, printChildren, hrest]
      | node child =>
          rw [List.map_cons, Content.map, printChildren, printChildren, hrest,
            h child (List.mem_cons_self ..)]

theorem opening_congr (tag : Tag) {attributes others : Entries Value}
    (h : printAttributes attributes = printAttributes others) :
    opening tag attributes = opening tag others := by
  cases tag with
  | fragment => rfl
  | named name => rw [opening, opening, h]

/-- A node with changed nodes among its children is printed as before, if they and its attributes
are. -/
theorem printAt_map {tree : Node} {attributes : Entries Value}
    (hattributes : printAttributes attributes = printAttributes tree.attributes)
    (h : ∀ child, .node child ∈ tree.children → ∀ depth,
      (f child).printAt indent depth = child.printAt indent depth)
    (depth : Nat) (id : String) :
    printAt indent depth ⟨tree.tag, attributes, tree.children.map (Content.map f), id⟩ =
      tree.printAt indent depth := by
  obtain ⟨tag, others, children, other⟩ := tree
  have hopening := opening_congr tag hattributes
  have hinside := printChildren_map h (depth + 1) false
  match tag, children with
  | .fragment, [] => rfl
  | .named _, [] =>
    rw [List.map_nil, printAt, printAt, printEmpty, printEmpty, hopening]
  | .named _, [.text _] =>
    rw [List.map_cons, List.map_nil, Content.map, printAt, printAt, hopening]
  | .fragment, content :: rest =>
    rw [List.map_cons] at hinside ⊢
    rw [printAt, printAt, hinside, hopening] <;> simp
  | .named _, .expression _ :: rest =>
    rw [List.map_cons, Content.map] at hinside ⊢
    rw [printAt, printAt, hinside, hopening] <;> simp
  | .named _, .node _ :: rest =>
    rw [List.map_cons, Content.map] at hinside ⊢
    rw [printAt, printAt, hinside, hopening] <;> simp
  | .named _, .text _ :: next :: rest =>
    rw [List.map_cons, List.map_cons, Content.map] at hinside ⊢
    rw [printAt, printAt, hinside, hopening] <;> simp

theorem areWritable_map
    (h : ∀ child, .node child ∈ children → (f child).isWritable = child.isWritable) :
    areWritable (children.map (Content.map f)) = areWritable children := by
  induction children with
  | nil => rfl
  | cons content rest ih =>
      have hrest := ih fun child hchild => h child (List.mem_cons_of_mem _ hchild)
      cases content with
      | text text => exact hrest
      | expression source => exact hrest
      | node child =>
          rw [List.map_cons, Content.map, areWritable, areWritable, hrest,
            h child (List.mem_cons_self ..)]

end Map

theorem printAt_unlabelled (tree : Node) (indent : Int) (depth : Nat) :
    tree.unlabelled.printAt indent depth = tree.printAt indent depth := by
  induction tree using Node.induction generalizing depth with
  | step tree ih =>
      rw [unlabelled_eq]
      exact printAt_map rfl ih depth _

theorem printAt_reread (tree : Node) (indent : Int) (depth : Nat) :
    tree.reread.printAt indent depth = tree.printAt indent depth := by
  induction tree using Node.induction generalizing depth with
  | step tree ih =>
      rw [reread_eq]
      exact printAt_map (printAttributes_reread tree.attributes) ih depth _

theorem isWritable_eq (tree : Node) :
    tree.isWritable = (Value.areWritable tree.attributes && areWritable tree.children) := by
  obtain ⟨tag, attributes, children, id⟩ := tree
  rw [isWritable]

theorem isWritable_unlabelled (tree : Node) : tree.unlabelled.isWritable = tree.isWritable := by
  induction tree using Node.induction with
  | step tree ih => rw [unlabelled_eq, isWritable_eq, areWritable_map ih, isWritable_eq]

theorem isWritable_reread (tree : Node) : tree.reread.isWritable = tree.isWritable := by
  induction tree using Node.induction with
  | step tree ih =>
      rw [reread_eq, isWritable_eq, areWritable_map ih, isWritable_eq, areWritable_reread]

/-- What a tree is read back as is printed as the same text. -/
theorem print_eq_of_unlabelled_eq {found tree : Node} (h : found.unlabelled = tree.reread)
    (indent : Int) : found.print indent = tree.print indent := by
  rw [print, ← printAt_unlabelled, h, printAt_reread, print]

theorem isWritable_eq_of_unlabelled_eq {found tree : Node} (h : found.unlabelled = tree.reread) :
    found.isWritable = tree.isWritable := by
  rw [← isWritable_unlabelled, h, isWritable_reread]

end Node

end EditableMarkup
