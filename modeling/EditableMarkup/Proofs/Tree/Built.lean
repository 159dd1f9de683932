import EditableMarkup.Proofs.Tree.Navigate

/-!
# Trees that are made

Nodes are made by one function, which refuses attributes on a fragment and
drops blank texts.  A tree is built when that function, given the parts of any
of its nodes, gives the node back.
-/

namespace EditableMarkup.Node

/-! ## Making a node -/

theorem withoutBlankTexts_of_forall {children : List (Content Node)}
    (h : ∀ child ∈ children, child.isBlankText = false) : withoutBlankTexts children = children :=
  List.filter_eq_self.mpr fun child hchild => by rw [h child hchild]; rfl

theorem isBlankText_of_mem_withoutBlankTexts {children : List (Content Node)} {child : Content Node}
    (h : child ∈ withoutBlankTexts children) : child.isBlankText = false := by
  simpa using (List.mem_filter.mp h).2

/-- A node in a list of children stays when the blank texts are dropped. -/
theorem node_mem_withoutBlankTexts {children : List (Content Node)} {child : Node} :
    .node child ∈ withoutBlankTexts children ↔ .node child ∈ children := by
  simp [withoutBlankTexts, Content.isBlankText]

/-- A node is refused exactly if it is a fragment with attributes. -/
theorem make_eq (tag : Tag) (attributes : Entries Value) (children : List (Content Node))
    (id : String) :
    make tag attributes children id =
      if tag = .fragment ∧ attributes ≠ [] then .error .fragmentAttributes
      else .ok ⟨tag, attributes, withoutBlankTexts children, id⟩ := by
  cases attributes <;> simp [make]

/-- The parts of a node make the node again. -/
def Remade (node : Node) : Prop :=
  make node.tag node.attributes node.children node.id = .ok node

theorem remade_iff {node : Node} :
    node.Remade ↔ (node.tag = .fragment → node.attributes = []) ∧
      ∀ child ∈ node.children, child.isBlankText = false := by
  obtain ⟨tag, attributes, children, id⟩ := node
  rw [Remade, make_eq]
  constructor
  · intro h
    split at h
    · cases h
    · next hfragment =>
        have hchildren : withoutBlankTexts children = children := by
          simpa using h
        refine ⟨fun htag => ?_, fun child hchild => ?_⟩
        · by_contra hattributes
          exact hfragment ⟨htag, hattributes⟩
        · rw [← hchildren] at hchild
          exact isBlankText_of_mem_withoutBlankTexts hchild
  · rintro ⟨hfragment, hchildren⟩
    rw [if_neg fun h => h.2 (hfragment h.1), withoutBlankTexts_of_forall hchildren]

instance (node : Node) : Decidable node.Remade :=
  decidable_of_iff ((node.tag = .fragment → node.attributes.isEmpty = true) ∧
    ∀ child ∈ node.children, child.isBlankText = false) (by rw [remade_iff, List.isEmpty_iff])

/-- A node that is made is remade, since making drops blank texts once and for all. -/
theorem remade_of_make {tag : Tag} {attributes : Entries Value} {children : List (Content Node)}
    {id : String} {node : Node} (h : make tag attributes children id = .ok node) : node.Remade := by
  rw [make_eq] at h
  split at h
  · cases h
  · next hfragment =>
      cases h
      refine remade_iff.mpr ⟨fun htag => ?_, fun _ => isBlankText_of_mem_withoutBlankTexts⟩
      by_contra hattributes
      exact hfragment ⟨htag, hattributes⟩

/-! ## Built trees -/

/-- All nodes of a tree are remade from their own parts. -/
def Built (tree : Node) : Prop :=
  ∀ node ∈ tree.nodes, node.Remade

instance (tree : Node) : Decidable tree.Built :=
  inferInstanceAs (Decidable (∀ node ∈ tree.nodes, node.Remade))

theorem built_iff {tree : Node} :
    tree.Built ↔ tree.Remade ∧ ∀ child, .node child ∈ tree.children → child.Built := by
  constructor
  · intro h
    exact ⟨h tree (mem_nodes_self tree), fun child hchild node hnode =>
      h node (mem_nodes_iff.mpr (.inr ⟨child, hchild, hnode⟩))⟩
  · rintro ⟨htree, hbelow⟩ node hnode
    rcases mem_nodes_iff.mp hnode with rfl | ⟨child, hchild, hnode⟩
    · exact htree
    · exact hbelow child hchild node hnode

theorem Built.child {tree child : Node} (h : tree.Built) (hchild : .node child ∈ tree.children) :
    child.Built :=
  (built_iff.mp h).2 child hchild

theorem Built.remade {tree : Node} (h : tree.Built) : tree.Remade :=
  (built_iff.mp h).1

/-- A node that is made of built children is built. -/
theorem built_of_make {tag : Tag} {attributes : Entries Value} {children : List (Content Node)}
    {id : String} {node : Node} (h : make tag attributes children id = .ok node)
    (hchildren : ∀ child, .node child ∈ children → child.Built) : node.Built := by
  refine built_iff.mpr ⟨remade_of_make h, fun child hchild => hchildren child ?_⟩
  rw [make_eq] at h
  split at h
  · cases h
  · cases h
    exact node_mem_withoutBlankTexts.mp hchild

/-- What is found in a built tree is built. -/
theorem Built.at? {tree node : Node} (h : tree.Built) {path : List Nat}
    (hnode : tree.at? path = some node) : node.Built := by
  induction path generalizing tree with
  | nil =>
      cases hnode
      exact h
  | cons position path ih =>
      obtain ⟨child, hchild, hnode⟩ := at?_cons_eq_some_iff.mp hnode
      exact ih (h.child (List.mem_of_getElem? hchild)) hnode

end EditableMarkup.Node
