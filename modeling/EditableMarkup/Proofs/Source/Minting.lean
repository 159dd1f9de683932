import EditableMarkup.Proofs.Tree.Built
import EditableMarkup.Proofs.Tree.Supply
import EditableMarkup.Source.Parse

/-!
# Trees of a source

The tree of a source is built, and all identifiers in it are minted for it.
-/

namespace EditableMarkup.Source

open EditableMarkup.Grammar

/-! ## Fresh nodes -/

theorem ids_withoutBlankTexts (contents : List (Content Node)) :
    (Node.withoutBlankTexts contents).flatMap Content.ids = contents.flatMap Content.ids := by
  induction contents with
  | nil => rfl
  | cons content rest ih =>
      rw [Node.withoutBlankTexts] at ih ⊢
      rw [List.filter_cons]
      split
      · rw [List.flatMap_cons, List.flatMap_cons, ih]
      · next hblank =>
          cases content with
          | text _ => exact ih
          | expression _ => exact absurd rfl hblank
          | node _ => exact absurd rfl hblank

/-- Contents whose nodes are built and whose identifiers are minted in one run. -/
structure Fresh (before after : Supply) (contents : List (Content Node)) : Prop where
  built : ∀ node, .node node ∈ contents → node.Built
  mints : Supply.Mints before after (contents.flatMap Content.ids)

/-- A node that is made of fresh contents is fresh. -/
theorem fresh_freshNode {before supply : Supply} {contents : List (Content Node)}
    (h : Fresh before supply contents) (tag : Tag) (attributes : Entries Value)
    (hfragment : tag = .fragment → attributes = []) :
    (freshNode tag attributes contents supply).1.Built ∧
      Supply.Mints before (freshNode tag attributes contents supply).2
        (freshNode tag attributes contents supply).1.ids := by
  constructor
  · refine Node.built_iff.mpr ⟨Node.remade_iff.mpr ⟨hfragment, fun child hchild => ?_⟩, ?_⟩
    · exact Node.isBlankText_of_mem_withoutBlankTexts hchild
    · exact fun child hchild => h.built child (Node.node_mem_withoutBlankTexts.mp hchild)
  · have hmints := h.mints.mint
    rw [← ids_withoutBlankTexts] at hmints
    rw [Node.ids_eq]
    exact hmints

theorem fresh_nil (supply : Supply) : Fresh supply supply [] where
  built := nofun
  mints := .nil supply

/-- Behind a child that is no node the other contents are as fresh as before. -/
theorem Fresh.cons_of_ids_eq_nil {before after : Supply} {content : Content Node}
    {contents : List (Content Node)} (h : Fresh before after contents)
    (hcontent : content.ids = []) (hnode : ∀ node, content ≠ .node node) :
    Fresh before after (content :: contents) where
  built node hmem := h.built node ((List.mem_cons.mp hmem).resolve_left fun heq => hnode node heq.symm)
  mints := by
    rw [List.flatMap_cons, hcontent]
    exact h.mints

theorem Fresh.cons_node {before between after : Supply} {node : Node}
    {contents : List (Content Node)} (hbuilt : node.Built)
    (hmints : Supply.Mints before between node.ids) (h : Fresh between after contents) :
    Fresh before after (.node node :: contents) where
  built other hmem := by
    rcases List.mem_cons.mp hmem with heq | hmem
    · cases heq
      exact hbuilt
    · exact h.built other hmem
  mints := hmints.append h.mints

/-! ## Nodes of forms -/

/-- A child in braces becomes a text or an expression. -/
theorem ids_contentOf {form : Form} {content : Content Node} (h : contentOf form = .ok content) :
    content.ids = [] ∧ ∀ node, content ≠ .node node := by
  obtain ⟨value, _, h⟩ := exists_of_bind_eq_ok h
  cases value with
  | string _ => cases h; exact ⟨rfl, nofun⟩
  | number number =>
      simp only at h
      split at h
      · cases h; exact ⟨rfl, nofun⟩
      · cases h
  | boolean _ => cases h; exact ⟨rfl, nofun⟩
  | mapping _ => cases h; exact ⟨rfl, nofun⟩
  | expression _ => cases h; exact ⟨rfl, nofun⟩

theorem tagOf_ne_fragment (name : ElementName) : tagOf name ≠ .fragment := by
  cases name <;> exact nofun

mutual

/-- The node of a form is built, and its identifiers are minted for it. -/
theorem fresh_nodeOf {levels : Nat} {supply after : Supply} {node : Node} : (form : Form) →
    nodeOf levels supply form = .ok (node, after) →
    node.Built ∧ Supply.Mints supply after node.ids
  | .element _ name attributes children _, h => by
    rw [nodeOf] at h
    split at h
    · cases h
    · obtain ⟨entries, _, h⟩ := exists_of_bind_eq_ok h
      obtain ⟨⟨contents, between⟩, hcontents, h⟩ := exists_of_bind_eq_ok h
      have hfresh := fresh_freshNode (fresh_contentsOf children hcontents) (tagOf name) entries
        fun htag => absurd htag (tagOf_ne_fragment name)
      rwa [Except.ok.inj h] at hfresh
  | .selfClosed _ name attributes, h => by
    rw [nodeOf] at h
    split at h
    · cases h
    · obtain ⟨entries, _, h⟩ := exists_of_bind_eq_ok h
      have hfresh := fresh_freshNode (fresh_nil supply) (tagOf name) entries
        fun htag => absurd htag (tagOf_ne_fragment name)
      rwa [Except.ok.inj h] at hfresh
  | .fragment _ children, h => by
    rw [nodeOf] at h
    split at h
    · cases h
    · obtain ⟨⟨contents, between⟩, hcontents, h⟩ := exists_of_bind_eq_ok h
      have hfresh := fresh_freshNode (fresh_contentsOf children hcontents) .fragment [] fun _ => rfl
      rwa [Except.ok.inj h] at hfresh
  | .plain _ _, h | .string _, h | .number _, h | .boolean _, h | .signed _ _ _, h
  | .group _ _, h | .object _ _, h | .function _ _ _, h | .block _ _, h | .returned _ _, h
  | .returnedNothing _, h => nomatch h

theorem fresh_contentsOf {levels : Nat} {supply after : Supply} {contents : List (Content Node)} :
    (children : List (Child Form)) → contentsOf levels supply children = .ok (contents, after) →
    Fresh supply after contents
  | [], h => by
    rw [contentsOf] at h
    cases h
    exact fresh_nil supply
  | .text slice :: rest, h => by
    rw [contentsOf] at h
    obtain ⟨⟨others, after⟩, hothers, h⟩ := exists_of_bind_eq_ok h
    cases h
    exact (fresh_contentsOf rest hothers).cons_of_ids_eq_nil rfl nofun
  | .markup form :: rest, h => by
    rw [contentsOf] at h
    obtain ⟨⟨node, between⟩, hnode, h⟩ := exists_of_bind_eq_ok h
    obtain ⟨⟨others, after⟩, hothers, h⟩ := exists_of_bind_eq_ok h
    cases h
    obtain ⟨hbuilt, hmints⟩ := fresh_nodeOf form hnode
    exact (fresh_contentsOf rest hothers).cons_node hbuilt hmints
  | .braces form :: rest, h => by
    rw [contentsOf] at h
    obtain ⟨content, hcontent, h⟩ := exists_of_bind_eq_ok h
    obtain ⟨⟨others, after⟩, hothers, h⟩ := exists_of_bind_eq_ok h
    cases h
    obtain ⟨hids, hnode⟩ := ids_contentOf hcontent
    exact (fresh_contentsOf rest hothers).cons_of_ids_eq_nil hids hnode
  | .emptyBraces :: rest, h => by
    rw [contentsOf] at h
    exact fresh_contentsOf rest h
  | .spread form :: rest, h => by
    rw [contentsOf] at h
    obtain ⟨⟨others, after⟩, hothers, h⟩ := exists_of_bind_eq_ok h
    cases h
    exact (fresh_contentsOf rest hothers).cons_of_ids_eq_nil rfl nofun

end

/-! ## Trees of sources -/

theorem exists_nodeOf_of_treeOf {levels : Nat} {forms : List Form} {supply : Supply}
    {result : Node × Supply} (h : treeOf levels forms supply = .ok result) :
    ∃ form, nodeOf levels supply form = .ok result := by
  rw [treeOf] at h
  split at h
  · next form _ => exact ⟨form, h⟩
  · cases h

/-- Whichever way a source is read, its tree is the node of a form. -/
theorem exists_nodeOf_of_parseMarkup {levels : Nat} {source : List Char}
    {earlier : Option Diagnostic} {supply : Supply} {result : Node × Supply}
    (h : parseMarkup levels source earlier supply = .ok result) :
    ∃ form, nodeOf levels supply form = .ok result := by
  rw [parseMarkup] at h
  split at h
  · split at h
    · exact exists_nodeOf_of_treeOf h
    · split at h
      · exact exists_nodeOf_of_treeOf h
      · cases h
  · cases h

theorem exists_nodeOf_of_parse {text : String} {supply : Supply} {result : Node × Supply}
    (h : parse text supply = .ok result) : ∃ form, nodeOf depthLimit supply form = .ok result := by
  rw [parse, parseWithin, parseTrimmed] at h
  split at h
  · split at h
    · exact exists_nodeOf_of_treeOf h
    · exact exists_nodeOf_of_parseMarkup h
  · exact exists_nodeOf_of_parseMarkup h

/-- The tree of a source is built, and all identifiers in it are minted for it. -/
theorem fresh_parse {text : String} {supply after : Supply} {tree : Node}
    (h : parse text supply = .ok (tree, after)) : tree.Built ∧ Supply.Mints supply after tree.ids := by
  obtain ⟨form, hform⟩ := exists_nodeOf_of_parse h
  exact fresh_nodeOf form hform

end EditableMarkup.Source
