import EditableMarkup.Proofs.Source.Minting
import EditableMarkup.Proofs.Source.Occurrences
import EditableMarkup.Proofs.Tree.Printable

/-!
# Where nodes come from

Every node of the tree of some markup is made of an element or a fragment that
occurs in the markup.  Its tag, its attributes, and its texts and expressions
are read off the parts of that construct alone, whatever stands around it.
-/

namespace EditableMarkup.Source

open EditableMarkup.Grammar

/-! ## Parts of markup -/

/-- What a node is made of: a tag, attributes and children. -/
structure Parts where
  tag : Tag
  attributes : List (Attribute Form)
  children : List (Child Form)

/-- The parts of an element or a fragment. -/
def partsOf? : Form → Option Parts
  | .element _ name attributes children _ => some ⟨tagOf name, attributes, children⟩
  | .selfClosed _ name attributes => some ⟨tagOf name, attributes, []⟩
  | .fragment _ children => some ⟨.fragment, [], children⟩
  | _ => none

/-- A child becomes a text or an expression. -/
inductive Becomes : Child Form → Content Node → Prop where
  | text (slice : Slice) : Becomes (.text slice) (.text (Text.trimmed slice.text))
  | braces {form : Form} {content : Content Node} (h : contentOf form = .ok content) :
      Becomes (.braces form) content
  | spread (form : Form) : Becomes (.spread form) (.expression ("..." ++ form.text))

/-- A node is made of parts: its children that are no nodes come from children among the parts. -/
structure Parts.Make (parts : Parts) (node : Node) : Prop where
  tag : node.tag = parts.tag
  attributes : attributesOf [] parts.attributes = .ok node.attributes
  children : ∀ content ∈ node.children, content.node? = none →
    ∃ child ∈ parts.children, Becomes child content

/-- A node is made of the parts of a construct that occurs. -/
def Originates (found : List Occurrence) (node : Node) : Prop :=
  ∃ form parts, .form form ∈ found ∧ partsOf? form = some parts ∧ parts.Make node

theorem Originates.mono {found others : List Occurrence} {node : Node} (h : Originates found node)
    (hsubset : found ⊆ others) : Originates others node := by
  obtain ⟨form, parts, hform, hparts⟩ := h
  exact ⟨form, parts, hsubset hform, hparts⟩

/-! ## Nodes of forms -/

/-- Contents come from children, and the nodes in them from constructs in the children. -/
structure ComesFrom (children : List (Child Form)) (contents : List (Content Node)) : Prop where
  becomes : ∀ content ∈ contents, content.node? = none → ∃ child ∈ children, Becomes child content
  originates : ∀ child, .node child ∈ contents → ∀ node ∈ child.nodes,
    Originates (occurrencesInChildren children) node

namespace ComesFrom

variable {children : List (Child Form)} {contents : List (Content Node)}

theorem nil : ComesFrom [] [] where
  becomes _ h := absurd h List.not_mem_nil
  originates _ h := absurd h List.not_mem_nil

/-- A child in front that nothing comes from. -/
theorem skip (h : ComesFrom children contents) (child : Child Form)
    (hfound : occurrencesInChildren children ⊆ occurrencesInChildren (child :: children)) :
    ComesFrom (child :: children) contents where
  becomes content hcontent hnode := by
    obtain ⟨found, hmem, hbecomes⟩ := h.becomes content hcontent hnode
    exact ⟨found, List.mem_cons_of_mem _ hmem, hbecomes⟩
  originates found hmem node hnode := (h.originates found hmem node hnode).mono hfound

/-- A child in front that becomes a text or an expression. -/
theorem cons (h : ComesFrom children contents) {child : Child Form} {content : Content Node}
    (hbecomes : Becomes child content) (hnone : ∀ node, content ≠ .node node)
    (hfound : occurrencesInChildren children ⊆ occurrencesInChildren (child :: children)) :
    ComesFrom (child :: children) (content :: contents) where
  becomes other hother hnode := by
    rcases List.mem_cons.mp hother with rfl | hother
    · exact ⟨child, List.mem_cons_self .., hbecomes⟩
    · exact (h.skip child hfound).becomes other hother hnode
  originates found hmem := by
    rcases List.mem_cons.mp hmem with heq | hmem
    · exact absurd heq.symm (hnone found)
    · exact (h.skip child hfound).originates found hmem

/-- Markup in front. -/
theorem node (h : ComesFrom children contents) {form : Form} {made : Node}
    (horiginates : ∀ node ∈ made.nodes, Originates (occurrences form) node) :
    ComesFrom (.markup form :: children) (.node made :: contents) where
  becomes content hcontent hnode := by
    rcases List.mem_cons.mp hcontent with rfl | hcontent
    · cases hnode
    · exact (h.skip _ (List.subset_append_right ..)).becomes content hcontent hnode
  originates found hmem node hnode := by
    rcases List.mem_cons.mp hmem with heq | hmem
    · cases heq
      exact (horiginates node hnode).mono (List.subset_append_left ..)
    · exact (h.skip _ (List.subset_append_right ..)).originates found hmem node hnode

end ComesFrom

/-- The nodes of a fresh node originate in a form if it has the parts of the form. -/
theorem originates_of_freshNode {form : Form} {parts : Parts} (hparts : partsOf? form = some parts)
    {contents : List (Content Node)} (hcontents : ComesFrom parts.children contents)
    {entries : Entries Value} (hentries : attributesOf [] parts.attributes = .ok entries)
    (hfound : occurrencesInChildren parts.children ⊆ occurrences form) (supply : Supply) :
    ∀ node ∈ (freshNode parts.tag entries contents supply).1.nodes,
      Originates (occurrences form) node := by
  intro node hnode
  rcases Node.mem_nodes_iff.mp hnode with rfl | ⟨child, hchild, hnode⟩
  · refine ⟨form, parts, mem_occurrences_self form, hparts, rfl, hentries, fun content hcontent => ?_⟩
    exact hcontents.becomes content (List.mem_of_mem_filter hcontent)
  · exact (hcontents.originates child (List.mem_of_mem_filter hchild) node hnode).mono hfound

mutual

/-- Every node of the tree of a form originates in the form. -/
theorem originates_of_nodeOf {levels : Nat} {supply after : Supply} {tree : Node} : ∀ form,
    nodeOf levels supply form = .ok (tree, after) →
    ∀ node ∈ tree.nodes, Originates (occurrences form) node
  | .element slice name attributes children closing, h => by
      have hparts : partsOf? (.element slice name attributes children closing) =
          some ⟨tagOf name, attributes, children⟩ := rfl
      rw [nodeOf] at h
      split at h
      · cases h
      · obtain ⟨entries, hentries, h⟩ := exists_of_bind_eq_ok h
        obtain ⟨⟨contents, _⟩, hcontents, h⟩ := exists_of_bind_eq_ok h
        have hcomes := comesFrom_of_contentsOf children hcontents
        have hnodes := originates_of_freshNode hparts hcomes hentries
          (List.subset_cons_of_subset _ (List.subset_append_right ..))
        cases h
        exact hnodes _
  | .selfClosed slice name attributes, h => by
      have hparts : partsOf? (.selfClosed slice name attributes) =
          some ⟨tagOf name, attributes, []⟩ := rfl
      rw [nodeOf] at h
      split at h
      · cases h
      · obtain ⟨entries, hentries, h⟩ := exists_of_bind_eq_ok h
        have hnodes := originates_of_freshNode hparts .nil hentries (List.nil_subset _)
        cases h
        exact hnodes _
  | .fragment slice children, h => by
      have hparts : partsOf? (.fragment slice children) = some ⟨.fragment, [], children⟩ := rfl
      rw [nodeOf] at h
      split at h
      · cases h
      · obtain ⟨⟨contents, _⟩, hcontents, h⟩ := exists_of_bind_eq_ok h
        have hcomes := comesFrom_of_contentsOf children hcontents
        have hnodes := originates_of_freshNode hparts hcomes rfl (List.subset_cons_self ..)
        cases h
        exact hnodes _
  | .plain .., h | .string _, h | .number _, h | .boolean _, h | .signed .., h | .group .., h
  | .object .., h | .function .., h | .block .., h | .returned .., h | .returnedNothing _, h =>
      nomatch h

theorem comesFrom_of_contentsOf {levels : Nat} {supply after : Supply}
    {contents : List (Content Node)} : ∀ children,
    contentsOf levels supply children = .ok (contents, after) → ComesFrom children contents
  | [], h => by
      rw [contentsOf] at h
      cases h
      exact .nil
  | .text slice :: rest, h => by
      rw [contentsOf] at h
      obtain ⟨⟨others, _⟩, hothers, h⟩ := exists_of_bind_eq_ok h
      cases h
      exact (comesFrom_of_contentsOf rest hothers).cons (.text slice) nofun (List.Subset.refl _)
  | .markup form :: rest, h => by
      rw [contentsOf] at h
      obtain ⟨⟨made, _⟩, hmade, h⟩ := exists_of_bind_eq_ok h
      obtain ⟨⟨others, _⟩, hothers, h⟩ := exists_of_bind_eq_ok h
      cases h
      exact (comesFrom_of_contentsOf rest hothers).node (originates_of_nodeOf form hmade)
  | .braces form :: rest, h => by
      rw [contentsOf] at h
      obtain ⟨content, hcontent, h⟩ := exists_of_bind_eq_ok h
      obtain ⟨⟨others, _⟩, hothers, h⟩ := exists_of_bind_eq_ok h
      cases h
      exact (comesFrom_of_contentsOf rest hothers).cons (.braces hcontent) (ids_contentOf hcontent).2
        (List.subset_append_right ..)
  | .emptyBraces :: rest, h => by
      rw [contentsOf] at h
      exact (comesFrom_of_contentsOf rest h).skip _ (List.Subset.refl _)
  | .spread form :: rest, h => by
      rw [contentsOf] at h
      obtain ⟨⟨others, _⟩, hothers, h⟩ := exists_of_bind_eq_ok h
      cases h
      exact (comesFrom_of_contentsOf rest hothers).cons (.spread form) nofun
        (List.subset_append_right ..)

end

/-! ## Attributes -/

/-- An attribute has the value of its setting, or it is set to nothing and on. -/
inductive SetBy (attributes : List (Attribute Form)) : String × Value → Prop where
  | bare {name : Slice} (h : .bare name ∈ attributes) : SetBy attributes (name.text, .boolean true)
  | named {name : Slice} {setting : Setting Form} {value : Value}
      (h : .named name setting ∈ attributes) (hvalue : settingOf setting = .ok value) :
      SetBy attributes (name.text, value)

theorem SetBy.cons {attributes : List (Attribute Form)} {entry : String × Value}
    (h : SetBy attributes entry) (item : Attribute Form) : SetBy (item :: attributes) entry := by
  cases h with
  | bare h => exact .bare (List.mem_cons_of_mem _ h)
  | named h hvalue => exact .named (List.mem_cons_of_mem _ h) hvalue

/-- Attributes are set one by one. -/
theorem setBy_of_attributesOf {attributes : List (Attribute Form)} {entries result : Entries Value}
    (h : attributesOf entries attributes = .ok result) :
    ∀ entry ∈ result, entry ∈ entries ∨ SetBy attributes entry := by
  induction attributes generalizing entries with
  | nil =>
      cases h
      exact fun _ => Or.inl
  | cons item rest ih =>
      intro entry hentry
      cases item with
      | bare name =>
          rcases ih h entry hentry with hset | hrest
          · rcases Entries.mem_of_mem_set hset with hold | rfl
            · exact Or.inl hold
            · exact Or.inr (.bare (List.mem_cons_self ..))
          · exact Or.inr (hrest.cons _)
      | named name setting =>
          rw [attributesOf] at h
          obtain ⟨value, hvalue, h⟩ := exists_of_bind_eq_ok h
          rcases ih h entry hentry with hset | hrest
          · rcases Entries.mem_of_mem_set hset with hold | rfl
            · exact Or.inl hold
            · exact Or.inr (.named (List.mem_cons_self ..) hvalue)
          · exact Or.inr (hrest.cons _)
      | spaced inside | spread value => exact (ih h entry hentry).imp_right fun hrest => hrest.cons _

end EditableMarkup.Source
