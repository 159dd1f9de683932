import EditableMarkup.Proofs.Source.Verbatim
import EditableMarkup.Proofs.Tree.Entries
import EditableMarkup.Proofs.Tree.Numbers

/-!
# What parsed trees are like

The names in the tree of a source are names of markup, no node and no mapping in
it has a key twice, and it is no deeper than the levels allow.  So it is printable
as soon as its numbers are finite and can be written and its expressions are paths.
-/

namespace EditableMarkup

namespace Source

open EditableMarkup.Grammar

/-! ## Values -/

mutual

/-- No mapping in the value of a form has a key twice. -/
theorem proper_of_valueOf : ∀ (form : Form) (value : Value),
    valueOf form = .ok value → value.Proper
  | .string slice, value, h => by
      rw [valueOf] at h
      obtain ⟨_, _, h⟩ := exists_of_bind_eq_ok h
      cases h
      trivial
  | .number slice, value, h => by
      rw [valueOf] at h
      obtain ⟨number, _, h⟩ := exists_of_bind_eq_ok h
      cases number <;> cases h <;> trivial
  | .boolean slice, value, h => by
      rw [valueOf] at h
      cases h
      trivial
  | .signed slice sign operand, value, h => by
      cases operand with
      | number literal =>
          rw [valueOf] at h
          obtain ⟨number, _, h⟩ := exists_of_bind_eq_ok h
          cases number <;> cases h <;> trivial
      | _ =>
          cases h
          trivial
  | .group slice inner, value, h => by
      rw [valueOf] at h
      obtain ⟨found, hfound, h⟩ := exists_of_bind_eq_ok h
      have hinner := proper_of_valueOf inner found hfound
      cases found with
      | expression text =>
          cases h
          trivial
      | string text | number number | boolean value | mapping entries =>
          cases h
          exact hinner
  | .object slice members, value, h => by
      rw [valueOf] at h
      obtain ⟨entries, hentries, h⟩ := exists_of_bind_eq_ok h
      cases entries with
      | none =>
          cases h
          trivial
      | some entries =>
          cases h
          exact proper_of_entriesOf members [] entries ⟨List.nodup_nil, trivial⟩ hentries
  | .plain .., value, h | .function .., value, h | .block .., value, h
  | .returned .., value, h | .returnedNothing _, value, h | .element .., value, h
  | .selfClosed .., value, h | .fragment .., value, h => by
      cases h
      trivial

theorem proper_of_entriesOf : ∀ (members : List (Member Form)) (entries result : Entries Value),
    (Value.mapping entries).Proper → entriesOf entries members = .ok (some result) →
    (Value.mapping result).Proper
  | [], entries, result, hentries, h => by
      rw [entriesOf] at h
      cases h
      exact hentries
  | .property (.word key) value :: rest, entries, result, hentries, h => by
      rw [entriesOf] at h
      obtain ⟨meaning, hmeaning, h⟩ := exists_of_bind_eq_ok h
      have hvalue := proper_of_valueOf value meaning hmeaning
      exact proper_of_entriesOf rest _ result (hentries.set key.text hvalue) h
  | .property (.quoted key) value :: rest, entries, result, hentries, h => by
      rw [entriesOf] at h
      obtain ⟨name, _, h⟩ := exists_of_bind_eq_ok h
      obtain ⟨meaning, hmeaning, h⟩ := exists_of_bind_eq_ok h
      have hvalue := proper_of_valueOf value meaning hmeaning
      exact proper_of_entriesOf rest _ result (hentries.set name hvalue) h
  | .property (.number _) _ :: _, _, _, _, h | .property (.computed _) _ :: _, _, _, _, h
  | .other _ :: _, _, _, _, h => by
      cases h

end

theorem proper_of_settingOf {setting : Setting Form} {value : Value}
    (h : settingOf setting = .ok value) : value.Proper := by
  cases setting with
  | braces form => exact proper_of_valueOf form value h
  | quoted _ | emptyBraces _ | markup _ =>
      cases h
      trivial

/-- No attribute is set twice. -/
theorem distinct_of_attributesOf {attributes : List (Attribute Form)}
    {entries result : Entries Value} (hentries : entries.Distinct)
    (h : attributesOf entries attributes = .ok result) : result.Distinct := by
  induction attributes generalizing entries with
  | nil =>
      cases h
      exact hentries
  | cons item rest ih =>
      cases item with
      | bare name => exact ih (hentries.set name.text _) h
      | named name setting =>
          rw [attributesOf] at h
          obtain ⟨value, _, h⟩ := exists_of_bind_eq_ok h
          exact ih (hentries.set name.text value) h
      | spaced _ | spread _ => exact ih hentries h

/-! ## Nodes -/

/-- The names of a node are names of markup, and neither the node nor a mapping in its attributes has
a key twice. -/
structure Regular (node : Node) : Prop where
  tag : node.tag.Printable
  names : ∀ entry ∈ node.attributes, IsMarkupName entry.1
  distinct : Entries.Distinct node.attributes
  values : Value.AllProper node.attributes

/-- What is taken as a name of markup is one on its own. -/
theorem isMarkupName_of_takes {source : List Char} {word : Slice}
    (h : Takes source Lexeme.markupName word) : IsMarkupName word.text := by
  obtain ⟨front, rest, hsource, hlength, hname⟩ := Lexeme.front_markupName h.2
  rw [IsMarkupName, Slice.text, String.toList_ofList, Slice.chars, hsource, hlength, List.take_left,
    hname]

variable {window : Window}

theorem printable_tagOf {name : ElementName} (h : name.Lexed window.source) :
    (tagOf name).Printable := by
  cases name with
  | simple word => exact isMarkupName_of_takes h
  | path first rest | spaced space word =>
      show IsMarkupName "div"
      decide

/-- The names and keys of a node that is made of sound parts are regular. -/
theorem Parts.Make.regular {parts : Parts} {node : Node} (hmake : parts.Make node)
    (sound : parts.Sound window) : Regular node where
  tag := by
    rw [hmake.tag]
    rcases sound.tag with hfragment | ⟨name, htag, hlexed⟩
    · rw [hfragment]
      trivial
    · rw [htag]
      exact printable_tagOf hlexed
  names entry hentry := by
    rcases setBy_of_attributesOf hmake.attributes entry hentry with hnone | hset
    · cases hnone
    · cases hset with
      | bare hmem => exact isMarkupName_of_takes (Attribute.sound_bare.mp (sound.attributes _ hmem))
      | named hmem _ =>
          exact isMarkupName_of_takes (Attribute.sound_named.mp (sound.attributes _ hmem)).1
  distinct := @distinct_of_attributesOf _ [] _ List.nodup_nil hmake.attributes
  values := Value.allProper_iff.mpr fun entry hentry => by
    rcases setBy_of_attributesOf hmake.attributes entry hentry with hnone | hset
    · cases hnone
    · cases hset with
      | bare _ => trivial
      | named _ hvalue => exact proper_of_settingOf hvalue

/-! ## Levels -/

end Source

theorem Node.heightAll_le_iff {contents : List (Content Node)} {levels : Nat} :
    Node.heightAll contents ≤ levels ↔ ∀ node, .node node ∈ contents → node.height ≤ levels := by
  induction contents with
  | nil => simp [Node.heightAll]
  | cons content rest ih =>
      cases content with
      | text _ => simpa [Node.heightAll] using ih
      | expression _ => simpa [Node.heightAll] using ih
      | node child => simp [Node.heightAll, ih]

namespace Source

open EditableMarkup.Grammar

theorem height_freshNode {contents : List (Content Node)} {levels : Nat} (hlevels : levels ≠ 0)
    (h : ∀ node, .node node ∈ contents → node.height ≤ levels - 1) (tag : Tag)
    (attributes : Entries Value) (supply : Supply) :
    (freshNode tag attributes contents supply).1.height ≤ levels := by
  have hinside : Node.heightAll (Node.withoutBlankTexts contents) ≤ levels - 1 :=
    Node.heightAll_le_iff.mpr fun node hnode => h node (Node.node_mem_withoutBlankTexts.mp hnode)
  rw [freshNode, Node.height]
  omega

mutual

/-- The node of a form is no higher than the levels allow. -/
theorem height_le_of_nodeOf {levels : Nat} {supply after : Supply} {node : Node} : ∀ form,
    nodeOf levels supply form = .ok (node, after) → node.height ≤ levels
  | .element _ name attributes children _, h => by
      rw [nodeOf] at h
      split at h
      · cases h
      · next hlevels =>
          obtain ⟨entries, _, h⟩ := exists_of_bind_eq_ok h
          obtain ⟨⟨contents, between⟩, hcontents, h⟩ := exists_of_bind_eq_ok h
          have hheight := height_freshNode hlevels (height_le_of_contentsOf children hcontents)
            (tagOf name) entries between
          rwa [Except.ok.inj h] at hheight
  | .selfClosed _ name attributes, h => by
      rw [nodeOf] at h
      split at h
      · cases h
      · next hlevels =>
          obtain ⟨entries, _, h⟩ := exists_of_bind_eq_ok h
          have hheight := height_freshNode hlevels (fun _ hnode => absurd hnode List.not_mem_nil)
            (tagOf name) entries supply
          rwa [Except.ok.inj h] at hheight
  | .fragment _ children, h => by
      rw [nodeOf] at h
      split at h
      · cases h
      · next hlevels =>
          obtain ⟨⟨contents, between⟩, hcontents, h⟩ := exists_of_bind_eq_ok h
          have hheight := height_freshNode hlevels (height_le_of_contentsOf children hcontents)
            .fragment [] between
          rwa [Except.ok.inj h] at hheight
  | .plain .., h | .string _, h | .number _, h | .boolean _, h | .signed .., h | .group .., h
  | .object .., h | .function .., h | .block .., h | .returned .., h | .returnedNothing _, h =>
      nomatch h

theorem height_le_of_contentsOf {levels : Nat} {supply after : Supply}
    {contents : List (Content Node)} : ∀ children,
    contentsOf levels supply children = .ok (contents, after) →
    ∀ node, .node node ∈ contents → node.height ≤ levels
  | [], h => by
      rw [contentsOf] at h
      cases h
      exact fun _ hnode => absurd hnode List.not_mem_nil
  | .text slice :: rest, h => by
      rw [contentsOf] at h
      obtain ⟨⟨others, _⟩, hothers, h⟩ := exists_of_bind_eq_ok h
      cases h
      have hrest := height_le_of_contentsOf rest hothers
      exact fun node hnode => hrest node ((List.mem_cons.mp hnode).resolve_left nofun)
  | .markup form :: rest, h => by
      rw [contentsOf] at h
      obtain ⟨⟨made, _⟩, hmade, h⟩ := exists_of_bind_eq_ok h
      obtain ⟨⟨others, _⟩, hothers, h⟩ := exists_of_bind_eq_ok h
      cases h
      intro node hnode
      rcases List.mem_cons.mp hnode with heq | hnode
      · cases heq
        exact height_le_of_nodeOf form hmade
      · exact height_le_of_contentsOf rest hothers node hnode
  | .braces form :: rest, h => by
      rw [contentsOf] at h
      obtain ⟨content, hcontent, h⟩ := exists_of_bind_eq_ok h
      obtain ⟨⟨others, _⟩, hothers, h⟩ := exists_of_bind_eq_ok h
      cases h
      intro node hnode
      have hne := (ids_contentOf hcontent).2 node
      exact height_le_of_contentsOf rest hothers node
        ((List.mem_cons.mp hnode).resolve_left fun heq => hne heq.symm)
  | .emptyBraces :: rest, h => by
      rw [contentsOf] at h
      exact height_le_of_contentsOf rest h
  | .spread form :: rest, h => by
      rw [contentsOf] at h
      obtain ⟨⟨others, _⟩, hothers, h⟩ := exists_of_bind_eq_ok h
      cases h
      have hrest := height_le_of_contentsOf rest hothers
      exact fun node hnode => hrest node ((List.mem_cons.mp hnode).resolve_left nofun)

end

/-! ## Trees -/

/-- The tree of a source is built, all of its nodes are regular, and it is no higher than the levels
allow. -/
structure Parsed (levels : Nat) (tree : Node) : Prop where
  built : tree.Built
  regular : ∀ node ∈ tree.nodes, Regular node
  height_le : tree.height ≤ levels

theorem parsed_of_parseWithin {levels : Nat} {text : String} {supply after : Supply} {tree : Node}
    (h : parseWithin levels text supply = .ok (tree, after)) : Parsed levels tree := by
  obtain ⟨window, root, _, hsound, hnode⟩ := stemsFrom_of_parseWithin h
  refine ⟨(fresh_nodeOf root hnode).1, fun node hmem => ?_, height_le_of_nodeOf root hnode⟩
  obtain ⟨form, parts, hform, hparts, hmake⟩ := originates_of_nodeOf root hnode node hmem
  exact hmake.regular (hsound.parts form parts hform hparts)

end Source

/-! ## Printable trees -/

section PrintableWith

variable {accepts : String → Prop}

mutual

theorem Value.printable_of_proper : {value : Value} → value.Proper → value.isWritable = true →
    (∀ source ∈ value.expressions, accepts source) →
    (∀ number ∈ value.numbers, number.isFinite = true) → value.PrintableWith accepts
  | .string _, _, _, _, _ => trivial
  | .boolean _, _, _, _, _ => trivial
  | .number value, _, hwritable, _, hfinite => ⟨hfinite value (List.mem_cons_self ..), hwritable⟩
  | .expression source, _, _, hsources, _ => hsources source (List.mem_cons_self ..)
  | .mapping _, hproper, hwritable, hsources, hfinite =>
    ⟨hproper.1, Value.allPrintable_of_allProper hproper.2 hwritable hsources hfinite⟩

theorem Value.allPrintable_of_allProper : {entries : List (String × Value)} →
    Value.AllProper entries → Value.areWritable entries = true →
    (∀ source ∈ Value.expressionsIn entries, accepts source) →
    (∀ number ∈ Value.numbersIn entries, number.isFinite = true) →
    Value.AllPrintableWith accepts entries
  | [], _, _, _, _ => trivial
  | (_, value) :: _, hproper, hwritable, hsources, hfinite => by
    rw [Value.areWritable, Bool.and_eq_true] at hwritable
    rw [Value.expressionsIn] at hsources
    rw [Value.numbersIn] at hfinite
    obtain ⟨hvalueSources, hrestSources⟩ := List.forall_mem_append.mp hsources
    obtain ⟨hvalueFinite, hrestFinite⟩ := List.forall_mem_append.mp hfinite
    exact ⟨Value.printable_of_proper hproper.1 hwritable.1 hvalueSources hvalueFinite,
      Value.allPrintable_of_allProper hproper.2 hwritable.2 hrestSources hrestFinite⟩

end

theorem Node.childrenPrintable_of_forall : {children : List (Content Node)} →
    (∀ content ∈ children, content.isBlankText = false) →
    (∀ source, .expression source ∈ children → accepts source) →
    (∀ node, .node node ∈ children → node.PrintableWith accepts) →
    Node.ChildrenPrintableWith accepts children
  | [], _, _, _ => trivial
  | content :: rest, hblank, hsources, hnodes => by
    have hrest : Node.ChildrenPrintableWith accepts rest := Node.childrenPrintable_of_forall
      (fun other hother => hblank other (List.mem_cons_of_mem _ hother))
      (fun source hsource => hsources source (List.mem_cons_of_mem _ hsource))
      (fun node hnode => hnodes node (List.mem_cons_of_mem _ hnode))
    cases content with
    | text text => exact ⟨hblank _ (List.mem_cons_self ..), hrest⟩
    | expression source => exact ⟨hsources source (List.mem_cons_self ..), hrest⟩
    | node node => exact ⟨hnodes node (List.mem_cons_self ..), hrest⟩

end PrintableWith

theorem Node.isWritable_of_mem : {children : List (Content Node)} →
    Node.areWritable children = true → ∀ node, .node node ∈ children → node.isWritable = true
  | [], _, _, hnode => nomatch hnode
  | .text _ :: rest, h, node, hnode =>
    Node.isWritable_of_mem (show Node.areWritable rest = true from h) node
      ((List.mem_cons.mp hnode).resolve_left nofun)
  | .expression _ :: rest, h, node, hnode =>
    Node.isWritable_of_mem (show Node.areWritable rest = true from h) node
      ((List.mem_cons.mp hnode).resolve_left nofun)
  | .node first :: rest, h, node, hnode => by
    rw [Node.areWritable, Bool.and_eq_true] at h
    rcases List.mem_cons.mp hnode with heq | hnode
    · cases heq
      exact h.1
    · exact Node.isWritable_of_mem h.2 node hnode

namespace Source

/-- The numbers in the attributes of a node. -/
def numbersOf (node : Node) : List Number :=
  Value.numbersIn node.attributes

section SimpleWith

variable {accepts : String → Prop}

/-- All numbers in a tree are finite, and all expressions in it are accepted. -/
structure SimpleWith (accepts : String → Prop) (tree : Node) : Prop where
  finite : ∀ node ∈ tree.nodes, ∀ number ∈ numbersOf node, number.isFinite = true
  accepted : ∀ node ∈ tree.nodes, ∀ source ∈ expressionsOf node, accepts source

/-- All numbers in a tree are finite, and all expressions in it are paths. -/
abbrev Simple (tree : Node) : Prop := SimpleWith IsPath tree

theorem SimpleWith.child {tree child : Node} (simple : SimpleWith accepts tree)
    (hchild : .node child ∈ tree.children) : SimpleWith accepts child where
  finite node hnode := simple.finite node (Node.mem_nodes_iff.mpr (.inr ⟨child, hchild, hnode⟩))
  accepted node hnode :=
    simple.accepted node (Node.mem_nodes_iff.mpr (.inr ⟨child, hchild, hnode⟩))

theorem SimpleWith.mono {allows : String → Prop} (haccepts : ∀ source, accepts source → allows source)
    {tree : Node} (simple : SimpleWith accepts tree) : SimpleWith allows tree where
  finite := simple.finite
  accepted node hnode source hsource := haccepts source (simple.accepted node hnode source hsource)

/-- A built tree of regular nodes is printable, if it is simple and can be written. -/
theorem printable_of_regular {tree : Node} (hbuilt : tree.Built)
    (hregular : ∀ node ∈ tree.nodes, Regular node) (simple : SimpleWith accepts tree)
    (hwritable : tree.isWritable = true) : tree.PrintableWith accepts := by
  induction tree using Node.induction with
  | step tree ih =>
      have hself := Node.mem_nodes_self tree
      have regular := hregular tree hself
      have hsources := simple.accepted tree hself
      obtain ⟨hfragment, hblank⟩ := Node.remade_iff.mp hbuilt.remade
      rw [Node.isWritable_eq, Bool.and_eq_true] at hwritable
      obtain ⟨hvalueSources, hchildSources⟩ := List.forall_mem_append.mp hsources
      have hvalues := Value.allPrintable_of_allProper regular.values hwritable.1 hvalueSources
        (simple.finite tree hself)
      have hchildren : Node.ChildrenPrintableWith accepts tree.children := by
        refine Node.childrenPrintable_of_forall hblank (fun source hsource => ?_)
          fun child hchild => ?_
        · exact hchildSources source (List.mem_filterMap.mpr ⟨_, hsource, rfl⟩)
        · exact ih child hchild (hbuilt.child hchild)
            (fun node hnode => hregular node (Node.mem_nodes_iff.mpr (.inr ⟨child, hchild, hnode⟩)))
            (simple.child hchild) (Node.isWritable_of_mem hwritable.2 child hchild)
      obtain ⟨tag, attributes, children, id⟩ := tree
      exact ⟨regular.tag, ⟨regular.distinct, regular.names, hvalues, hfragment⟩, hchildren⟩

end SimpleWith

end Source

end EditableMarkup
