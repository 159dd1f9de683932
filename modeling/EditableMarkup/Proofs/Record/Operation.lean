import EditableMarkup.Proofs.Record.Loaded
import EditableMarkup.Proofs.Record.Session
import EditableMarkup.Proofs.Text.Blank
import EditableMarkup.Record.Operation

/-!
# Trees of a session

Every tree that is ever held is built, whichever way it came about: a node is
checked when it is made, and all others are made of nodes that are built already.
What is built can be made anew without a refusal and without a lost child, so an
update is refused on account of its target only, and reconciling never.
-/

namespace EditableMarkup

/-! ## Documents -/

namespace Document

theorem built_of_ofPlain {data : Plain} {supply after : Supply} {document : Document}
    (h : ofPlain data supply = .ok (document, after)) : document.tree.Built := by
  cases data with
  | record fields =>
      obtain ⟨_, _, h⟩ := exists_of_bind_eq_ok h
      obtain ⟨_, _, h⟩ := exists_of_bind_eq_ok h
      obtain ⟨stored, _, h⟩ := exists_of_bind_eq_ok h
      obtain ⟨⟨tree, between⟩, htree, h⟩ := exists_of_bind_eq_ok h
      cases h
      exact Stored.built_of_toNode htree
  | _ => cases h

theorem built_of_edit {document changed : Document} (htree : document.tree.Built) {id : String}
    {changes : Changes} (hknown : changes.unknown = [])
    (hchildren : ∀ children, changes.children = some children →
      ∀ child, .node child ∈ children → child.Built)
    {before after : Clock} (h : document.edit id changes before = .ok (changed, after)) :
    changed.tree.Built := by
  rcases update?_of_edit h with hsame | hupdate
  · rwa [hsame]
  · have hnew : document.tree.update id changes = .ok changed.tree := by
      rw [Node.update_eq, hupdate]
      rfl
    exact htree.update hknown hchildren hnew

end Document

/-! ## One operation -/

namespace Session

/-- All trees that a session holds are built. -/
def AllBuilt (session : Session) : Prop :=
  ∀ tree, session.Holds tree → tree.Built

variable {session after : Session}

theorem AllBuilt.keepTree (h : session.AllBuilt) (into : String) {new : Node} (hnew : new.Built) :
    (session.keepTree into new).AllBuilt := by
  intro tree htree
  rcases holds_keepTree session into new htree with hold | rfl
  · exact h tree hold
  · exact hnew

theorem AllBuilt.keepDocument (h : session.AllBuilt) (into : String) {document : Document}
    (hnew : document.tree.Built) : (session.keepDocument into document).AllBuilt := by
  intro tree htree
  rcases holds_keepDocument session into document htree with hold | rfl
  · exact h tree hold
  · exact hnew

theorem AllBuilt.tree (h : session.AllBuilt) {name : String} {tree : Node}
    (htree : session.trees name = some tree) : tree.Built :=
  h tree (.inl ⟨name, htree⟩)

theorem AllBuilt.document (h : session.AllBuilt) {name : String} {document : Document}
    (hdocument : session.documents name = some document) : document.tree.Built :=
  h document.tree (.inr ⟨name, document, hdocument, rfl⟩)

theorem AllBuilt.content? (h : session.AllBuilt) {part : Part} {child : Node}
    (hchild : session.content? part = some (.node child)) : child.Built := by
  cases part with
  | text text => cases hchild
  | expression source => cases hchild
  | tree name =>
      obtain ⟨tree, htree, heq⟩ := Option.map_eq_some_iff.mp hchild
      cases heq
      exact h.tree htree

/-- The nodes among children that are handed in are built. -/
theorem AllBuilt.contents (h : session.AllBuilt) {parts : List Part}
    {children : List (Content Node)} (hchildren : parts.mapM session.content? = some children) :
    ∀ child, .node child ∈ children → child.Built := by
  induction parts generalizing children with
  | nil =>
      cases hchildren
      exact nofun
  | cons part parts ih =>
      rw [List.mapM_cons] at hchildren
      obtain ⟨first, hfirst, hchildren⟩ := Option.bind_eq_some_iff.mp hchildren
      obtain ⟨rest, hrest, hchildren⟩ := Option.bind_eq_some_iff.mp hchildren
      cases hchildren
      intro child hchild
      rcases List.mem_cons.mp hchild with heq | hchild
      · exact h.content? (heq ▸ hfirst)
      · exact ih hrest child hchild

theorem AllBuilt.changes? (h : session.AllBuilt) {fields : Fields} {changes : Changes}
    (hchanges : session.changes? fields = some changes) :
    changes.unknown = [] ∧ ∀ children, changes.children = some children →
      ∀ child, .node child ∈ children → child.Built := by
  rw [Session.changes?] at hchanges
  split at hchanges
  · cases hchanges
    exact ⟨rfl, nofun⟩
  · obtain ⟨children, hchildren, heq⟩ := Option.bind_eq_some_iff.mp hchanges
    cases heq
    refine ⟨rfl, fun others hothers => ?_⟩
    cases hothers
    exact h.contents hchildren

theorem built_of_arises {trees : Node → Prop} (h : ∀ tree, trees tree → tree.Built)
    {before after : Supply} {new : Node} (harises : Arises trees before after new) : new.Built := by
  cases harises with
  | minted hbuilt _ => exact hbuilt
  | inherited _ hinherits => exact hinherits.built
  | reconciled _ hcurrent => exact (h _ hcurrent).reconcile _

/-- Whatever an operation adds to built trees is built. -/
theorem AllBuilt.operate? (h : session.AllBuilt) {operation : Operation}
    (hoperate : session.operate? operation = some after) : after.AllBuilt := by
  cases operation with
  | command command =>
      obtain ⟨new, harises, hadded⟩ := arises_of_attempt? h hoperate
      intro tree htree
      rcases hadded tree htree with hold | rfl
      · exact h tree hold
      · exact built_of_arises h harises
  | construct tag attributes parts id into =>
      obtain ⟨children, hchildren, hoperate⟩ := Option.bind_eq_some_iff.mp hoperate
      obtain ⟨tree, htree, hoperate⟩ := Option.bind_eq_some_iff.mp hoperate
      cases hoperate
      exact h.keepTree into (Node.built_of_make (eq_ok_of_toOption htree) (h.contents hchildren))
  | load data into =>
      obtain ⟨⟨tree, supply⟩, htree, hoperate⟩ := Option.bind_eq_some_iff.mp hoperate
      cases hoperate
      exact h.keepTree into (Stored.built_of_toNode (eq_ok_of_toOption htree))
  | loadDocument data into =>
      obtain ⟨⟨document, supply⟩, hdocument, hoperate⟩ := Option.bind_eq_some_iff.mp hoperate
      cases hoperate
      exact h.keepDocument into (Document.built_of_ofPlain (eq_ok_of_toOption hdocument))
  | update name id fields into =>
      obtain ⟨tree, htree, hoperate⟩ := Option.bind_eq_some_iff.mp hoperate
      obtain ⟨changes, hchanges, hoperate⟩ := Option.bind_eq_some_iff.mp hoperate
      obtain ⟨changed, hchanged, hoperate⟩ := Option.bind_eq_some_iff.mp hoperate
      cases hoperate
      obtain ⟨hknown, hchildren⟩ := h.changes? hchanges
      exact h.keepTree into
        ((h.tree htree).update hknown hchildren (eq_ok_of_toOption hchanged))
  | edit name id fields =>
      obtain ⟨document, hdocument, hoperate⟩ := Option.bind_eq_some_iff.mp hoperate
      obtain ⟨changes, hchanges, hoperate⟩ := Option.bind_eq_some_iff.mp hoperate
      obtain ⟨⟨changed, clock⟩, hchanged, hoperate⟩ := Option.bind_eq_some_iff.mp hoperate
      cases hoperate
      obtain ⟨hknown, hchildren⟩ := h.changes? hchanges
      exact h.keepDocument name (Document.built_of_edit (h.document hdocument) hknown hchildren
        (eq_ok_of_toOption hchanged))

/-! ## Whole sessions -/

theorem AllBuilt.operate (h : session.AllBuilt) (operation : Operation) :
    (session.operate operation).AllBuilt := by
  rw [Session.operate]
  cases hoperate : session.operate? operation with
  | none => exact h
  | some after => exact h.operate? hoperate

theorem allBuilt_start (resources : Document.Resources) : (start resources).AllBuilt := by
  rintro tree (⟨_, htree⟩ | ⟨_, _, hdocument, _⟩)
  · cases htree
  · cases hdocument

theorem AllBuilt.operateAll (h : session.AllBuilt) (operations : List Operation) :
    (session.operateAll operations).AllBuilt := by
  induction operations generalizing session with
  | nil => exact h
  | cons operation operations ih => exact ih (h.operate operation)

/-- At every moment of a session, in the trees that it holds no text is blank and no fragment has
attributes. So an update of such a tree succeeds or fails with the change of its target alone, and
what it puts there moves no other child; and reconciling it with any tree is never refused, and
changes identifiers only. -/
theorem wellFormed_of_holds (resources : Document.Resources) (operations : List Operation)
    {tree : Node} (h : ((start resources).operateAll operations).Holds tree) :
    (∀ node ∈ tree.nodes, (∀ text, .text text ∈ node.children → Text.trimmed text ≠ "") ∧
        (node.tag = .fragment → node.attributes = [])) ∧
      (∀ id changes, changes.unknown = [] →
        (Node.path? id tree = none → tree.update id changes = .ok tree) ∧
        ∀ path target, Node.path? id tree = some path → tree.at? path = some target →
          tree.update id changes =
            (fun new => tree.replaceAt new path) <$> target.change changes ∧
          ∀ new other, ¬path <+: other →
            ((tree.replaceAt new path).at? other).map Node.face = (tree.at? other).map Node.face) ∧
      ∀ previous : Node, previous.reconcileMade tree = .ok (previous.reconcile tree) ∧
        (previous.reconcile tree).unlabelled = tree.unlabelled := by
  have hbuilt : tree.Built := (allBuilt_start resources).operateAll operations tree h
  refine ⟨fun node hnode => ?_, fun id changes hknown => ⟨fun hpath => ?_, ?_⟩, fun previous => ?_⟩
  · obtain ⟨hfragment, hblank⟩ := Node.remade_iff.mp (hbuilt node hnode)
    refine ⟨fun text htext hempty => ?_, hfragment⟩
    have hkept : Text.isBlankText text = false := hblank (.text text) htext
    rw [Text.trimmed_eq_empty_iff.mp hempty] at hkept
    cases hkept
  · exact Node.update_of_path?_eq_none hpath hknown
  · exact fun path target hpath htarget =>
      ⟨Node.update_of_path? hbuilt hpath htarget hknown,
        fun new other haway => Node.face_at?_replaceAt htarget new haway⟩
  · exact ⟨hbuilt.reconcileMade previous, Node.unlabelled_reconcile previous tree⟩

/-- A fragment is made of a parsed tree between blank texts, its child is given new children, and
an attribute for it is refused. -/
def assembling : List Operation :=
  [.command (.parse "<a>text</a>" "first"),
    .construct .fragment [] [.text " ", .tree "first", .text "\n"] (some "root") "second",
    .update "second" (Supply.identifier 0) { children := some [.text "\t", .tree "first"] } "second",
    .update "second" "root" { attributes := some [("key", .string "value")] } "second"]

/-- The blank texts are gone at both levels, and the fragment has kept its child. -/
theorem wellFormed_of_assembling :
    ∃ tree, ((start firstResources).operateAll assembling).Holds tree ∧
      tree.nodes.map Node.tag = [.fragment, .named "a", .named "a"] ∧
      (∀ node ∈ tree.nodes, (∀ text, .text text ∈ node.children → Text.trimmed text ≠ "") ∧
        (node.tag = .fragment → node.attributes = [])) ∧
      (tree.update "nowhere" { tag := some .fragment } = .ok tree) := by
  have hfacts : (((start firstResources).operateAll assembling).trees "second").map
      (fun tree => (tree.nodes.map Node.tag, Node.path? "nowhere" tree)) =
        some ([.fragment, .named "a", .named "a"], none) := by
    decide +kernel
  obtain ⟨tree, htree, hfacts⟩ := Option.map_eq_some_iff.mp hfacts
  obtain ⟨htags, hpath⟩ := Prod.mk.inj hfacts
  have hheld : ((start firstResources).operateAll assembling).Holds tree := .inl ⟨"second", htree⟩
  obtain ⟨hwellFormed, hupdates, _⟩ := wellFormed_of_holds firstResources assembling hheld
  exact ⟨tree, hheld, htags, hwellFormed, (hupdates "nowhere" { tag := some .fragment } rfl).1 hpath⟩

end Session

end EditableMarkup
