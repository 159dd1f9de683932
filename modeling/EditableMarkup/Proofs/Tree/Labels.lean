import EditableMarkup.Panel
import EditableMarkup.Proofs.Tree.Reconcile
import EditableMarkup.Proofs.Tree.Supply
import EditableMarkup.Proofs.Tree.Update

/-!
# Identifiers at paths

An identifier marks the path that leads to it.  Setting a property or exchanging
the tag and the attributes of a node marks no path anew, and a reconciled tree
is marked at each path as one of its two trees is.
-/

namespace EditableMarkup

namespace Node

/-! ## Marks -/

/-- A path leads to a node with an identifier. -/
def Marks (tree : Node) (path : List Nat) (id : String) : Prop :=
  ∃ node, tree.at? path = some node ∧ node.id = id

theorem mem_ids_iff_exists_marks {tree : Node} {id : String} :
    id ∈ tree.ids ↔ ∃ path, tree.Marks path id :=
  mem_ids_iff

theorem marks_nil {tree : Node} {id : String} : tree.Marks [] id ↔ tree.id = id := by
  constructor
  · rintro ⟨node, hnode, hid⟩
    cases hnode
    exact hid
  · exact fun hid => ⟨tree, rfl, hid⟩

theorem marks_cons {tree : Node} {position : Nat} {path : List Nat} {id : String} :
    tree.Marks (position :: path) id ↔
      ∃ child, tree.children[position]? = some (.node child) ∧ child.Marks path id := by
  constructor
  · rintro ⟨node, hnode, hid⟩
    obtain ⟨child, hchild, hnode⟩ := at?_cons_eq_some_iff.mp hnode
    exact ⟨child, hchild, node, hnode, hid⟩
  · rintro ⟨child, hchild, node, hnode, hid⟩
    exact ⟨node, at?_cons_eq_some_iff.mpr ⟨child, hchild, hnode⟩, hid⟩

/-- A built tree that is marked only where another one is, and with the same identifiers. -/
structure Inherits (new old : Node) : Prop where
  built : new.Built
  marks : ∀ path id, new.Marks path id → old.Marks path id

theorem Inherits.refl {tree : Node} (h : tree.Built) : tree.Inherits tree where
  built := h
  marks _ _ hmarks := hmarks

/-- A tree in which a subtree is replaced inherits from the tree, if what stands there now inherits
from what stood there. -/
theorem Inherits.replaceAt {tree target new : Node} (htree : tree.Built) {path : List Nat}
    (htarget : tree.at? path = some target) (hnew : new.Inherits target) :
    (tree.replaceAt new path).Inherits tree := by
  refine ⟨htree.replaceAt htarget hnew.built, fun other id hmarks => ?_⟩
  induction path generalizing tree other with
  | nil =>
      cases htarget
      exact hnew.marks other id hmarks
  | cons position path ih =>
      obtain ⟨child, hchild, htarget⟩ := at?_cons_eq_some_iff.mp htarget
      rw [replaceAt_cons hchild] at hmarks
      cases other with
      | nil =>
          have hid := marks_nil.mp hmarks
          exact marks_nil.mpr hid
      | cons position' other =>
          obtain ⟨found, hfound, hmarks⟩ := marks_cons.mp hmarks
          by_cases hsame : position = position'
          · subst hsame
            rw [List.getElem?_set_self (List.getElem?_eq_some_iff.mp hchild).1] at hfound
            cases hfound
            exact marks_cons.mpr ⟨child, hchild,
              ih (htree.child (List.mem_of_getElem? hchild)) htarget other hmarks⟩
          · rw [List.getElem?_set_ne hsame] at hfound
            exact marks_cons.mpr ⟨found, hfound, hmarks⟩

/-! ## Updates without new nodes -/

/-- Changes of known fields, with no node among new children. -/
structure AddsNoNode (changes : Changes) : Prop where
  known : changes.unknown = []
  nodeless : ∀ children, changes.children = some children → ∀ child, .node child ∉ children

theorem addsNoNode_of_fields (tag : Option Tag) (attributes : Option (Entries Value)) :
    AddsNoNode { tag, attributes } :=
  ⟨rfl, nofun⟩

theorem Inherits.exchange {changes : Changes} (hchanges : AddsNoNode changes) {target : Node}
    (htarget : target.Built) (haccepted : ¬(changes.exchange target).IsRefused) :
    (changes.exchange target).Inherits target := by
  have hchild (child : Node) (hmem : .node child ∈ (changes.exchange target).children) :
      (changes.exchange target).children = target.children := by
    cases hchildren : changes.children with
    | none => rw [Changes.exchange, hchildren]; rfl
    | some children =>
        rw [Changes.exchange, hchildren] at hmem
        exact absurd (node_mem_withoutBlankTexts.mp hmem) (hchanges.nodeless children hchildren child)
  constructor
  · have hmade : (changes.exchange target).Remade := by
      have hchange := change_eq htarget.remade hchanges.known
      rw [if_neg haccepted, change, hchanges.known] at hchange
      exact remade_of_make hchange
    refine built_iff.mpr ⟨hmade, fun child hmem => ?_⟩
    rw [hchild child hmem] at hmem
    exact htarget.child hmem
  · rintro (_ | ⟨position, path⟩) id hmarks
    · have hid := marks_nil.mp hmarks
      exact marks_nil.mpr hid
    · obtain ⟨child, hposition, hmarks⟩ := marks_cons.mp hmarks
      rw [hchild child (List.mem_of_getElem? hposition)] at hposition
      exact marks_cons.mpr ⟨child, hposition, hmarks⟩

/-- A tree that is updated without new nodes inherits from the tree before. -/
theorem inherits_of_update? {tree : Node} (htree : tree.Built) {changes : Changes}
    (hchanges : AddsNoNode changes) {id : String} {new : Node}
    (h : tree.update? id changes = .ok (some new)) : new.Inherits tree := by
  rw [update?_eq hchanges.known] at h
  cases hpath : path? id tree with
  | none =>
      rw [updateFirst?_of_path?_eq_none hpath] at h
      cases h
  | some path =>
      obtain ⟨target, htarget, _⟩ := exists_at?_of_path? hpath
      have hbuilt := htree.at? htarget
      rw [updateFirst?_of_path? htree hpath htarget, change_eq hbuilt.remade hchanges.known] at h
      split at h
      · cases h
      · next haccepted =>
          cases h
          exact .replaceAt htree htarget (.exchange hchanges hbuilt haccepted)

theorem inherits_of_update {tree : Node} (htree : tree.Built) {changes : Changes}
    (hchanges : AddsNoNode changes) {id : String} {new : Node}
    (h : tree.update id changes = .ok new) : new.Inherits tree := by
  rw [update_eq] at h
  cases hupdate : tree.update? id changes with
  | error fault =>
      rw [hupdate] at h
      cases h
  | ok found =>
      rw [hupdate] at h
      cases h
      cases found with
      | none => exact .refl htree
      | some new => exact inherits_of_update? htree hchanges hupdate

/-! ## Reconciled trees -/

/-- A reconciled tree is marked at each path as one of its two trees is. -/
theorem Marks.of_reconcile {previous current : Node} {path : List Nat} {id : String}
    (h : (previous.reconcile current).Marks path id) :
    previous.Marks path id ∨ current.Marks path id := by
  obtain ⟨found, hfound, rfl⟩ := h
  rcases id_at?_reconcile hfound with ⟨_, hearlier⟩ | hcurrent
  · exact .inl hearlier
  · exact .inr hcurrent

end Node

namespace Panel

/-! ## Properties -/

/-- A property is set without new nodes, whatever its key and its value are. -/
theorem addsNoNode_of_changesFor {node : Node} {key : String} {value : Plain} {changes : Changes}
    (h : changesFor node key value = .ok changes) : Node.AddsNoNode changes := by
  rw [changesFor] at h
  split at h
  · obtain ⟨_, _, h⟩ := exists_of_bind_eq_ok h
    cases h
    exact ⟨rfl, nofun⟩
  · split at h
    · split at h
      · cases h
        refine ⟨rfl, fun children hchildren child hchild => ?_⟩
        cases hchildren
        simp at hchild
      · cases h
    · obtain ⟨_, _, h⟩ := exists_of_bind_eq_ok h
      cases h
      exact ⟨rfl, nofun⟩

/-- A tree in which a property is set inherits from the tree before. -/
theorem inherits_of_setProperty {tree : Node} (htree : tree.Built) {id key : String}
    {value : Plain} {new : Node} (h : setProperty tree id key value = .ok new) :
    new.Inherits tree := by
  rw [setProperty] at h
  split at h
  · cases h
    exact .refl htree
  · obtain ⟨changes, hchanges, h⟩ := exists_of_bind_eq_ok h
    exact Node.inherits_of_update htree (addsNoNode_of_changesFor hchanges) h

end Panel

end EditableMarkup
