import EditableMarkup.Proofs.Panel.Properties

/-!
# What a node becomes

A property is set by making one node anew: the first with the identifier, which is
put back in its place.  A text content takes the place of all children; any other
property is an attribute or an entry of the style, and is refused where its value
cannot be set or the node is a fragment.
-/

namespace EditableMarkup.Panel

/-! ## Numbers and texts that are set -/

theorem finiteNumber_eq_ok_iff {number : Number} {value : Value} :
    finiteNumber number = .ok value ↔ number.isFinite = true ∧ value = .number number := by
  rw [finiteNumber]
  cases number.isFinite with
  | false => simp
  | true => simp [eq_comm]

/-- Where a text content takes the place of the children, no node is left among them. -/
theorem node_not_mem_textContent (child : Node) (text : String) :
    .node child ∉ Node.withoutBlankTexts [.text text] := by
  intro hchild
  cases List.mem_singleton.mp (Node.node_mem_withoutBlankTexts.mp hchild)

/-! ## Setting a property of a node -/

/-- The node with one of its properties set. -/
def write (node : Node) (key : String) (plain : Plain) : Except Fault Node := do
  node.change (← changesFor node key plain)

theorem written_ne_nil (node : Node) (key : String) (value : Value) : written node key value ≠ [] := by
  have hset (key : String) (value : Value) : node.attributes.set key value ≠ [] :=
    List.ne_nil_of_mem (Entries.mem_set_self node.attributes key value)
  unfold written
  split
  · exact hset _ _
  · exact hset _ _

/-- The text content takes the place of all children, if it can be written. -/
theorem write_textKey {node : Node} (hnode : node.Remade) (plain : Plain) :
    write node textKey plain =
      if plain.isWritable then
        .ok { node with children := Node.withoutBlankTexts [.text plain.text] }
      else .error .tooManyDigits := by
  let changes : Changes := { children := some [.text plain.text] }
  have haccepted : ¬(changes.exchange node).IsRefused := fun hrefused =>
    hrefused.2 ((Node.remade_iff.mp hnode).1 hrefused.1)
  have hchange := Node.change_eq hnode (show changes.unknown = [] from rfl)
  rw [if_neg haccepted] at hchange
  have hname : styleName? textKey = none := by decide
  rw [write, changesFor, hname]
  simp only [if_true]
  split
  · exact hchange
  · rfl

/-- Any other property is set among the attributes, unless its value is refused or the node is a
fragment; a value that is refused is noticed first. -/
theorem write_of_ne {node : Node} (hnode : node.Remade) {key : String} (htext : key ≠ textKey)
    (plain : Plain) :
    write node key plain = (do
      let value ← valueOf plain
      if node.tag = .fragment then .error .fragmentAttributes
      else .ok { node with attributes := written node key value }) := by
  rw [write, changesFor_eq htext]
  cases valueOf plain with
  | error fault => rfl
  | ok value =>
      let changes : Changes := { attributes := some (written node key value) }
      have hrefused : (changes.exchange node).IsRefused ↔ node.tag = .fragment :=
        and_iff_left (written_ne_nil node key value)
      have hchange := Node.change_eq hnode (show changes.unknown = [] from rfl)
      simp only [hrefused] at hchange
      exact hchange

theorem remade_of_write {node changed : Node} {key : String} {plain : Plain}
    (h : write node key plain = .ok changed) : changed.Remade := by
  obtain ⟨changes, hchanges, h⟩ := exists_of_bind_eq_ok h
  rw [Node.change, (addsNoNode_of_changesFor hchanges).known] at h
  exact Node.remade_of_make h

/-- What a node becomes when a property is set: a text content takes the place of its children, or a
value is written among its attributes. -/
inductive Writes (node : Node) (key : String) (plain : Plain) : Node → Prop
  | children (htext : key = textKey) (hwritable : plain.isWritable = true) :
      Writes node key plain { node with children := Node.withoutBlankTexts [.text plain.text] }
  | attributes (htext : key ≠ textKey) (htag : node.tag ≠ .fragment) {value : Value}
      (hvalue : valueOf plain = .ok value) :
      Writes node key plain { node with attributes := written node key value }

theorem write_eq_ok_iff {node changed : Node} (hnode : node.Remade) {key : String} {plain : Plain} :
    write node key plain = .ok changed ↔ Writes node key plain changed := by
  constructor
  · intro h
    by_cases htext : key = textKey
    · rw [htext, write_textKey hnode] at h
      split at h
      · next hwritable =>
          cases h
          exact .children htext hwritable
      · cases h
    · rw [write_of_ne hnode htext] at h
      obtain ⟨value, hvalue, h⟩ := exists_of_bind_eq_ok h
      split at h
      · cases h
      · next htag =>
          cases h
          exact .attributes htext htag hvalue
  · rintro (⟨rfl, hwritable⟩ | ⟨htext, htag, hvalue⟩)
    · rw [write_textKey hnode, if_pos hwritable]
    · rw [write_of_ne hnode htext, hvalue]
      exact if_neg htag

/-! ## Setting a property of a tree -/

section Tree

variable {tree new node : Node} {id key : String} {plain : Plain} {path : List Nat}

theorem setProperty_of_find?_eq_none (h : tree.find? id = none) (key : String) (plain : Plain) :
    setProperty tree id key plain = .ok tree := by
  rw [setProperty, h]

theorem setProperty_of_path?_eq_none (h : Node.path? id tree = none) (key : String) (plain : Plain) :
    setProperty tree id key plain = .ok tree := by
  refine setProperty_of_find?_eq_none ?_ key plain
  rw [Node.find?_eq, h]
  rfl

/-- What becomes of a property is decided where the path of the identifier ends: it is refused there, or
the node with the property takes its place. -/
theorem setProperty_of_path? (hbuilt : tree.Built) (hpath : Node.path? id tree = some path)
    (hnode : tree.at? path = some node) (key : String) (plain : Plain) :
    setProperty tree id key plain =
      (fun changed => tree.replaceAt changed path) <$> write node key plain := by
  have hfind : tree.find? id = some node := by rw [Node.find?_eq, hpath, Option.bind_some, hnode]
  rw [setProperty, hfind, write]
  dsimp only
  cases hchanges : changesFor node key plain with
  | error fault => rfl
  | ok changes =>
      exact Node.update_of_path? hbuilt hpath hnode (addsNoNode_of_changesFor hchanges).known

/-- A property of the node at the end of a path is set, and the node is put back in its place. -/
structure WrittenAt (tree : Node) (id key : String) (plain : Plain) (path : List Nat)
    (node changed new : Node) : Prop where
  found : Node.path? id tree = some path
  leads : tree.at? path = some node
  made : write node key plain = .ok changed
  result : new = tree.replaceAt changed path

theorem WrittenAt.setProperty_eq {changed : Node}
    (h : WrittenAt tree id key plain path node changed new) (hbuilt : tree.Built) :
    setProperty tree id key plain = .ok new := by
  rw [setProperty_of_path? hbuilt h.found h.leads, h.made, h.result]
  rfl

/-- A tree in which a property is set is the same tree if no node has the identifier, and otherwise the
property is set at the end of a path. -/
theorem cases_of_setProperty (hbuilt : tree.Built) (h : setProperty tree id key plain = .ok new) :
    Node.path? id tree = none ∧ new = tree ∨
      ∃ path node changed, WrittenAt tree id key plain path node changed new := by
  cases hpath : Node.path? id tree with
  | none =>
      rw [setProperty_of_path?_eq_none hpath] at h
      exact .inl ⟨rfl, (Except.ok.inj h).symm⟩
  | some path =>
      obtain ⟨node, hnode, _⟩ := Node.exists_at?_of_path? hpath
      rw [setProperty_of_path? hbuilt hpath hnode] at h
      cases hwrite : write node key plain with
      | error fault =>
          rw [hwrite] at h
          cases h
      | ok changed =>
          rw [hwrite] at h
          exact .inr ⟨path, node, changed, hpath, hnode, hwrite, (Except.ok.inj h).symm⟩

end Tree

end EditableMarkup.Panel
