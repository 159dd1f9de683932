import EditableMarkup.Proofs.Tree.Digest
import EditableMarkup.Proofs.Tree.Entries
import EditableMarkup.Proofs.Tree.Frame

/-!
# Trees that are rearranged in one place

A tree in which the attributes of one node are rearranged is rearranged as a
whole, and has the same identifiers at the same paths.
-/

namespace EditableMarkup

/-! ## Rearranged entries -/

mutual

theorem Value.Rearranged.refl : (value : Value) → value.Rearranged value
  | .string text => .string text
  | .number value => .number value
  | .boolean value => .boolean value
  | .expression source => .expression source
  | .mapping entries => .mapping (Value.AllRearranged.refl entries) (.refl entries)

theorem Value.AllRearranged.refl : (entries : List (String × Value)) →
    Value.AllRearranged entries entries
  | [] => .nil
  | (key, value) :: rest => .cons key (Value.Rearranged.refl value) (Value.AllRearranged.refl rest)

end

namespace Entries

/-- Entries under the same keys, in any order, with rearranged values. -/
def Rearranged (entries others : Entries Value) : Prop :=
  ∃ middle, Value.AllRearranged entries middle ∧ middle.Perm others

theorem Rearranged.of_perm {entries others : Entries Value} (h : entries.Perm others) :
    entries.Rearranged others :=
  ⟨entries, .refl entries, h⟩

theorem Rearranged.mapping {entries others : Entries Value} (h : entries.Rearranged others) :
    (Value.mapping entries).Rearranged (.mapping others) := by
  obtain ⟨middle, hvalues, hperm⟩ := h
  exact .mapping hvalues hperm

/-- Under one key a value may be exchanged for a rearranged one. -/
theorem Rearranged.set (entries : Entries Value) (key : String) {value other : Value}
    (h : value.Rearranged other) : (entries.set key value).Rearranged (entries.set key other) := by
  refine ⟨entries.set key other, ?_, .refl _⟩
  induction entries with
  | nil => exact .cons key h .nil
  | cons entry rest ih =>
      obtain ⟨first, old⟩ := entry
      rw [Entries.set, Entries.set]
      split
      · exact .cons key h (.refl rest)
      · exact .cons first (.refl old) ih

end Entries

/-! ## Rearranged nodes -/

namespace Node

mutual

theorem Rearranged.refl : (tree : Node) → tree.Rearranged tree
  | ⟨tag, attributes, children, id⟩ =>
    .node tag id id (.refl attributes) (.refl attributes) (AllRearranged.refl children)

theorem AllRearranged.refl : (children : List (Content Node)) → AllRearranged children children
  | [] => .nil
  | .text text :: rest => .text text (AllRearranged.refl rest)
  | .expression source :: rest => .expression source (AllRearranged.refl rest)
  | .node child :: rest => .node (Rearranged.refl child) (AllRearranged.refl rest)

end

/-- Two nodes that differ in the order of their attributes, and of the entries in these, only. -/
structure Reordered (node other : Node) : Prop where
  tag : other.tag = node.tag
  attributes : node.attributes.Rearranged other.attributes
  children : other.children = node.children
  id : other.id = node.id

theorem Reordered.refl (node : Node) : node.Reordered node :=
  ⟨rfl, .of_perm (.refl _), rfl, rfl⟩

theorem Reordered.rearranged {node other : Node} (h : node.Reordered other) :
    node.Rearranged other := by
  obtain ⟨tag, attributes, children, id⟩ := node
  obtain ⟨tag', attributes', children', id'⟩ := other
  obtain ⟨rfl, ⟨middle, hvalues, hperm⟩, rfl, rfl⟩ := h
  exact .node tag' id' id' hvalues hperm (.refl children')

theorem AllRearranged.set {node other : Node} (h : node.Rearranged other)
    (children : List (Content Node)) (position : Nat) :
    AllRearranged (children.set position (.node node)) (children.set position (.node other)) := by
  induction children generalizing position with
  | nil => exact .nil
  | cons content rest ih =>
      cases position with
      | zero => exact .node h (.refl rest)
      | succ position =>
          cases content with
          | text text => exact .text text (ih position)
          | expression source => exact .expression source (ih position)
          | node child => exact .node (.refl child) (ih position)

/-- A tree in which one subtree is rearranged is rearranged. -/
theorem Rearranged.replaceAt {node other : Node} (h : node.Rearranged other) (tree : Node)
    (path : List Nat) : (tree.replaceAt node path).Rearranged (tree.replaceAt other path) := by
  induction path generalizing tree with
  | nil => exact h
  | cons position path ih =>
      rw [Node.replaceAt, Node.replaceAt]
      split
      · next child hchild =>
          exact .node tree.tag tree.id tree.id (.refl _) (.refl _) (.set (ih child) _ _)
      · exact .refl tree

/-- Reordered attributes of one node leave all identifiers where they are. -/
theorem Reordered.id_at?_replaceAt {tree target node other : Node} {path : List Nat}
    (h : node.Reordered other) (htarget : tree.at? path = some target) (place : List Nat) :
    ((tree.replaceAt other path).at? place).map Node.id =
      ((tree.replaceAt node path).at? place).map Node.id := by
  by_cases hfront : path <+: place
  · obtain ⟨rest, rfl⟩ := hfront
    rw [at?_append, at?_append, at?_replaceAt htarget, at?_replaceAt htarget, Option.bind_some,
      Option.bind_some]
    cases rest with
    | nil => exact congrArg some h.id
    | cons position rest => rw [at?, at?, h.children]
  · have hfaces := (face_at?_replaceAt htarget other hfront).trans
      (face_at?_replaceAt htarget node hfront).symm
    have hids := congrArg (Option.map Face.id) hfaces
    rw [Option.map_map, Option.map_map] at hids
    exact hids

/-- A proper tree stays proper when a subtree is replaced by another proper one. -/
theorem Proper.replaceAt {tree target new : Node} (htree : tree.Proper) {path : List Nat}
    (htarget : tree.at? path = some target) (hnew : new.Proper) :
    (tree.replaceAt new path).Proper := by
  induction path generalizing tree with
  | nil => exact hnew
  | cons position path ih =>
      obtain ⟨child, hchild, htarget⟩ := at?_cons_eq_some_iff.mp htarget
      obtain ⟨hattributes, hbelow⟩ := proper_iff.mp htree
      rw [replaceAt_cons hchild]
      refine proper_iff.mpr ⟨hattributes, fun other hother => ?_⟩
      rcases List.mem_or_eq_of_mem_set hother with hkept | heq
      · exact hbelow other hkept
      · cases heq
        exact ih (hbelow child (List.mem_of_getElem? hchild)) htarget

end Node

end EditableMarkup
