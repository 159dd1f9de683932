import EditableMarkup.Proofs.Tree.Entries
import EditableMarkup.Proofs.Tree.Frame

/-!
# The numbers of a tree

A tree holds numbers in the attributes of its nodes, and in mappings there at any
depth.  Where a subtree is replaced, each number comes from the tree as it was or
from the new subtree, and those of the new subtree are all there.
-/

namespace EditableMarkup

/-! ## Finite numbers -/

/-- No number is infinite or undefined. -/
def AllFinite (numbers : List Number) : Prop :=
  ∀ number ∈ numbers, number.isFinite = true

instance (numbers : List Number) : Decidable (AllFinite numbers) :=
  inferInstanceAs (Decidable (∀ number ∈ numbers, number.isFinite = true))

theorem allFinite_append {first second : List Number} :
    AllFinite (first ++ second) ↔ AllFinite first ∧ AllFinite second :=
  List.forall_mem_append

theorem AllFinite.mono {fewer numbers : List Number} (h : AllFinite numbers)
    (hsubset : fewer ⊆ numbers) : AllFinite fewer :=
  fun number hnumber => h number (hsubset hnumber)

/-- All numbers are finite exactly if the new ones among them are, as the others were finite before. -/
theorem allFinite_iff {before new after : List Number} (hbefore : AllFinite before)
    (h : new ⊆ after ∧ after ⊆ before ++ new) : AllFinite after ↔ AllFinite new :=
  ⟨fun hafter => hafter.mono h.1, fun hnew => (allFinite_append.mpr ⟨hbefore, hnew⟩).mono h.2⟩

/-! ## Numbers of values -/

mutual

/-- All numbers in a value, also those in mappings. -/
def Value.numbers : Value → List Number
  | .number value => [value]
  | .mapping entries => Value.numbersIn entries
  | .string _ | .boolean _ | .expression _ => []

/-- All numbers in the values of entries. -/
def Value.numbersIn : List (String × Value) → List Number
  | [] => []
  | (_, value) :: rest => value.numbers ++ Value.numbersIn rest

end

theorem Value.mem_numbersIn_iff {number : Number} {entries : List (String × Value)} :
    number ∈ Value.numbersIn entries ↔ ∃ entry ∈ entries, number ∈ entry.2.numbers := by
  induction entries with
  | nil => simp [Value.numbersIn]
  | cons entry rest ih => simp [Value.numbersIn, ih]

/-- The numbers of a value that is set are there, and beside them only numbers that were there before. -/
theorem Entries.numbersIn_set (entries : Entries Value) (key : String) (value : Value) :
    value.numbers ⊆ Value.numbersIn (entries.set key value) ∧
      Value.numbersIn (entries.set key value) ⊆ Value.numbersIn entries ++ value.numbers := by
  constructor
  · intro number hnumber
    exact Value.mem_numbersIn_iff.mpr ⟨_, Entries.mem_set_self entries key value, hnumber⟩
  · intro number hnumber
    obtain ⟨entry, hentry, hnumber⟩ := Value.mem_numbersIn_iff.mp hnumber
    rcases Entries.mem_of_mem_set hentry with hold | rfl
    · exact List.mem_append_left _ (Value.mem_numbersIn_iff.mpr ⟨entry, hold, hnumber⟩)
    · exact List.mem_append_right _ hnumber

theorem Entries.allFinite_set_iff {entries : Entries Value}
    (h : AllFinite (Value.numbersIn entries)) (key : String) (value : Value) :
    AllFinite (Value.numbersIn (entries.set key value)) ↔ AllFinite value.numbers :=
  allFinite_iff h (entries.numbersIn_set key value)

/-! ## Numbers of trees -/

namespace Node

/-- All numbers in a tree. -/
def numbers (tree : Node) : List Number :=
  tree.nodes.flatMap fun node => Value.numbersIn node.attributes

theorem mem_numbers_iff {number : Number} {tree : Node} :
    number ∈ tree.numbers ↔
      ∃ path node, tree.at? path = some node ∧ number ∈ Value.numbersIn node.attributes := by
  simp only [numbers, List.mem_flatMap, mem_nodes_iff_exists_at?]
  constructor
  · rintro ⟨node, ⟨path, hpath⟩, hnumber⟩
    exact ⟨path, node, hpath, hnumber⟩
  · rintro ⟨path, node, hpath, hnumber⟩
    exact ⟨node, ⟨path, hpath⟩, hnumber⟩

/-- A number of a tree is in the attributes of its root or in one of the nodes among its children. -/
theorem mem_numbers_iff_mem_children {number : Number} {tree : Node} :
    number ∈ tree.numbers ↔ number ∈ Value.numbersIn tree.attributes ∨
      ∃ child, .node child ∈ tree.children ∧ number ∈ child.numbers := by
  rw [numbers, nodes_eq, List.flatMap_cons, List.mem_append]
  refine or_congr_right ?_
  simp only [List.mem_flatMap]
  constructor
  · rintro ⟨node, ⟨content, hcontent, hnode⟩, hnumber⟩
    cases content with
    | text _ | expression _ => cases hnode
    | node child => exact ⟨child, hcontent, List.mem_flatMap.mpr ⟨node, hnode, hnumber⟩⟩
  · rintro ⟨child, hchild, hnumber⟩
    obtain ⟨node, hnode, hnumber⟩ := List.mem_flatMap.mp hnumber
    exact ⟨node, ⟨.node child, hchild, hnode⟩, hnumber⟩

theorem allFinite_numbers_iff {tree : Node} :
    AllFinite tree.numbers ↔ AllFinite (Value.numbersIn tree.attributes) ∧
      ∀ child, .node child ∈ tree.children → AllFinite child.numbers := by
  constructor
  · intro h
    refine ⟨fun number hnumber => h number (mem_numbers_iff_mem_children.mpr (.inl hnumber)), ?_⟩
    intro child hchild number hnumber
    exact h number (mem_numbers_iff_mem_children.mpr (.inr ⟨child, hchild, hnumber⟩))
  · rintro ⟨hattributes, hchildren⟩ number hnumber
    rcases mem_numbers_iff_mem_children.mp hnumber with hnumber | ⟨child, hchild, hnumber⟩
    · exact hattributes number hnumber
    · exact hchildren child hchild number hnumber

theorem numbers_subset_of_at? {tree node : Node} {path : List Nat} (h : tree.at? path = some node) :
    node.numbers ⊆ tree.numbers := by
  intro number hnumber
  obtain ⟨rest, below, hbelow, hnumber⟩ := mem_numbers_iff.mp hnumber
  refine mem_numbers_iff.mpr ⟨path ++ rest, below, ?_, hnumber⟩
  rw [at?_append, h]
  exact hbelow

/-- After a replacement the numbers of the new subtree are there, and beside them only numbers that were
there before. -/
theorem numbers_replaceAt {tree target : Node} {path : List Nat} (h : tree.at? path = some target)
    (new : Node) : new.numbers ⊆ (tree.replaceAt new path).numbers ∧
      (tree.replaceAt new path).numbers ⊆ tree.numbers ++ new.numbers := by
  refine ⟨numbers_subset_of_at? (at?_replaceAt h new), fun number hnumber => ?_⟩
  obtain ⟨place, node, hnode, hnumber⟩ := mem_numbers_iff.mp hnumber
  by_cases hfront : path <+: place
  · obtain ⟨rest, rfl⟩ := hfront
    rw [at?_append, at?_replaceAt h] at hnode
    exact List.mem_append_right _ (mem_numbers_iff.mpr ⟨rest, node, hnode, hnumber⟩)
  · -- Away from the new subtree nodes have the attributes they had.
    have hfaces := face_at?_replaceAt h new hfront
    rw [hnode, Option.map_some, eq_comm, Option.map_eq_some_iff] at hfaces
    obtain ⟨before, hbefore, hface⟩ := hfaces
    have hattributes : before.attributes = node.attributes := congrArg Face.attributes hface
    refine List.mem_append_left _ (mem_numbers_iff.mpr ⟨place, before, hbefore, ?_⟩)
    rw [hattributes]
    exact hnumber

theorem allFinite_replaceAt_iff {tree target new : Node} (htree : AllFinite tree.numbers)
    {path : List Nat} (h : tree.at? path = some target) :
    AllFinite (tree.replaceAt new path).numbers ↔ AllFinite new.numbers :=
  allFinite_iff htree (numbers_replaceAt h new)

end Node

end EditableMarkup
