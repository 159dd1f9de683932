import EditableMarkup.Proofs.Tree.Built

/-!
# Replacing a subtree

The subtree at the end of a path can be replaced by another tree.  What nodes
hold themselves, away from the replaced subtree, is kept: their tags,
attributes and identifiers, their texts and expressions, and the positions of
all of these.  Of two subtrees in one place the last one stays, and subtrees apart
from each other are replaced in either order.
-/

namespace EditableMarkup

/-- What a node holds itself; of the nodes among its children only the positions are kept. -/
structure Face where
  tag : Tag
  attributes : Entries Value
  children : List (Content Unit)
  id : String

namespace Node

/-- The face of a node. -/
def face (node : Node) : Face where
  tag := node.tag
  attributes := node.attributes
  children := node.children.map (Content.map fun _ => ())
  id := node.id

/-- The tree with another tree in the place to which a path leads. -/
def replaceAt (tree new : Node) : List Nat → Node
  | [] => new
  | position :: path =>
    match tree.children[position]? with
    | some (.node child) =>
      { tree with children := tree.children.set position (.node (child.replaceAt new path)) }
    | _ => tree

theorem replaceAt_cons {tree child : Node} {position : Nat}
    (hchild : tree.children[position]? = some (.node child)) (new : Node) (path : List Nat) :
    tree.replaceAt new (position :: path) =
      { tree with children := tree.children.set position (.node (child.replaceAt new path)) } := by
  rw [replaceAt, hchild]

/-- The replaced subtree is found at the end of the path. -/
theorem at?_replaceAt {tree target : Node} {path : List Nat} (h : tree.at? path = some target)
    (new : Node) : (tree.replaceAt new path).at? path = some new := by
  induction path generalizing tree with
  | nil => rfl
  | cons position path ih =>
      obtain ⟨child, hchild, htarget⟩ := at?_cons_eq_some_iff.mp h
      rw [replaceAt_cons hchild]
      refine at?_cons_eq_some_iff.mpr ⟨child.replaceAt new path, ?_, ih htarget⟩
      exact List.getElem?_set_self (List.getElem?_eq_some_iff.mp hchild).1

/-- Nothing changes where a subtree is replaced by itself. -/
theorem replaceAt_self {tree target : Node} {path : List Nat} (h : tree.at? path = some target) :
    tree.replaceAt target path = tree := by
  induction path generalizing tree with
  | nil =>
      cases h
      rfl
  | cons position path ih =>
      obtain ⟨child, hchild, htarget⟩ := at?_cons_eq_some_iff.mp h
      obtain ⟨hposition, hget⟩ := List.getElem?_eq_some_iff.mp hchild
      have hsame : tree.children.set position (.node child) = tree.children := by
        rw [← hget, List.set_getElem_self]
      rw [replaceAt_cons hchild, ih htarget, hsame]
      cases tree
      rfl

/-- The search for an identifier still ends where a subtree was replaced, if its root keeps the
identifier. -/
theorem path?_replaceAt {id : String} {tree new : Node} {path : List Nat}
    (hpath : path? id tree = some path) (hid : new.id = id) :
    path? id (tree.replaceAt new path) = some path := by
  induction tree using Node.induction generalizing path with
  | step tree ih =>
      rw [path?_eq] at hpath
      split at hpath
      · cases hpath
        rw [replaceAt, path?_eq, if_pos hid]
      · next hother =>
          obtain ⟨position, child, rest, rfl, hchild, hrest, hnone⟩ := pathIn?_eq_some hpath
          rw [Nat.zero_add] at hpath ⊢
          obtain ⟨hposition, _⟩ := List.getElem?_eq_some_iff.mp hchild
          have hbelow := ih child (List.mem_of_getElem? hchild) hrest
          rw [replaceAt_cons hchild, path?_eq, if_neg hother,
            pathIn?_of_getElem? (List.getElem?_set_self hposition) hbelow, Nat.zero_add]
          rw [List.take_set_of_le (Nat.le_refl position)]
          exact hnone

theorem face_set_children {tree child : Node} {position : Nat}
    (hchild : tree.children[position]? = some (.node child)) (new : Node) :
    face { tree with children := tree.children.set position (.node new) } = tree.face := by
  have hsame : (tree.children.set position (.node new)).map (Content.map fun _ => ()) =
      tree.children.map (Content.map fun _ => ()) := by
    obtain ⟨hposition, hget⟩ := List.getElem?_eq_some_iff.mp hchild
    have hbound : position < (tree.children.map (Content.map fun _ => ())).length := by
      rw [List.length_map]
      exact hposition
    have hmark : (tree.children.map (Content.map fun _ => ()))[position] =
        Content.map (fun _ => ()) (.node new) := by
      rw [List.getElem_map, hget]
      rfl
    rw [List.map_set, ← hmark, List.set_getElem_self]
  rw [face, face, hsame]

/-- Away from the replaced subtree every path leads to a node with the same face. -/
theorem face_at?_replaceAt {tree target : Node} {path : List Nat} (h : tree.at? path = some target)
    (new : Node) {other : List Nat} (haway : ¬path <+: other) :
    ((tree.replaceAt new path).at? other).map face = (tree.at? other).map face := by
  induction path generalizing tree other with
  | nil => exact absurd List.nil_prefix haway
  | cons position path ih =>
      obtain ⟨child, hchild, htarget⟩ := at?_cons_eq_some_iff.mp h
      rw [replaceAt_cons hchild]
      match other with
      | [] => exact congrArg some (face_set_children hchild _)
      | position' :: other =>
          rw [at?, at?]
          by_cases hsame : position = position'
          · subst hsame
            rw [List.getElem?_set_self (List.getElem?_eq_some_iff.mp hchild).1, hchild]
            exact ih htarget fun hfront => haway (List.cons_prefix_cons.mpr ⟨rfl, hfront⟩)
          · rw [List.getElem?_set_ne hsame]

/-! ## Replacing two subtrees -/

/-- Neither of two paths leads on from the other, so that no node is at or below both of their ends.
-/
def Apart (path other : List Nat) : Prop :=
  ¬path <+: other ∧ ¬other <+: path

theorem Apart.symm {path other : List Nat} (h : Apart path other) : Apart other path :=
  And.symm h

theorem apart_cons {position position' : Nat} {path other : List Nat} :
    Apart (position :: path) (position' :: other) ↔ position = position' → Apart path other := by
  simp only [Apart, List.cons_prefix_cons, not_and]
  exact ⟨fun h hsame => ⟨h.1 hsame, h.2 hsame.symm⟩,
    fun h => ⟨fun hsame => (h hsame).1, fun hsame => (h hsame.symm).2⟩⟩

section Twice

variable {tree target new last : Node} {path other : List Nat}

/-- The last subtree that is put in a place stays. -/
theorem replaceAt_replaceAt (h : tree.at? path = some target) (new last : Node) :
    (tree.replaceAt new path).replaceAt last path = tree.replaceAt last path := by
  induction path generalizing tree with
  | nil => rfl
  | cons position path ih =>
      obtain ⟨child, hchild, htarget⟩ := at?_cons_eq_some_iff.mp h
      have hposition := (List.getElem?_eq_some_iff.mp hchild).1
      rw [replaceAt_cons hchild, replaceAt_cons hchild,
        replaceAt_cons (List.getElem?_set_self hposition), ih htarget, List.set_set]

/-- A subtree of a subtree is replaced by replacing the latter. -/
theorem replaceAt_append (h : tree.at? path = some target) (new : Node) (rest : List Nat) :
    tree.replaceAt new (path ++ rest) = tree.replaceAt (target.replaceAt new rest) path := by
  induction path generalizing tree with
  | nil =>
      cases h
      rfl
  | cons position path ih =>
      obtain ⟨child, hchild, htarget⟩ := at?_cons_eq_some_iff.mp h
      rw [List.cons_append, replaceAt_cons hchild, replaceAt_cons hchild, ih htarget]

/-- Away from the replaced subtree everything is found as before. -/
theorem at?_replaceAt_of_apart (h : tree.at? path = some target) (new : Node)
    (hapart : Apart path other) : (tree.replaceAt new path).at? other = tree.at? other := by
  induction path generalizing tree other with
  | nil => exact absurd List.nil_prefix hapart.1
  | cons position path ih =>
      obtain ⟨child, hchild, htarget⟩ := at?_cons_eq_some_iff.mp h
      match other with
      | [] => exact absurd List.nil_prefix hapart.2
      | position' :: other =>
          rw [replaceAt_cons hchild, at?, at?]
          by_cases hsame : position = position'
          · subst hsame
            rw [List.getElem?_set_self (List.getElem?_eq_some_iff.mp hchild).1, hchild]
            exact ih htarget (apart_cons.mp hapart rfl)
          · rw [List.getElem?_set_ne hsame]

/-- Two subtrees apart from each other are replaced in either order. -/
theorem replaceAt_comm {target' : Node} (h : tree.at? path = some target)
    (h' : tree.at? other = some target') (hapart : Apart path other) (new last : Node) :
    (tree.replaceAt new path).replaceAt last other =
      (tree.replaceAt last other).replaceAt new path := by
  induction path generalizing tree other with
  | nil => exact absurd List.nil_prefix hapart.1
  | cons position path ih =>
      obtain ⟨child, hchild, htarget⟩ := at?_cons_eq_some_iff.mp h
      match other with
      | [] => exact absurd List.nil_prefix hapart.2
      | position' :: other =>
          obtain ⟨child', hchild', htarget'⟩ := at?_cons_eq_some_iff.mp h'
          rw [replaceAt_cons hchild, replaceAt_cons hchild']
          by_cases hsame : position = position'
          · subst hsame
            cases Option.some.inj (hchild.symm.trans hchild')
            have hposition := (List.getElem?_eq_some_iff.mp hchild).1
            rw [replaceAt_cons (List.getElem?_set_self hposition),
              replaceAt_cons (List.getElem?_set_self hposition),
              ih htarget htarget' (apart_cons.mp hapart rfl), List.set_set, List.set_set]
          · have hlater : (tree.children.set position (.node (child.replaceAt new path)))[position']? =
                some (.node child') := (List.getElem?_set_ne hsame).trans hchild'
            have hearlier :
                (tree.children.set position' (.node (child'.replaceAt last other)))[position]? =
                  some (.node child) := (List.getElem?_set_ne (Ne.symm hsame)).trans hchild
            rw [replaceAt_cons hlater, replaceAt_cons hearlier, List.set_comm _ _ hsame]

end Twice

/-! ## Searching after a replacement -/

section Search

variable {id : String} {tree target new : Node} {path : List Nat}

/-- A search among children has the same outcome if it has the same outcome in every child. -/
theorem pathIn?_set {children : List (Content Node)} {position : Nat} {child : Node}
    (hchild : children[position]? = some (.node child)) (hsame : path? id new = path? id child)
    (start : Nat) :
    pathIn? id start (children.set position (.node new)) = pathIn? id start children := by
  induction children generalizing position start with
  | nil => cases hchild
  | cons content rest ih =>
      cases position with
      | zero =>
          cases hchild
          rw [List.set_cons_zero, pathIn?, pathIn?, hsame]
      | succ position =>
          have hrest := ih hchild (start + 1)
          rw [List.set_cons_succ]
          cases content with
          | text _ | expression _ => exact hrest
          | node other => rw [pathIn?, pathIn?, hrest]

/-- A search in a tree has the same outcome as before, if it has in the replaced subtree. -/
theorem path?_replaceAt_of_eq (h : tree.at? path = some target)
    (hsame : path? id new = path? id target) : path? id (tree.replaceAt new path) = path? id tree := by
  induction path generalizing tree with
  | nil =>
      cases h
      exact hsame
  | cons position path ih =>
      obtain ⟨child, hchild, htarget⟩ := at?_cons_eq_some_iff.mp h
      rw [replaceAt_cons hchild, path?_eq, path?_eq id tree, pathIn?_set hchild (ih htarget)]

/-- What is not found in a tree is not found in a part of it. -/
theorem path?_eq_none_of_at? (h : tree.at? path = some target) (hnone : path? id tree = none) :
    path? id target = none := by
  rw [path?_eq_none_iff] at hnone ⊢
  intro hmem
  obtain ⟨rest, node, hnode, hid⟩ := mem_ids_iff.mp hmem
  refine hnone (mem_ids_iff.mpr ⟨path ++ rest, node, ?_, hid⟩)
  rw [at?_append, h]
  exact hnode

/-- What is found elsewhere is still found there after a replacement, if it is not in the new subtree,
which may be searched first. -/
theorem path?_replaceAt_of_apart {other : List Nat} (h : tree.at? path = some target)
    (hother : path? id tree = some other) (hapart : ¬path <+: other)
    (hnew : path? id new = none) : path? id (tree.replaceAt new path) = some other := by
  induction path generalizing tree other with
  | nil => exact absurd List.nil_prefix hapart
  | cons position path ih =>
      obtain ⟨child, hchild, htarget⟩ := at?_cons_eq_some_iff.mp h
      rw [path?_eq] at hother
      rw [replaceAt_cons hchild, path?_eq]
      split at hother
      · next hid => rw [if_pos hid, hother]
      · next hid =>
          obtain ⟨position', child', rest, rfl, hchild', hrest, hnone⟩ := pathIn?_eq_some hother
          rw [Nat.zero_add] at hapart
          rw [if_neg hid]
          -- If the replaced child is searched first, nothing was found there, and nothing is now.
          have hpassed : ∀ content, .node content ∈
              (tree.children.set position (.node (child.replaceAt new path))).take position' →
                path? id content = none := by
            intro content hcontent
            by_cases hfront : position < position'
            · rw [List.take_set] at hcontent
              rcases List.mem_or_eq_of_mem_set hcontent with hkept | heq
              · exact hnone content hkept
              · cases heq
                have hfirst : path? id child = none := by
                  refine hnone child (List.mem_of_getElem? (i := position) ?_)
                  rw [List.getElem?_take_of_lt hfront]
                  exact hchild
                have hsame := hnew.trans (path?_eq_none_of_at? htarget hfirst).symm
                rw [path?_replaceAt_of_eq htarget hsame, hfirst]
            · rw [List.take_set_of_le (Nat.le_of_not_lt hfront)] at hcontent
              exact hnone content hcontent
          by_cases hsame : position = position'
          · subst hsame
            cases Option.some.inj (hchild.symm.trans hchild')
            have hbelow := ih htarget hrest fun hfront =>
              hapart (List.cons_prefix_cons.mpr ⟨rfl, hfront⟩)
            exact pathIn?_of_getElem? (List.getElem?_set_self (List.getElem?_eq_some_iff.mp hchild).1)
              hbelow hpassed 0
          · exact pathIn?_of_getElem? ((List.getElem?_set_ne hsame).trans hchild') hrest hpassed 0

end Search

end Node

end EditableMarkup
